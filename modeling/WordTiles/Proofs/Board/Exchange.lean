import WordTiles.Board.Lemmas

/-! Changes of a board that can change places. A board is what its queries answer, so two boards with the
same answers are one. Destructions can be exchanged with each other and with relocations, and relocations
of two different entities with each other. -/

namespace WordTiles.Board

open Std

variable {b b' : Board} {id k : EntityId} {c e : Cell} {ids ids' : List EntityId}

/-- Boards on which every query has the same answer are equal. -/
theorem ext_queries (hnext : b.nextId = b'.nextId) (hlive : ∀ k, k ∈ b.live ↔ k ∈ b'.live)
    (hcell : ∀ k, b.cell? k = b'.cell? k) (hname : ∀ k, b.name? k = b'.name? k)
    (hword : ∀ k, b.word? k = b'.word? k) : b = b' :=
  Board.ext hnext (ExtTreeSet.ext_mem fun {k} => hlive k) (ExtTreeMap.ext_getElem? fun {k} => hcell k)
    (ExtTreeMap.ext_getElem? fun {k} => hname k) (ExtTreeMap.ext_getElem? fun {k} => hword k)

theorem relocate_relocate_comm (h : id ≠ k) :
    (b.relocate id c).relocate k e = (b.relocate k e).relocate id c := by
  refine ext_queries rfl (fun _ => Iff.rfl) (fun j => ?_) (fun _ => rfl) (fun _ => rfl)
  simp only [cell?_relocate]
  by_cases hid : j = id
  · subst hid
    rw [if_neg h, if_neg h]
  · rw [if_neg hid, if_neg hid]

theorem destroy_relocate_comm : (b.relocate k c).destroy id = (b.destroy id).relocate k c := by
  refine ext_queries ?_ (fun j => ?_) (fun j => ?_) (fun j => ?_) (fun j => ?_)
  · rw [nextId_destroy, nextId_relocate, nextId_relocate, nextId_destroy]
  · rw [live_relocate, mem_live_destroy, mem_live_destroy, live_relocate]
  · simp only [cell?_destroy, cell?_relocate, live_relocate]
    split <;> split <;> rfl
  · rw [name?_destroy, name?_relocate, name?_relocate, name?_destroy]
    rfl
  · rw [word?_destroy, word?_relocate, word?_relocate, word?_destroy]
    rfl

theorem destroy_destroy_comm : (b.destroy id).destroy k = (b.destroy k).destroy id := by
  by_cases hk : id = k
  · rw [hk]
  -- of two entities that are not the same, the one is as live without the other
  have hk' : k ≠ id := Ne.symm hk
  refine ext_queries ?_ (fun j => ?_) (fun j => ?_) (fun j => ?_) (fun j => ?_)
  · simp only [nextId_destroy]
  · simp only [mem_live_destroy, and_right_comm]
  all_goals
    simp only [cell?_destroy, name?_destroy, word?_destroy, mem_live_destroy, hk, hk', ne_eq,
      not_false_eq_true, and_true]
    split <;> split <;> rfl

/-! ### Many destructions -/

theorem destroyAll_destroy_comm :
    (b.destroy id).destroyAll ids = (b.destroyAll ids).destroy id := by
  induction ids generalizing b with
  | nil => rfl
  | cons k ids ih =>
    calc ((b.destroy id).destroy k).destroyAll ids
        = ((b.destroy k).destroy id).destroyAll ids := by rw [destroy_destroy_comm]
      _ = ((b.destroy k).destroyAll ids).destroy id := ih

theorem destroyAll_destroyAll_comm :
    (b.destroyAll ids).destroyAll ids' = (b.destroyAll ids').destroyAll ids := by
  induction ids generalizing b with
  | nil => rfl
  | cons id ids ih =>
    calc ((b.destroy id).destroyAll ids).destroyAll ids'
        = ((b.destroy id).destroyAll ids').destroyAll ids := ih
      _ = ((b.destroyAll ids').destroy id).destroyAll ids := by rw [destroyAll_destroy_comm]

theorem destroyAll_relocate_comm :
    (b.relocate k c).destroyAll ids = (b.destroyAll ids).relocate k c := by
  induction ids generalizing b with
  | nil => rfl
  | cons id ids ih =>
    calc ((b.relocate k c).destroy id).destroyAll ids
        = ((b.destroy id).relocate k c).destroyAll ids := by rw [destroy_relocate_comm]
      _ = ((b.destroy id).destroyAll ids).relocate k c := ih

end WordTiles.Board
