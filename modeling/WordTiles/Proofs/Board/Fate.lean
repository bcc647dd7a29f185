import WordTiles.Board.Lemmas
import WordTiles.Rules.PropertyTable

/-! What becomes of one entity when the board changes: it keeps what it is, wherever it may stand
then, or it is gone with all that it carried. An entity that was never live cannot be destroyed. -/

namespace WordTiles

namespace Board

variable {b b' b'' : Board} {id k : EntityId} {c : Cell}

/-- The entity is as live as before and has its name and its word tile. -/
structure Kept (b b' : Board) (id : EntityId) : Prop where
  live : id ∈ b'.live ↔ id ∈ b.live
  name : b'.name? id = b.name? id
  word : b'.word? id = b.word? id

/-- The entity is kept and stands where it stood. -/
structure Stays (b b' : Board) (id : EntityId) : Prop extends Kept b b' id where
  cell : b'.cell? id = b.cell? id

/-- The entity was live and nothing of it is left. -/
structure Gone (b b' : Board) (id : EntityId) : Prop where
  live : id ∈ b.live
  dead : ¬ id ∈ b'.live
  cell : b'.cell? id = none
  name : b'.name? id = none
  word : b'.word? id = none

/-- The entity is gone, or it is kept and its cell has changed by `f`. -/
def Carries (f : Cell → Cell) (b b' : Board) (id : EntityId) : Prop :=
  Gone b b' id ∨ Kept b b' id ∧ b'.cell? id = (b.cell? id).map f

namespace Kept

theorem refl (b : Board) (id : EntityId) : Kept b b id := ⟨Iff.rfl, rfl, rfl⟩

theorem trans (h : Kept b b' id) (h' : Kept b' b'' id) : Kept b b'' id :=
  ⟨h'.live.trans h.live, h'.name.trans h.name, h'.word.trans h.word⟩

theorem isWord (h : Kept b b' id) : b'.isWord id = b.isWord id := by
  rw [isWord_eq_isSome, isWord_eq_isSome, h.word]

theorem gone (h : Kept b b' id) (h' : Gone b' b'' id) : Gone b b'' id :=
  ⟨h.live.mp h'.live, h'.dead, h'.cell, h'.name, h'.word⟩

end Kept

namespace Stays

theorem refl (b : Board) (id : EntityId) : Stays b b id := ⟨.refl b id, rfl⟩

theorem trans (h : Stays b b' id) (h' : Stays b' b'' id) : Stays b b'' id :=
  ⟨h.toKept.trans h'.toKept, h'.cell.trans h.cell⟩

theorem carries (h : Stays b b' id) : Carries (fun c => c) b b' id :=
  .inr ⟨h.toKept, by rw [h.cell, Option.map_id_fun']; rfl⟩

end Stays

namespace Carries

variable {f g : Cell → Cell}

theorem refl (b : Board) (id : EntityId) : Carries (fun c => c) b b id := (Stays.refl b id).carries

/-- What is gone stays away. -/
theorem gone (h : Gone b b' id) (h' : Carries g b' b'' id) : Gone b b'' id := by
  rcases h' with h' | ⟨hk', hc'⟩
  · exact absurd h'.live h.dead
  · have hdead : ¬ id ∈ b''.live := fun hl => h.dead (hk'.live.mp hl)
    have hcell : b''.cell? id = none := by rw [hc', h.cell, Option.map_none]
    exact ⟨h.live, hdead, hcell, hk'.name.trans h.name, hk'.word.trans h.word⟩

theorem trans (h : Carries f b b' id) (h' : Carries g b' b'' id) :
    Carries (fun c => g (f c)) b b'' id := by
  rcases h with h | ⟨hk, hc⟩
  · exact .inl (gone h h')
  · rcases h' with h' | ⟨hk', hc'⟩
    · exact .inl (hk.gone h')
    · refine .inr ⟨hk.trans hk', ?_⟩
      rw [hc', hc, Option.map_map]
      rfl

/-- What stands somewhere after the change is not gone. -/
theorem kept (h : Carries f b b' id) (hc : b'.cell? id = some c) : Kept b b' id := by
  rcases h with h | ⟨hk, -⟩
  · rw [h.cell] at hc; contradiction
  · exact hk

end Carries

/-! ### Relocation and destruction -/

theorem kept_relocate (b : Board) (id k : EntityId) (c : Cell) : Kept b (b.relocate id c) k :=
  ⟨Iff.rfl, rfl, rfl⟩

theorem stays_relocate (h : k ≠ id) : Stays b (b.relocate id c) k :=
  ⟨kept_relocate b id k c, by rw [cell?_relocate, if_neg h]⟩

theorem carries_relocate (b : Board) (id : EntityId) (c : Cell) :
    Carries (fun _ => c) b (b.relocate id c) id :=
  .inr ⟨kept_relocate b id id c, by rw [cell?_relocate, if_pos rfl]⟩

theorem stays_destroy (h : k ≠ id) : Stays b (b.destroy id) k where
  live := by rw [mem_live_destroy]; exact and_iff_left h
  name := by rw [name?_destroy, if_neg fun hk => h hk.2]
  word := by rw [word?_destroy, if_neg fun hk => h hk.2]
  cell := by rw [cell?_destroy, if_neg fun hk => h hk.2]

theorem gone_destroy (h : id ∈ b.live) : Gone b (b.destroy id) id where
  live := h
  dead := by rw [mem_live_destroy]; exact fun hl => hl.2 rfl
  cell := by rw [cell?_destroy, if_pos ⟨h, rfl⟩]
  name := by rw [name?_destroy, if_pos ⟨h, rfl⟩]
  word := by rw [word?_destroy, if_pos ⟨h, rfl⟩]

theorem carries_destroy (b : Board) (id k : EntityId) :
    Carries (fun c => c) b (b.destroy id) k := by
  by_cases hk : k = id
  · subst hk
    by_cases hl : k ∈ b.live
    · exact .inl (gone_destroy hl)
    · rw [destroy_of_not_live hl]
      exact .refl b k
  · exact (stays_destroy hk).carries

theorem stays_destroyAll {ids : List EntityId} (h : ¬ (k ∈ ids ∧ k ∈ b.live)) :
    Stays b (b.destroyAll ids) k := by
  induction ids generalizing b with
  | nil => exact .refl b k
  | cons id ids ih =>
    by_cases hk : k = id
    · subst hk
      have hl : ¬ k ∈ b.live := fun hl => h ⟨List.mem_cons_self, hl⟩
      rw [destroyAll, List.foldl_cons, destroy_of_not_live hl]
      exact ih fun hd => hl hd.2
    · have hs : Stays b (b.destroy id) k := stays_destroy hk
      exact hs.trans (ih fun hd => h ⟨List.mem_cons_of_mem id hd.1, hs.live.mp hd.2⟩)

theorem carries_destroyAll (b : Board) (ids : List EntityId) (k : EntityId) :
    Carries (fun c => c) b (b.destroyAll ids) k := by
  induction ids generalizing b with
  | nil => exact .refl b k
  | cons id ids ih => exact (carries_destroy b id k).trans (ih (b.destroy id))

theorem gone_destroyAll {ids : List EntityId} (h : k ∈ ids) (hl : k ∈ b.live) :
    Gone b (b.destroyAll ids) k := by
  induction ids generalizing b with
  | nil => cases h
  | cons id ids ih =>
    by_cases hk : k = id
    · subst hk
      exact Carries.gone (gone_destroy hl) (carries_destroyAll _ ids k)
    · have hs : Stays b (b.destroy id) k := stays_destroy hk
      exact hs.toKept.gone (ih ((List.mem_cons.mp h).resolve_left hk) (hs.live.mpr hl))

@[simp] theorem nextId_destroyAll {ids : List EntityId} :
    (b.destroyAll ids).nextId = b.nextId := by
  induction ids generalizing b with
  | nil => rfl
  | cons id ids ih => exact ih.trans nextId_destroy

end Board

/-- An entity that is kept keeps its properties. -/
theorem PropertyTable.ofEntity_of_kept {t : PropertyTable} {b b' : Board} {id : EntityId}
    (h : Board.Kept b b' id) : t.ofEntity b' id = t.ofEntity b id := by
  simp only [ofEntity, h.isWord, h.name]

end WordTiles
