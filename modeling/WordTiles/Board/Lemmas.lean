import WordTiles.Board.Basic
import WordTiles.Proofs.Table

/-! What each change of a board does to each query. Occupants are the entities whose cell it is, in
ascending order; moving an entity changes one cell and nothing else; destroying a live entity takes
all its components away and leaves those of the others alone. -/

namespace WordTiles.Board

open Std

variable {b : Board} {id k : EntityId} {c : Cell}

/-! ### The board with nothing on it -/

@[simp] theorem not_mem_live_empty : ¬ id ∈ (∅ : Board).live := ExtTreeSet.not_mem_empty

@[simp] theorem cell?_empty : (∅ : Board).cell? id = none := ExtTreeMap.getElem?_empty

@[simp] theorem name?_empty : (∅ : Board).name? id = none := ExtTreeMap.getElem?_empty

@[simp] theorem word?_empty : (∅ : Board).word? id = none := ExtTreeMap.getElem?_empty

/-! ### Occupants -/

@[simp] theorem mem_occupants : id ∈ b.occupants c ↔ b.cell? id = some c := by
  rw [occupants, ExtTreeMap.mem_keys, ExtTreeMap.mem_filter, cell?]
  constructor
  · rintro ⟨h, hc⟩
    rw [ExtTreeMap.getElem?_eq_some_getElem h, ← of_decide_eq_true hc]
  · intro h
    have hm : id ∈ b.cells := ExtTreeMap.mem_iff_isSome_getElem?.mpr (Option.isSome_of_eq_some h)
    refine ⟨hm, decide_eq_true ?_⟩
    rw [ExtTreeMap.getElem?_eq_some_getElem hm] at h
    exact Option.some.inj h

theorem occupants_ascending (b : Board) (c : Cell) : (b.occupants c).Pairwise (· < ·) :=
  ExtTreeMap.ordered_keys.imp Nat.compare_eq_lt.mp

/-! ### Relocation -/

theorem cell?_relocate :
    (b.relocate id c).cell? k = if k = id then (b.cell? k).map fun _ => c else b.cell? k := by
  simp only [relocate, cell?, ExtTreeMap.getElem?_modify, LawfulEqCmp.compare_eq_iff_eq]
  by_cases h : id = k
  · subst h; simp
  · simp [h, Ne.symm h]

@[simp] theorem nextId_relocate : (b.relocate id c).nextId = b.nextId := rfl

@[simp] theorem live_relocate : (b.relocate id c).live = b.live := rfl

@[simp] theorem name?_relocate : (b.relocate id c).name? k = b.name? k := rfl

@[simp] theorem word?_relocate : (b.relocate id c).word? k = b.word? k := rfl

@[simp] theorem isWord_relocate : (b.relocate id c).isWord k = b.isWord k := rfl

theorem relocate_eq_edit : b.relocate id c = b.edit .cell id fun _ => c := by
  rw [edit]
  split
  · rfl
  · rename_i h
    have hm : ¬ id ∈ b.cells := by simpa [canEdit, Kind.editable, column] using h
    ext1 <;> try rfl
    apply ExtTreeMap.ext_getElem?
    intro k
    simp only [relocate, ExtTreeMap.getElem?_modify, LawfulEqCmp.compare_eq_iff_eq]
    split
    · rename_i hk
      rw [← hk, ExtTreeMap.getElem?_eq_none hm, Option.map_none]
    · rfl

/-! ### Destruction -/

theorem destroy_of_not_live (h : ¬ id ∈ b.live) : b.destroy id = b := if_neg h

@[simp] theorem nextId_destroy : (b.destroy id).nextId = b.nextId := by
  rw [destroy]; split <;> rfl

theorem mem_live_destroy : k ∈ (b.destroy id).live ↔ k ∈ b.live ∧ k ≠ id := by
  rw [destroy]
  split
  · simp only [ExtTreeSet.mem_erase, ne_eq, LawfulEqCmp.compare_eq_iff_eq]
    exact ⟨fun h => ⟨h.2, Ne.symm h.1⟩, fun h => ⟨Ne.symm h.2, h.1⟩⟩
  · exact ⟨fun hk => ⟨hk, fun e => by subst e; contradiction⟩, fun h => h.1⟩

theorem cell?_destroy :
    (b.destroy id).cell? k = if id ∈ b.live ∧ k = id then none else b.cell? k := by
  by_cases h : id ∈ b.live <;> simp [destroy, cell?, h, Table.getElem?_erase_eq, @eq_comm _ k]

theorem name?_destroy :
    (b.destroy id).name? k = if id ∈ b.live ∧ k = id then none else b.name? k := by
  by_cases h : id ∈ b.live <;> simp [destroy, name?, h, Table.getElem?_erase_eq, @eq_comm _ k]

theorem word?_destroy :
    (b.destroy id).word? k = if id ∈ b.live ∧ k = id then none else b.word? k := by
  by_cases h : id ∈ b.live <;> simp [destroy, word?, h, Table.getElem?_erase_eq, @eq_comm _ k]

theorem isWord_eq_isSome : b.isWord id = (b.word? id).isSome := by
  rw [isWord, word?, ExtTreeMap.isSome_getElem?_eq_contains, Bool.eq_iff_iff, decide_eq_true_iff]
  exact ExtTreeMap.mem_iff_contains

end WordTiles.Board
