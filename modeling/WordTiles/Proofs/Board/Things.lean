import WordTiles.Board.Lemmas

/-! Boards put together thing by thing, and the smallest crowded one: two things of one name in one
cell. -/

namespace WordTiles.Board

open Std

variable {name : String} {c e : Cell} {k : EntityId}

/-- Puts a new thing onto the board. -/
def addThing (b : Board) (name : String) (c : Cell) : Board :=
  (b.spawn.attach .cell b.nextId c).attach .name b.nextId name

theorem addThing_eq (b : Board) (name : String) (c : Cell) : b.addThing name c = { b with
    nextId := b.nextId + 1
    live := b.live.insert b.nextId
    cells := b.cells.insert b.nextId c
    names := b.names.insert b.nextId name } := by
  simp [addThing, spawn, attach, canAttach, Kind.editable, setColumn, column]

section addThing

variable {b : Board}

@[simp] theorem nextId_addThing : (b.addThing name c).nextId = b.nextId + 1 := by
  rw [addThing_eq]

theorem mem_live_addThing : k ∈ (b.addThing name c).live ↔ k = b.nextId ∨ k ∈ b.live := by
  rw [addThing_eq]
  simp [ExtTreeSet.mem_insert, LawfulEqCmp.compare_eq_iff_eq, @eq_comm _ k]

theorem cell?_addThing :
    (b.addThing name c).cell? k = if k = b.nextId then some c else b.cell? k := by
  rw [addThing_eq, cell?, cell?]
  simp [ExtTreeMap.getElem?_insert, LawfulEqCmp.compare_eq_iff_eq, @eq_comm _ k]

theorem name?_addThing :
    (b.addThing name c).name? k = if k = b.nextId then some name else b.name? k := by
  rw [addThing_eq, name?, name?]
  simp [ExtTreeMap.getElem?_insert, LawfulEqCmp.compare_eq_iff_eq, @eq_comm _ k]

@[simp] theorem word?_addThing : (b.addThing name c).word? k = b.word? k := by
  rw [addThing_eq, word?, word?]

end addThing

/-- A board with nothing on it but two things of one name in one cell. -/
def pair (name : String) (c : Cell) : Board := ((∅ : Board).addThing name c).addThing name c

theorem cell?_pair : (pair name c).cell? k = some e ↔ (k = 0 ∨ k = 1) ∧ e = c := by
  rw [pair, cell?_addThing, cell?_addThing, cell?_empty]
  have hfirst : (∅ : Board).nextId = 0 := rfl
  have hsecond : ((∅ : Board).addThing name c).nextId = 1 := rfl
  rw [hfirst, hsecond]
  grind

theorem mem_live_pair (hk : k = 0 ∨ k = 1) : k ∈ (pair name c).live := by
  rw [pair, mem_live_addThing, mem_live_addThing]
  exact hk.elim (fun h0 => .inr (.inl h0)) .inl

end WordTiles.Board
