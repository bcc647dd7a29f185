import Mathlib.Data.List.Induction
import WordTiles.Play.Game
import WordTiles.Proofs.Board.Soundness
import WordTiles.Proofs.Level.Shape

/-! Laying out a level. Its pieces are the tiles that stand for something, in reading order. Each of them
is put onto its cell as a thing, and as a word tile besides if its blueprint says so; the board that comes
of it has exactly those pieces, numbered from zero, and is sound. -/

namespace WordTiles

open Std

/-- What makes an entity with this blueprint a word tile, if it is one. -/
def Blueprint.word? (p : Blueprint) (operator : String) : Option WordTile :=
  if p.isWord then some ⟨p.name, .classify p.name operator⟩ else none

/-- What a character stands for. The blank stands for nothing, whatever the legend says. -/
def Settings.blueprint? (s : Settings) (tile : Char) : Option Blueprint :=
  if tile = blankTile then none else s.legend[tile]?

/-- What a level puts onto the board, in reading order. -/
def Level.pieces (s : Settings) (l : Level) : List (Cell × Blueprint) :=
  l.tiles.filterMap fun (c, tile) => (s.blueprint? tile).map (c, ·)

namespace Board

variable {β : Bounds} {operator : String} {b : Board} {id k : EntityId} {c : Cell} {w : WordTile}
  {newName : String → String} {p : Cell × Blueprint} {pieces : List (Cell × Blueprint)}

/-! ### Word tiles -/

@[simp] theorem nextId_attach_word : (b.attach .word id w).nextId = b.nextId := by
  rw [attach]; split <;> rfl

@[simp] theorem live_attach_word : (b.attach .word id w).live = b.live := by
  rw [attach]; split <;> rfl

@[simp] theorem cell?_attach_word : (b.attach .word id w).cell? k = b.cell? k := by
  rw [attach]; split <;> rfl

@[simp] theorem name?_attach_word : (b.attach .word id w).name? k = b.name? k := by
  rw [attach]; split <;> rfl

/-- A live entity that is no word tile can be made one. -/
theorem word?_attach_word (hl : id ∈ b.live) (hw : b.word? id = none) :
    (b.attach .word id w).word? k = if k = id then some w else b.word? k := by
  have hnot : ¬ id ∈ b.words := fun h => by
    obtain ⟨w', hw'⟩ := Option.isSome_iff_exists.mp (ExtTreeMap.mem_iff_isSome_getElem?.mp h)
    exact absurd (hw.symm.trans hw') (by simp)
  have hcan : b.canAttach .word id := decide_eq_true ⟨hl, .inr hnot⟩
  have hboard : b.attach .word id w = { b with words := b.words.insert id w } := if_pos hcan
  rw [hboard]
  simp only [word?, ExtTreeMap.getElem?_insert, LawfulEqCmp.compare_eq_iff_eq, @eq_comm _ k]

/-! ### Pieces -/

/-- Puts a piece onto the board. -/
def put (operator : String) (b : Board) (p : Cell × Blueprint) : Board :=
  match p.2.word? operator with
  | none => b.addThing p.2.name p.1
  | some w => (b.addThing p.2.name p.1).attach .word b.nextId w

theorem nextId_put : (b.put operator p).nextId = b.nextId + 1 := by
  rw [put]; split <;> simp

theorem mem_live_put : k ∈ (b.put operator p).live ↔ k = b.nextId ∨ k ∈ b.live := by
  rw [put]; split <;> simp [mem_live_addThing]

theorem cell?_put : (b.put operator p).cell? k = if k = b.nextId then some p.1 else b.cell? k := by
  rw [put]; split <;> simp [cell?_addThing]

theorem name?_put :
    (b.put operator p).name? k = if k = b.nextId then some p.2.name else b.name? k := by
  rw [put]; split <;> simp [name?_addThing]

theorem word?_put (h : b.word? b.nextId = none) : (b.put operator p).word? k =
    if k = b.nextId then p.2.word? operator else b.word? k := by
  rw [put]
  cases hw : p.2.word? operator with
  | none =>
    rw [word?_addThing]
    split
    · rename_i hk
      rw [hk, h]
    · rfl
  | some w =>
    have hnew : b.nextId ∈ (b.addThing p.2.name p.1).live := mem_live_addThing.mpr (.inl rfl)
    dsimp only
    rw [word?_attach_word hnew (by rw [word?_addThing, h]), word?_addThing]

/-- The board has exactly these pieces, numbered from zero in their order. A word tile is named by its
text, and a thing by what has become of the name of its blueprint. -/
structure Consists (operator : String) (newName : String → String)
    (pieces : List (Cell × Blueprint)) (b : Board) : Prop where
  nextId : b.nextId = pieces.length
  live : ∀ id, id ∈ b.live ↔ id < pieces.length
  cell? : ∀ id, b.cell? id = pieces[id]?.map fun p => p.1
  name? : ∀ id, b.name? id = pieces[id]?.map fun p =>
    if p.2.isWord then p.2.name else newName p.2.name
  word? : ∀ id, b.word? id = pieces[id]?.bind fun p => p.2.word? operator

theorem consists_empty : Consists operator newName [] ∅ where
  nextId := rfl
  live id := by simp
  cell? id := by simp
  name? id := by simp
  word? id := by simp

theorem getElem?_concat_eq {α : Type} {as : List α} {a : α} {i : Nat} :
    (as ++ [a])[i]? = if i = as.length then some a else as[i]? := by
  split
  · rename_i hi
    rw [hi, List.getElem?_concat_length]
  · rename_i hi
    rcases Nat.lt_or_gt_of_ne hi with hlt | hgt
    · exact List.getElem?_append_left hlt
    · rw [List.getElem?_eq_none (by rw [List.length_append, List.length_singleton]; omega),
        List.getElem?_eq_none (by omega)]

/-- A piece that is put onto the board comes after all others. -/
theorem Consists.put (h : Consists operator (fun name => name) pieces b) (p : Cell × Blueprint) :
    Consists operator (fun name => name) (pieces ++ [p]) (b.put operator p) where
  nextId := by rw [nextId_put, h.nextId, List.length_append, List.length_singleton]
  live id := by
    rw [mem_live_put, h.live, h.nextId, List.length_append, List.length_singleton, or_comm]
    exact Nat.lt_succ_iff_lt_or_eq.symm
  cell? id := by
    rw [cell?_put, h.cell?, h.nextId, getElem?_concat_eq]
    split <;> rfl
  name? id := by
    rw [name?_put, h.name?, h.nextId, getElem?_concat_eq]
    split
    · simp
    · rfl
  word? id := by
    have hnew : b.word? b.nextId = none := by rw [h.word?, h.nextId]; simp
    rw [word?_put hnew, h.word?, h.nextId, getElem?_concat_eq]
    split <;> rfl

theorem consists_foldl_put (operator : String) (pieces : List (Cell × Blueprint)) :
    Consists operator (fun name => name) pieces (pieces.foldl (Board.put operator) ∅) := by
  induction pieces using List.reverseRecOn with
  | nil => exact consists_empty
  | append_singleton pieces p ih =>
    rw [List.foldl_append]
    exact ih.put p

theorem Consists.isWord (h : Consists operator newName pieces b) (hp : pieces[id]? = some p) :
    b.isWord id = p.2.isWord := by
  rw [isWord_eq_isSome, h.word?, hp, Option.bind_some, Blueprint.word?]
  cases p.2.isWord <;> rfl

/-- Renaming changes the names of things and nothing else. -/
theorem Consists.rename (h : Consists operator (fun name => name) pieces b) (r : Rulebook) :
    Consists operator r.renames.follow pieces (r.rename b) where
  nextId := h.nextId
  live := h.live
  cell? := h.cell?
  name? id := by
    rw [Rulebook.name?_rename, h.name?, Option.map_map]
    cases hp : pieces[id]? with
    | none => rfl
    | some p =>
      simp only [Option.map_some, Function.comp_apply, ite_self, Rulebook.newName, h.isWord hp]
  word? := h.word?

theorem Consists.mem_live_of_getElem? (h : Consists operator newName pieces b)
    (hp : pieces[id]? = some p) : id ∈ b.live :=
  (h.live id).mpr (List.getElem?_eq_some_iff.mp hp).1

theorem Consists.exists_getElem? (h : Consists operator newName pieces b) (hid : id ∈ b.live) :
    ∃ p, pieces[id]? = some p :=
  ⟨_, List.getElem?_eq_getElem ((h.live id).mp hid)⟩

theorem Consists.sound (h : Consists operator (fun name => name) pieces b)
    (hcells : ∀ p ∈ pieces, β.contains p.1) : b.Sound β operator where
  stands id hid := by
    obtain ⟨p, hp⟩ := h.exists_getElem? hid
    exact ⟨p.1, by rw [h.cell?, hp]; rfl, hcells p (List.mem_of_getElem? hp)⟩
  named id hid := by
    obtain ⟨p, hp⟩ := h.exists_getElem? hid
    exact ⟨_, by rw [h.name?, hp]; rfl⟩
  numbered id hid := by
    rw [h.nextId]
    exact (h.live id).mp hid
  live_of_cell id c hc := by
    rw [h.cell?] at hc
    obtain ⟨p, hp, -⟩ := Option.map_eq_some_iff.mp hc
    exact h.mem_live_of_getElem? hp
  live_of_name id name hname := by
    rw [h.name?] at hname
    obtain ⟨p, hp, -⟩ := Option.map_eq_some_iff.mp hname
    exact h.mem_live_of_getElem? hp
  tile id w hw := by
    rw [h.word?] at hw
    obtain ⟨p, hp, hw⟩ := Option.bind_eq_some_iff.mp hw
    rw [Blueprint.word?] at hw
    split at hw
    · cases hw
      refine ⟨h.mem_live_of_getElem? hp, ?_, rfl⟩
      rw [h.name?, hp, Option.map_some, ite_self]
    · cases hw

end Board

namespace Game

variable {s : Settings} {b : Board} {c : Cell} {l : Level}

/-! ### Levels -/

theorem place_eq (s : Settings) (c : Cell) (tile : Char) (b : Board) : place s c tile b =
    match s.blueprint? tile with
    | none => b
    | some p => b.put s.operator (c, p) := by
  rw [place, Settings.blueprint?]
  split
  · rfl
  · cases s.legend[tile]? with
    | none => rfl
    | some p =>
      simp only [Board.put, Blueprint.word?]
      split <;> rfl

theorem layOut_eq (hl : l.IsShaped) :
    layOut s l = (l.pieces s).foldl (Board.put s.operator) ∅ := by
  have htiles : layOut s l = l.tiles.foldl (fun b (c, tile) => place s c tile b) ∅ := by
    rw [← hl.flatMap_cells, List.foldl_flatMap]
    rfl
  rw [htiles, Level.pieces, List.foldl_filterMap]
  congr 1
  funext b ⟨c, tile⟩
  simp only [place_eq]
  cases s.blueprint? tile <;> rfl

theorem consists_layOut (hl : l.IsShaped) :
    (layOut s l).Consists s.operator (fun name => name) (l.pieces s) := by
  rw [layOut_eq hl]
  exact Board.consists_foldl_put s.operator (l.pieces s)

theorem sound_layOut (hl : l.IsShaped) : (layOut s l).Sound l.bounds s.operator := by
  refine (consists_layOut hl).sound fun ⟨c, p⟩ hp => ?_
  obtain ⟨⟨c, tile⟩, htile, hp⟩ := List.mem_filterMap.mp hp
  obtain ⟨_, -, hp⟩ := Option.map_eq_some_iff.mp hp
  cases hp
  exact Level.contains_of_mem_tiles htile

end Game

end WordTiles
