import Mathlib.Data.List.Sort
import WordTiles.Proofs.Grid.Symmetry
import WordTiles.Proofs.Movement.Steps

/-! Movement on a board and on its image under a symmetry. What movement asks of the board is answered the
same there, about the cells and in the direction that the symmetry gives, and each arrival goes to the
image of what it went to. So a move clears the image of its push line, and a turn comes to the image of
what it came to. -/

namespace WordTiles

open Std

variable {β β' : Bounds} {b : Board} {id m : EntityId} {c p : Cell} {d : Direction} {n : Nat}

/-! ### Boards -/

namespace Board

/-- The board with everything in the cell that the symmetry takes its own cell to. -/
def image (g : Symmetry β β') (b : Board) : Board := { b with cells := b.cells.map fun _ => g.cell }

variable (g : Symmetry β β')

@[simp] theorem live_image : (b.image g).live = b.live := rfl

@[simp] theorem cell?_image : (b.image g).cell? id = (b.cell? id).map g.cell :=
  ExtTreeMap.getElem?_map

theorem occupants_image (b : Board) (c : Cell) :
    (b.image g).occupants (g.cell c) = b.occupants c := by
  refine List.Pairwise.eq_of_mem_iff (occupants_ascending _ _) (occupants_ascending _ _) fun id => ?_
  rw [mem_occupants, mem_occupants, cell?_image, ← Option.map_some,
    (Option.map_injective g.cell_injective).eq_iff]

theorem relocate_image : (b.image g).relocate id (g.cell c) = (b.relocate id c).image g := by
  refine Board.ext rfl rfl (ExtTreeMap.ext_getElem? fun k => ?_) rfl rfl
  change ((b.image g).relocate id (g.cell c)).cell? k = ((b.relocate id c).image g).cell? k
  rw [cell?_image, cell?_relocate, cell?_relocate, cell?_image]
  split
  · rw [Option.map_map, Option.map_map]
    rfl
  · rfl

theorem destroy_image : (b.image g).destroy id = (b.destroy id).image g := by
  have hcells : ((b.image g).destroy id).cells = ((b.destroy id).image g).cells := by
    refine ExtTreeMap.ext_getElem? fun k => ?_
    change ((b.image g).destroy id).cell? k = ((b.destroy id).image g).cell? k
    rw [cell?_image, cell?_destroy, cell?_destroy, cell?_image, live_image]
    split <;> rfl
  by_cases hl : id ∈ b.live
  · refine Board.ext ?_ ?_ hcells ?_ ?_ <;> simp only [destroy, image, hl, if_true]
  · rw [destroy_of_not_live hl, destroy_of_not_live (b := b.image g) hl]

theorem destroyAll_image {ids : List EntityId} :
    (b.image g).destroyAll ids = (b.destroyAll ids).image g := by
  induction ids generalizing b with
  | nil => rfl
  | cons id ids ih =>
    rw [destroyAll, List.foldl_cons, destroy_image]
    exact ih

end Board

/-- The physics of the board that the symmetry leads to. -/
def Physics.image (φ : Physics) (_ : Symmetry φ.bounds β') : Physics := { φ with bounds := β' }

/-- An entity with its cell, taken along. -/
def Symmetry.placed (g : Symmetry β β') (a : EntityId × Cell) : EntityId × Cell := (a.1, g.cell a.2)

theorem Physics.drowned_image {φ : Physics} (g : Symmetry φ.bounds β') :
    (φ.image g).drowned (b.image g) (g.cell c) m = φ.drowned b c m := by
  rw [drowned, Board.occupants_image]
  rfl

/-! ### Turns -/

namespace Turn

/-- The turn on the image of the board. -/
def image (g : Symmetry β β') (t : Turn) : Turn where
  board := t.board.image g
  moved := t.moved
  destroyed := t.destroyed.map g.placed

variable {φ : Physics} {t : Turn} (g : Symmetry φ.bounds β')

theorem arrive_image :
    (t.image g).arrive (φ.image g) id (g.cell c) = (t.arrive φ id c).image g := by
  simp only [arrive, sink, image, Board.relocate_image, Physics.drowned_image,
    Board.destroyAll_image, List.map_append, List.map_map]
  rfl

theorem arriveAll_image {as : List (EntityId × Cell)} :
    (t.image g).arriveAll (φ.image g) (as.map g.placed) = (t.arriveAll φ as).image g := by
  induction as generalizing t with
  | nil => rfl
  | cons a as ih =>
    rw [List.map_cons, arriveAll_cons, arriveAll_cons, Symmetry.placed, arrive_image]
    exact ih

theorem isShut_image (c : Cell) : (t.image g).isShut (φ.image g) (g.cell c) = t.isShut φ c := by
  have hin : (φ.image g).bounds.contains (g.cell c) = φ.bounds.contains c := g.contains_cell c
  rw [isShut, isShut, hin, image, Board.occupants_image]
  rfl

theorem isEnd_image (c : Cell) : (t.image g).isEnd (φ.image g) (g.cell c) = t.isEnd φ c := by
  rw [isEnd, isEnd, isShut_image, image, Board.occupants_image]
  rfl

theorem leavers_image (c : Cell) :
    (t.image g).leavers (φ.image g) (g.cell c) = t.leavers φ c := by
  rw [leavers, image, Board.occupants_image]
  rfl

theorem departures_image (c : Cell) :
    (t.image g).departures (φ.image g) (g.direction d) (g.cell c) =
      (t.departures φ d c).map g.placed := by
  rw [departures, departures, leavers_image, List.map_map, ← g.cell_step]
  rfl

theorem shift_image :
    (t.image g).shift (φ.image g) (g.direction d) (g.cell c) n = (t.shift φ d c n).map g.placed := by
  simp only [shift, List.map_flatMap, ← g.cell_offset, departures_image]

theorem steps_image :
    (t.image g).steps (φ.image g) (g.direction d) m (g.cell p) n =
      (t.steps φ d m p n).map g.placed := by
  rw [steps, steps, ← g.cell_step, shift_image, List.map_append]
  rfl

theorem endsAfter_image : (t.image g).EndsAfter (φ.image g) (g.direction d) (g.cell c) n ↔
    t.EndsAfter φ d c n := by
  have hend : ∀ i : Nat, (t.image g).isEnd (φ.image g) ((g.cell c).offset (g.direction d) i) =
      t.isEnd φ (c.offset d i) := fun i => by
    rw [← g.cell_offset, isEnd_image]
  constructor
  · exact fun h => ⟨hend n ▸ h.last, fun i hi => hend i ▸ h.before i hi⟩
  · exact fun h => ⟨(hend n).symm ▸ h.last, fun i hi => (hend i).symm ▸ h.before i hi⟩

/-- An entity is free on the image exactly if it is free on the board. -/
theorem isFree_image : (t.image g).IsFree (φ.image g) (g.direction d) m (g.cell p) n ↔
    t.IsFree φ d m p n := by
  have hcell : (t.image g).board.cell? m = some (g.cell p) ↔ t.board.cell? m = some p := by
    rw [image, Board.cell?_image, ← Option.map_some,
      (Option.map_injective g.cell_injective).eq_iff]
  have hends := endsAfter_image (t := t) (c := p.step d) (d := d) (n := n) g
  have hshut := isShut_image (t := t) g ((p.step d).offset d n)
  rw [g.cell_offset, g.cell_step] at hshut
  rw [g.cell_step] at hends
  constructor
  · exact fun h => ⟨hcell.mp h.cell, hends.mp h.ends, hshut ▸ h.notShut⟩
  · exact fun h => ⟨hcell.mpr h.cell, hends.mpr h.ends, hshut.symm ▸ h.notShut⟩

theorem move?_image (m : EntityId) :
    (t.image g).move? (φ.image g) (g.direction d) m = (t.move? φ d m).map (image g) := by
  cases h : t.move? φ d m with
  | some t' =>
    obtain ⟨p, n, hfree, rfl⟩ := move?_eq_some_iff.mp h
    refine move?_eq_some_iff.mpr ⟨g.cell p, n, (isFree_image g).mpr hfree, ?_⟩
    rw [steps_image, arriveAll_image]
  | none =>
    -- what is free on the image stands in the image of a cell, and is free on the board
    refine Option.eq_none_iff_forall_ne_some.mpr fun t' h' => ?_
    obtain ⟨p', n, hfree, -⟩ := move?_eq_some_iff.mp h'
    obtain ⟨p, -, rfl⟩ := Option.map_eq_some_iff.mp ((Board.cell?_image g).symm.trans hfree.cell)
    have hmove := move?_eq_some_iff.mpr ⟨p, n, (isFree_image g).mp hfree, rfl⟩
    rw [h] at hmove
    cases hmove

theorem advance_image (m : EntityId) :
    (t.image g).advance (φ.image g) (g.direction d) m = (t.advance φ d m).image g := by
  have hguard : (m ∈ (t.image g).moved ∨ ¬ m ∈ (t.image g).board.live) ↔
      (m ∈ t.moved ∨ ¬ m ∈ t.board.live) := Iff.rfl
  rw [advance, advance, move?_image]
  simp only [hguard]
  split
  · rfl
  · cases t.move? φ d m <;> rfl

/-- The turn of any movers, from any turn on, comes to its image on the image. -/
theorem resolve_image {ms : List EntityId} :
    (t.image g).resolve (φ.image g) (g.direction d) ms = (t.resolve φ d ms).image g := by
  rw [resolve, resolve]
  generalize (ExtTreeSet.ofList ms).toList = order
  induction order generalizing t with
  | nil => rfl
  | cons m order ih =>
    rw [List.foldl_cons, List.foldl_cons, advance_image]
    exact ih

/-- Movement does not tell the directions apart: on the image of a board under a symmetry, in the
direction that the symmetry gives, the same entities move in the same order, the same are destroyed, in
the images of their cells, and what is left is the image of what was left. -/
theorem resolve_symmetric (φ : Physics) (g : Symmetry φ.bounds β') (d : Direction) (b : Board)
    (ms : List EntityId) :
    let t := resolve φ d ms { board := b }
    let t' := resolve (φ.image g) (g.direction d) ms { board := b.image g }
    t'.board = t.board.image g ∧ t'.moved = t.moved ∧
      t'.destroyed = t.destroyed.map fun (k, c) => (k, g.cell c) := by
  intro t t'
  have himage : t' = t.image g := resolve_image (t := { board := b }) g
  rw [himage]
  exact ⟨rfl, rfl, rfl⟩

end Turn

end WordTiles
