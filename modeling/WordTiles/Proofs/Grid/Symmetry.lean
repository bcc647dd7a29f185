import Mathlib.Logic.Function.Basic
import WordTiles.Proofs.Grid.Ahead

/-! The symmetries of the board: it is reflected from left to right or from top to bottom, or its columns
and rows change places, and any of this is done after the other. A symmetry takes cells to cells and
directions to directions, so that a step is taken to a step and the edge to the edge. -/

namespace WordTiles

/-- A symmetry that takes a board with the first bounds to one with the second. -/
inductive Symmetry : Bounds → Bounds → Type
  | leftRight (β : Bounds) : Symmetry β β
  | topBottom (β : Bounds) : Symmetry β β
  | transpose (β : Bounds) : Symmetry β ⟨β.height, β.width⟩
  | comp {β β' β'' : Bounds} (g : Symmetry β β') (h : Symmetry β' β'') : Symmetry β β''

namespace Symmetry

/-- Where a cell goes. -/
def cell {β β' : Bounds} : Symmetry β β' → Cell → Cell
  | leftRight β, c => ⟨β.width - 1 - c.x, c.y⟩
  | topBottom β, c => ⟨c.x, β.height - 1 - c.y⟩
  | transpose _, c => c.transpose
  | comp g h, c => h.cell (g.cell c)

/-- What a direction turns into. -/
def direction {β β' : Bounds} : Symmetry β β' → Direction → Direction
  | leftRight _, .left => .right
  | leftRight _, .right => .left
  | leftRight _, d => d
  | topBottom _, .up => .down
  | topBottom _, .down => .up
  | topBottom _, d => d
  | transpose _, .up => .left
  | transpose _, .down => .right
  | transpose _, .left => .up
  | transpose _, .right => .down
  | comp g h, d => h.direction (g.direction d)

variable {β β' : Bounds}

theorem cell_step (g : Symmetry β β') (c : Cell) (d : Direction) :
    g.cell (c.step d) = (g.cell c).step (g.direction d) := by
  induction g generalizing c d with
  | leftRight β | topBottom β | transpose β =>
    rw [Cell.step_eq, Cell.step_eq, Cell.ext_iff]
    cases d <;>
      simp only [cell, direction, Cell.transpose, Direction.delta, and_true, true_and] <;> omega
  | comp g h ihg ihh => exact (congrArg h.cell (ihg c d)).trans (ihh (g.cell c) (g.direction d))

theorem cell_offset (g : Symmetry β β') (c : Cell) (d : Direction) (n : Nat) :
    g.cell (c.offset d n) = (g.cell c).offset (g.direction d) n := by
  induction n with
  | zero => rw [Cell.offset_natCast_zero, Cell.offset_natCast_zero]
  | succ n ih => rw [← Cell.offset_step, ← Cell.offset_step, cell_step, ih]

theorem cell_injective (g : Symmetry β β') : Function.Injective g.cell := by
  induction g with
  | leftRight β | topBottom β | transpose β =>
    intro c e h
    rw [Cell.ext_iff] at h ⊢
    simp only [cell, Cell.transpose] at h
    omega
  | comp g h ihg ihh => exact ihh.comp ihg

/-- What is on the board stays on it, and what is off it stays off. -/
theorem contains_cell (g : Symmetry β β') (c : Cell) : β'.contains (g.cell c) = β.contains c := by
  induction g generalizing c with
  | leftRight β | topBottom β | transpose β =>
    rw [Bounds.contains, Bounds.contains, decide_eq_decide]
    simp only [cell, Cell.transpose]
    omega
  | comp g h ihg ihh => exact (ihh (g.cell c)).trans (ihg c)

end Symmetry

end WordTiles
