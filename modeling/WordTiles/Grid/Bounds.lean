import WordTiles.Grid.Direction

/-! The rectangle of cells that belong to the board, and how much room there is ahead of a cell. A
step from a cell on the board leaves less room, which ends every walk that stops at the edge. -/

namespace WordTiles

/-- A board `width` cells wide and `height` cells high, its top left cell at the origin. -/
structure Bounds where
  width : Int
  height : Int
deriving DecidableEq, Repr, Inhabited

namespace Bounds

def contains (b : Bounds) (c : Cell) : Bool :=
  0 ≤ c.x ∧ 0 ≤ c.y ∧ c.x < b.width ∧ c.y < b.height

/-- How many cells there are from a cell on the board to the edge, the cell included. -/
def room (b : Bounds) (c : Cell) : Direction → Nat
  | .up => (c.y + 1).toNat
  | .down => (b.height - c.y).toNat
  | .left => (c.x + 1).toNat
  | .right => (b.width - c.x).toNat

theorem room_step_lt {b : Bounds} {c : Cell} (h : b.contains c) (d : Direction) :
    b.room (c.step d) d < b.room c d := by
  simp only [contains, decide_eq_true_eq] at h
  cases d <;> simp only [room, Cell.step_eq, Direction.delta] <;> omega

end Bounds

end WordTiles
