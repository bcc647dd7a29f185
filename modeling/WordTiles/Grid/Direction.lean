import WordTiles.Grid.Cell

/-! The four directions and steps along them. -/

namespace WordTiles

inductive Direction where
  | up | down | left | right
deriving DecidableEq, Repr, Inhabited

namespace Direction

def all : List Direction := [up, down, left, right]

/-- The unit step of a direction; `y` grows downward. -/
def delta : Direction → Int × Int
  | up => (0, -1)
  | down => (0, 1)
  | left => (-1, 0)
  | right => (1, 0)

/-- The direction with a given unit step. -/
def ofDelta? (dx dy : Int) : Option Direction :=
  all.find? fun d => d.delta == (dx, dy)

def reverse : Direction → Direction
  | up => down
  | down => up
  | left => right
  | right => left

@[simp] theorem mem_all (d : Direction) : d ∈ all := by cases d <;> decide

@[simp] theorem ofDelta?_delta (d : Direction) : ofDelta? d.delta.1 d.delta.2 = some d := by
  cases d <;> decide

@[simp] theorem reverse_reverse (d : Direction) : d.reverse.reverse = d := by cases d <;> rfl

end Direction

namespace Cell

/-- The cell `n` steps away in the plane. -/
def offset (c : Cell) (d : Direction) (n : Int) : Cell :=
  ⟨c.x + d.delta.1 * n, c.y + d.delta.2 * n⟩

/-- The neighbour in a direction. -/
def step (c : Cell) (d : Direction) : Cell := c.offset d 1

theorem step_eq (c : Cell) (d : Direction) : c.step d = ⟨c.x + d.delta.1, c.y + d.delta.2⟩ := by
  simp [step, offset]

@[simp] theorem offset_zero (c : Cell) (d : Direction) : c.offset d 0 = c := by
  simp [offset]

theorem offset_offset (c : Cell) (d : Direction) (m n : Int) :
    (c.offset d m).offset d n = c.offset d (m + n) := by
  simp [offset, Int.mul_add, Int.add_assoc]

@[simp] theorem step_reverse (c : Cell) (d : Direction) : (c.step d).step d.reverse = c := by
  rw [step_eq, step_eq, Cell.ext_iff]
  cases d <;> simp only [Direction.delta, Direction.reverse] <;> omega

theorem step_ne (c : Cell) (d : Direction) : c.step d ≠ c := by
  rw [step_eq, Ne, Cell.ext_iff]
  cases d <;> simp only [Direction.delta] <;> omega

/-! ### Coordinates of 32 bits -/

/-- The coordinates are signed numbers of 32 bits. -/
structure Fits (c : Cell) : Prop where
  x : -0x80000000 ≤ c.x ∧ c.x < 0x80000000
  y : -0x80000000 ≤ c.y ∧ c.y < 0x80000000

/-- The cell that is left when the coordinates are cut down to 32 bits. -/
def wrapped (c : Cell) : Cell := ⟨c.x.bmod 0x100000000, c.y.bmod 0x100000000⟩

/-- The cell `n` steps away as it is reckoned with 32 bits: after the greatest coordinate comes the
least. A program that checks its arithmetic stops where it is not the plain cell. -/
def onward (c : Cell) (d : Direction) (n : Int) : Cell := (c.offset d n).wrapped

theorem wrapped_of_fits {c : Cell} (h : c.Fits) : c.wrapped = c := by
  have hbmod : ∀ {n : Int}, -0x80000000 ≤ n ∧ n < 0x80000000 → n.bmod 0x100000000 = n := fun hn =>
    Int.bmod_eq_of_le_mul_two (by omega) (by omega)
  rw [wrapped, hbmod h.x, hbmod h.y]

/-- Where the plain cell fits, it is the one that is reckoned. -/
theorem onward_of_fits {c : Cell} {d : Direction} {n : Int} (h : (c.offset d n).Fits) :
    c.onward d n = c.offset d n := wrapped_of_fits h

end Cell

end WordTiles
