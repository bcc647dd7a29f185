import Std.Data.ExtTreeMap

/-! Cells of the board. `x` grows to the right and `y` grows downward. Cells are ordered by column
and then by row, so a sorted list of cells is read top to bottom, one column after the other. -/

namespace WordTiles

/-- A cell of the plane; cells off the board are cells too. -/
@[ext] structure Cell where
  x : Int
  y : Int
deriving DecidableEq, Repr, Inhabited

namespace Cell

instance : Ord Cell := ⟨compareLex (compareOn Cell.x) (compareOn Cell.y)⟩

instance : Std.TransOrd Cell :=
  inferInstanceAs (Std.TransCmp (compareLex (compareOn Cell.x) (compareOn Cell.y)))

instance : Std.LawfulEqOrd Cell where
  eq_of_compare {a b} h := by
    obtain ⟨hx, hy⟩ := Ordering.then_eq_eq.mp h
    cases a; cases b
    simp only [mk.injEq]
    exact ⟨Std.LawfulEqOrd.eq_of_compare hx, Std.LawfulEqOrd.eq_of_compare hy⟩

theorem compare_eq_lt_iff {a b : Cell} :
    compare a b = .lt ↔ a.x < b.x ∨ a.x = b.x ∧ a.y < b.y := by
  change (compare a.x b.x).then (compare a.y b.y) = .lt ↔ _
  simp [Ordering.then_eq_lt, Int.compare_eq_lt]

/-- The cell with its coordinates exchanged. Sorted by this, cells come row by row. -/
def transpose (c : Cell) : Cell := ⟨c.y, c.x⟩

@[simp] theorem transpose_transpose (c : Cell) : c.transpose.transpose = c := rfl

/-- The cell as it is shown to a player. -/
def text (c : Cell) : String :=
  "(" ++ toString c.x ++ ", " ++ toString c.y ++ ")"

end Cell

end WordTiles
