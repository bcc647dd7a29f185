import WordTiles.Grid.Bounds

/-! The cells ahead of a cell, itself included: those that steps in one direction lead to. No two of
them are equal, a step never leads back, and however far the edge is, some cell ahead is off the
board. Coordinates of 32 bits make no difference to this: a step that does not fit into them leads off
the board. -/

namespace WordTiles

namespace Cell

variable {c e : Cell} {d : Direction}

/-- Cell `e` is reached from `c` by steps in direction `d`. -/
def Ahead (d : Direction) (c e : Cell) : Prop := ∃ n : Nat, e = c.offset d n

theorem offset_inj {m n : Int} : c.offset d m = c.offset d n ↔ m = n := by
  constructor
  · intro h
    rw [Cell.ext_iff] at h
    cases d <;> simp only [offset, Direction.delta] at h <;> omega
  · rintro rfl; rfl

theorem offset_natCast_zero (c : Cell) (d : Direction) : c.offset d ((0 : Nat) : Int) = c :=
  offset_zero c d

theorem step_offset (c : Cell) (d : Direction) (n : Nat) :
    (c.step d).offset d n = c.offset d (n + 1 : Nat) := by
  rw [step, offset_offset, Int.add_comm, Int.natCast_add, Int.cast_ofNat_Int]

theorem offset_step (c : Cell) (d : Direction) (n : Nat) :
    (c.offset d n).step d = c.offset d (n + 1 : Nat) := by
  rw [step, offset_offset, Int.natCast_add, Int.cast_ofNat_Int]

theorem offset_cancel {n : Int} : c.offset d n = e.offset d n ↔ c = e := by
  constructor
  · intro h
    have hback := congrArg (fun x => x.offset d (-n)) h
    simpa only [offset_offset, Int.add_right_neg, offset_zero] using hback
  · rintro rfl; rfl

theorem step_inj : c.step d = e.step d ↔ c = e := offset_cancel

theorem ahead_refl (d : Direction) (c : Cell) : Ahead d c c := ⟨0, (offset_natCast_zero c d).symm⟩

theorem ahead_offset (d : Direction) (c : Cell) (n : Nat) : Ahead d c (c.offset d n) := ⟨n, rfl⟩

theorem Ahead.of_step (h : Ahead d (c.step d) e) : Ahead d c e := by
  obtain ⟨n, rfl⟩ := h
  exact ⟨n + 1, step_offset c d n⟩

theorem Ahead.ne_of_step (h : Ahead d (c.step d) e) : e ≠ c := by
  obtain ⟨n, rfl⟩ := h
  rw [step_offset]
  intro he
  have := offset_inj.mp (he.trans (offset_zero c d).symm)
  omega

end Cell

namespace Bounds

theorem not_contains_offset_room (b : Bounds) (c : Cell) (d : Direction) :
    ¬ b.contains (c.offset d (b.room c d)) := by
  simp only [contains, decide_eq_true_eq]
  cases d <;> simp only [room, Cell.offset, Direction.delta] <;> omega

/-- Where the size of a board fits, a step may be reckoned with 32 bits or without a bound: both lead to one
cell, or both lead off the board. -/
theorem onward_eq_step_or {b : Bounds} {c : Cell} (d : Direction) (hc : c.Fits)
    (hwidth : b.width < 0x80000000) (hheight : b.height < 0x80000000) :
    c.onward d 1 = c.step d ∨ ¬ b.contains (c.onward d 1) ∧ ¬ b.contains (c.step d) := by
  by_cases hfit : (c.step d).Fits
  · exact .inl (Cell.onward_of_fits hfit)
  · right
    -- Only one coordinate can leave its range, and only by one; it comes back at the other end.
    have hback : ∀ n : Int, (n = 0x80000000 → n.bmod 0x100000000 = -0x80000000) ∧
        (n = -0x80000001 → n.bmod 0x100000000 = 0x7fffffff) :=
      fun n => ⟨fun h => by rw [h]; decide, fun h => by rw [h]; decide⟩
    have hx := hback (c.step d).x
    have hy := hback (c.step d).y
    have hout : ¬ ((-0x80000000 ≤ (c.step d).x ∧ (c.step d).x < 0x80000000) ∧
        (-0x80000000 ≤ (c.step d).y ∧ (c.step d).y < 0x80000000)) := fun h => hfit ⟨h.1, h.2⟩
    have honward : c.onward d 1 = (c.step d).wrapped := rfl
    obtain ⟨hcx, hcy⟩ := hc
    simp only [honward, contains, decide_eq_true_eq, Cell.wrapped]
    cases d <;> simp only [Cell.step_eq, Direction.delta] at * <;> omega

end Bounds

end WordTiles
