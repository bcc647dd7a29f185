import WordTiles.Proofs.Movement.PushLine

/-! How deep the clearing of one cell is nested in that of another. A cell is cleared by clearing the
next one ahead, so the nested calls go along a straight line and the edge of the board ends them. The
cells that are being cleared lie behind all the while: none of them is entered a second time, and an
attempt that does not note them comes to the same. -/

namespace WordTiles

open Std

variable {φ : Physics} {d : Direction} {c : Cell} {id : EntityId}

namespace Bounds

/-- How many cells the longer side of the board has. -/
def extent (b : Bounds) : Nat := (max 0 (max b.width b.height)).toNat

variable {b : Bounds}

theorem room_le_extent (h : b.contains c) : b.room c d ≤ b.extent := by
  simp only [contains, decide_eq_true_eq] at h
  cases d <;> simp only [room, extent] <;> omega

/-- What holds off the board, and on the board wherever it holds one step ahead, holds everywhere. -/
theorem induction_ahead (b : Bounds) (d : Direction) {motive : Cell → Prop}
    (off : ∀ c, ¬ b.contains c → motive c)
    (on : ∀ c, b.contains c → motive (c.step d) → motive c) (c : Cell) : motive c := by
  by_cases hin : b.contains c
  · exact on c hin (induction_ahead b d off on (c.step d))
  · exact off c hin
termination_by b.room c d
decreasing_by exact room_step_lt hin d

end Bounds

namespace Attempt

variable {a : Attempt} {l l' l'' : ExtTreeSet Cell} {x y : Except Attempt Attempt}
  {chosen : Attempt → EntityId → Bool} {go go' : EntityId → Attempt → Except Attempt Attempt}
  {ids : List EntityId}

/-- The attempt as it is left in the end, whether it has succeeded or failed. -/
def leftover : Except Attempt Attempt → Attempt
  | .ok a => a
  | .error a => a

/-! ### Other ways to clear a cell -/

/-- What is done instead where calls would be nested too deep, and where a cell would be entered that
is being cleared. -/
structure Fallback where
  tooDeep : Cell → Attempt → Except Attempt Attempt
  reentered : Cell → Attempt → Except Attempt Attempt

/-- Clears a cell as `clear` does, but with at most `n` calls nested in one another, the first of them
included. A call beyond these is left to the fallback, and so is entering a cell again. -/
def clearWithin (f : Fallback) (φ : Physics) (d : Direction) :
    Nat → Cell → Attempt → Except Attempt Attempt
  | 0, c, a => f.tooDeep c a
  | n + 1, c, a =>
    if φ.bounds.contains c then
      if c ∈ a.cleared then .ok a
      else if c ∈ a.line then f.reentered c a
      else
        let go id a := (clearWithin f φ d n (c.step d) a).map (arrive φ id (c.step d))
        match vacate φ c go (a.enter c) with
        | .ok a => .ok ((a.leave c).settle c)
        | .error a => .error (a.leave c)
    else .error a

/-- Clears a cell as `clear` does, but without noting which cells are being cleared. -/
def clearFreely (φ : Physics) (d : Direction) (c : Cell) (a : Attempt) : Except Attempt Attempt :=
  if φ.bounds.contains c then
    if c ∈ a.cleared then .ok a
    else
      let go id a := (clearFreely φ d (c.step d) a).map (arrive φ id (c.step d))
      match vacate φ c go a with
      | .ok a => .ok (a.settle c)
      | .error a => .error a
  else .error a
termination_by φ.bounds.room c d
decreasing_by exact Bounds.room_step_lt ‹_› d

theorem clearWithin_of_new {f : Fallback} {n : Nat} (hin : φ.bounds.contains c)
    (hcl : ¬ c ∈ a.cleared) (hln : ¬ c ∈ a.line) :
    clearWithin f φ d (n + 1) c a = match vacate φ c (fun id a =>
        (clearWithin f φ d n (c.step d) a).map (arrive φ id (c.step d))) (a.enter c) with
      | .ok a => .ok ((a.leave c).settle c)
      | .error a => .error (a.leave c) := by
  rw [clearWithin]
  exact (if_pos hin).trans ((if_neg hcl).trans (if_neg hln))

theorem clearFreely_of_new (hin : φ.bounds.contains c) (hcl : ¬ c ∈ a.cleared) :
    clearFreely φ d c a = match vacate φ c (fun id a =>
        (clearFreely φ d (c.step d) a).map (arrive φ id (c.step d))) a with
      | .ok a => .ok (a.settle c)
      | .error a => .error a := by
  rw [clearFreely]
  exact (if_pos hin).trans (if_neg hcl)

/-! ### Attempts that differ in the line -/

def withLine (l : ExtTreeSet Cell) (a : Attempt) : Attempt := { a with line := l }

/-- Two outcomes of one kind that are the same but for the line, which is `l` in the first of them and
`l'` in the second. -/
inductive Alike (l l' : ExtTreeSet Cell) : Except Attempt Attempt → Except Attempt Attempt → Prop
  | ok (a : Attempt) : Alike l l' (.ok (a.withLine l)) (.ok (a.withLine l'))
  | error (a : Attempt) : Alike l l' (.error (a.withLine l)) (.error (a.withLine l'))

namespace Alike

theorem line_leftover (h : Alike l l' x y) : (leftover x).line = l := by
  cases h <;> rfl

theorem eq (h : Alike l l x y) : x = y := by
  cases h <;> rfl

theorem bind {k k' : Attempt → Except Attempt Attempt} (h : Alike l l' x y)
    (hk : ∀ a : Attempt, Alike l l' (k (a.withLine l)) (k' (a.withLine l'))) :
    Alike l l' (x.bind k) (y.bind k') := by
  cases h with
  | ok a => exact hk a
  | error a => exact .error a

theorem arrive (h : Alike l l' x y) :
    Alike l l' (x.map (arrive φ id c)) (y.map (arrive φ id c)) := by
  cases h with
  | ok a => exact .ok (a.arrive φ id c)
  | error a => exact .error a

theorem sweep (hch : ∀ (l : ExtTreeSet Cell) (a : Attempt) id, chosen (a.withLine l) id = chosen a id)
    (hgo : ∀ id (a : Attempt), Alike l l' (go id (a.withLine l)) (go' id (a.withLine l'))) :
    Alike l l' (sweep chosen go ids (a.withLine l)) (sweep chosen go' ids (a.withLine l')) := by
  induction ids generalizing a with
  | nil => exact .ok a
  | cons id ids ih =>
    by_cases hid : chosen a id
    · rw [sweep_cons_pos ((hch l a id).trans hid), sweep_cons_pos ((hch l' a id).trans hid)]
      exact (hgo id a).bind fun a => ih
    · rw [sweep_cons_neg (hch l a id ▸ hid), sweep_cons_neg (hch l' a id ▸ hid)]
      exact ih

/-- What blocks a cell and what leaves it does not depend on the line. -/
theorem vacate (hgo : ∀ id (a : Attempt), Alike l l' (go id (a.withLine l)) (go' id (a.withLine l'))) :
    Alike l l' (vacate φ c go (a.withLine l)) (vacate φ c go' (a.withLine l')) := by
  by_cases hb : (a.board.occupants c).any (φ.blocks a.board)
  · rw [vacate_of_blocks (a := a.withLine l) hb, vacate_of_blocks (a := a.withLine l') hb]
    exact .error a
  · rw [vacate_of_not_blocks (a := a.withLine l) hb, vacate_of_not_blocks (a := a.withLine l') hb]
    exact (sweep (fun _ _ _ => rfl) hgo).bind fun a => sweep (fun _ _ _ => rfl) hgo

end Alike

/-! ### Along the line -/

/-- None of the cells from `c` on is on the line. -/
def IsBehind (d : Direction) (c : Cell) (l : ExtTreeSet Cell) : Prop :=
  ∀ e, Cell.Ahead d c e → ¬ e ∈ l

namespace IsBehind

theorem empty (d : Direction) (c : Cell) : IsBehind d c ∅ := fun _ _ => ExtTreeSet.not_mem_empty

theorem not_mem (h : IsBehind d c l) : ¬ c ∈ l := h c (Cell.ahead_refl d c)

/-- A cell that is being cleared lies behind the next one. -/
theorem insert (h : IsBehind d c l) : IsBehind d (c.step d) (l.insert c) := by
  intro e he
  rw [ExtTreeSet.mem_insert, LawfulEqCmp.compare_eq_iff_eq, not_or]
  exact ⟨he.ne_of_step.symm, h e he.of_step⟩

theorem erase_insert (h : IsBehind d c l) : (l.insert c).erase c = l := by
  ext e
  rw [ExtTreeSet.mem_erase, ExtTreeSet.mem_insert, ne_eq, LawfulEqCmp.compare_eq_iff_eq]
  constructor
  · exact fun he => he.2.resolve_left he.1
  · exact fun he => ⟨fun hce => h.not_mem (hce ▸ he), .inr he⟩

theorem leave (h : IsBehind d c l) (a : Attempt) :
    (a.withLine (l.insert c)).leave c = a.withLine l :=
  congrArg (a.withLine ·) h.erase_insert

end IsBehind

/-- When a cell has been dealt with, the line is again what it was before it. In the second outcome that
may be so already, so what is done there in the end is left open. -/
theorem Alike.leave {g g' : Attempt → Attempt} (hl : IsBehind d c l)
    (hok : ∀ a : Attempt, g (a.withLine l') = (a.settle c).withLine l'')
    (herror : ∀ a : Attempt, g' (a.withLine l') = a.withLine l'') : Alike (l.insert c) l' x y →
    Alike l l''
      (match x with
        | .ok a => .ok ((a.leave c).settle c)
        | .error a => .error (a.leave c))
      (match y with
        | .ok a => .ok (g a)
        | .error a => .error (g' a)) := by
  rintro (a | a)
  · simpa only [hl.leave, hok] using .ok (a.settle c)
  · simpa only [hl.leave, herror] using .error a

/-- With all that is being cleared behind it, a cell is cleared by no more nested calls than there are
cells ahead and one call more, and none of these calls enters a cell again. -/
theorem alike_clearWithin (f : Fallback) (φ : Physics) (d : Direction) (c : Cell) :
    ∀ (n : Nat) (l : ExtTreeSet Cell) (a : Attempt), IsBehind d c l →
      (φ.bounds.contains c → φ.bounds.room c d ≤ n) →
      Alike l l (clear φ d c (a.withLine l)) (clearWithin f φ d (n + 1) c (a.withLine l)) := by
  induction c using φ.bounds.induction_ahead d with
  | off c hin =>
    intro n l a _ _
    rw [clear_of_not_contains hin, clearWithin, if_neg hin]
    exact .error a
  | on c hin ih =>
    intro n l a hl hn
    by_cases hcl : c ∈ (a.withLine l).cleared
    · rw [clear_of_cleared hin hcl, clearWithin, if_pos hin, if_pos hcl]
      exact .ok a
    · have hln : ¬ c ∈ (a.withLine l).line := hl.not_mem
      have hroom := Bounds.room_step_lt hin d
      -- there is room at `c`, so there is a call left for the next cell
      obtain ⟨n, rfl⟩ : ∃ m, n = m + 1 := Nat.exists_eq_succ_of_ne_zero (by have := hn hin; omega)
      have hnext : φ.bounds.room (c.step d) d ≤ n := by have := hn hin; omega
      rw [clear_of_new hin hcl hln, clearWithin_of_new hin hcl hln]
      refine .leave hl (fun a => congrArg (settle c) (hl.leave a)) hl.leave ?_
      refine .vacate (a := a) fun id a => ?_
      exact (ih n _ a hl.insert fun _ => hnext).arrive

/-- With all that is being cleared behind it, a cell is cleared in the same way if it is not noted,
whatever else is. -/
theorem alike_clearFreely (φ : Physics) (d : Direction) (c : Cell) :
    ∀ (l l' : ExtTreeSet Cell) (a : Attempt), IsBehind d c l →
      Alike l l' (clear φ d c (a.withLine l)) (clearFreely φ d c (a.withLine l')) := by
  induction c using φ.bounds.induction_ahead d with
  | off c hin =>
    intro l l' a _
    rw [clear_of_not_contains hin, clearFreely, if_neg hin]
    exact .error a
  | on c hin ih =>
    intro l l' a hl
    by_cases hcl : c ∈ (a.withLine l).cleared
    · have hcl' : c ∈ (a.withLine l').cleared := hcl
      rw [clear_of_cleared hin hcl, clearFreely, if_pos hin, if_pos hcl']
      exact .ok a
    · have hln : ¬ c ∈ (a.withLine l).line := hl.not_mem
      have hcl' : ¬ c ∈ (a.withLine l').cleared := hcl
      rw [clear_of_new hin hcl hln, clearFreely_of_new hin hcl']
      refine .leave hl (fun _ => rfl) (fun _ => rfl) ?_
      refine .vacate (a := a) fun id a => ?_
      exact (ih _ l' a hl.insert).arrive

end Attempt

/-! ### Attempts to move an entity -/

namespace Turn

open Attempt

variable {t : Turn}

/-- An attempt to move an entity by a way to clear the next cell, as it is left in the end. It fails
where the entity stands nowhere or the cell cannot be cleared. -/
def attempt (way : Cell → Attempt → Except Attempt Attempt) (φ : Physics) (d : Direction)
    (id : EntityId) (t : Turn) : Except Attempt Attempt :=
  match t.board.cell? id with
  | some c => (way (c.step d) { t with }).map (Attempt.arrive φ id (c.step d))
  | none => .error { t with }

theorem move?_eq_attempt :
    t.move? φ d id = (t.attempt (clear φ d) φ d id).toOption.map Attempt.toTurn := by
  cases hc : t.board.cell? id with
  | none => rw [move?, attempt, hc]; rfl
  | some c =>
    simp only [move?_eq_match hc, attempt, hc]
    cases clear φ d (c.step d) { t with } <;> rfl

theorem alike_attempt {way way' : Cell → Attempt → Except Attempt Attempt}
    (h : ∀ c, Alike ∅ ∅ (way c { t with }) (way' c { t with })) :
    Alike ∅ ∅ (t.attempt way φ d id) (t.attempt way' φ d id) := by
  rw [attempt, attempt]
  cases t.board.cell? id with
  | none => exact .error { t with }
  | some c => exact (h (c.step d)).arrive

/-- Whatever is to move, wherever it stands, the calls that clear cells are nested at most as deep as the
longer side of the board has cells, and one call more; no call enters a cell that is being cleared. So it
does not matter what would be done then. In the end no cell is noted as being cleared, and without any
such notes the attempt comes to the same. -/
theorem attempt_needs_no_line (φ : Physics) (d : Direction) (id : EntityId) (t : Turn) :
    t.move? φ d id = (t.attempt (clear φ d) φ d id).toOption.map Attempt.toTurn ∧
    (∀ f : Fallback, t.attempt (clearWithin f φ d (φ.bounds.extent + 1)) φ d id =
      t.attempt (clear φ d) φ d id) ∧
    (leftover (t.attempt (clear φ d) φ d id)).line = ∅ ∧
    t.attempt (clearFreely φ d) φ d id = t.attempt (clear φ d) φ d id := by
  have hwithin : ∀ f, Alike ∅ ∅ (t.attempt (clear φ d) φ d id)
      (t.attempt (clearWithin f φ d (φ.bounds.extent + 1)) φ d id) := fun f =>
    alike_attempt fun c => alike_clearWithin f φ d c _ ∅ { t with } (.empty d c)
      Bounds.room_le_extent
  have hfreely : Alike ∅ ∅ (t.attempt (clear φ d) φ d id)
      (t.attempt (clearFreely φ d) φ d id) :=
    alike_attempt fun c => alike_clearFreely φ d c ∅ ∅ { t with } (.empty d c)
  exact ⟨move?_eq_attempt, fun f => (hwithin f).eq.symm, hfreely.line_leftover, hfreely.eq.symm⟩

/-- A rock that is to be pushed over the edge from the only cell of a board takes both calls. -/
example :
    let φ : Physics :=
      { properties := (∅ : PropertyTable).give "Rock" {.push}, blockers := [], bounds := ⟨1, 1⟩ }
    let t : Turn := { board := ((∅ : Board).addThing "BigBlue" ⟨-1, 0⟩).addThing "Rock" ⟨0, 0⟩ }
    let f : Fallback := { tooDeep := fun _ a => .ok a, reentered := fun _ a => .ok a }
    (t.attempt (clearWithin f φ .right 1) φ .right 0).toBool = true ∧
      (t.attempt (clearWithin f φ .right 2) φ .right 0).toBool = false := by
  decide +kernel

end Turn

end WordTiles
