import WordTiles.Proofs.Grid.Ahead
import WordTiles.Proofs.Movement.Arrival
import Mathlib.Data.Nat.Find

/-! The push line as a plain scan. Of the cells ahead, the line ends at the first that is shut or that
nothing would leave. What would leave the cells before it takes one step each, the farthest cell
first, and in each cell first what walks by itself and then what is pushed. All of this is read off
one turn; the steps are arrivals one after the other. -/

namespace WordTiles.Turn

open Board

variable {φ : Physics} {d : Direction} {t : Turn} {id k : EntityId} {c e : Cell} {n : Nat}

/-- Whether an entity walks by itself: it is YOU and has not moved this turn. -/
def isWalker (φ : Physics) (t : Turn) (id : EntityId) : Bool :=
  φ.isYou t.board id ∧ ¬ id ∈ t.moved

/-- Whether an entity would leave its cell for something that comes in. -/
def isLeaving (φ : Physics) (t : Turn) (id : EntityId) : Bool :=
  φ.isPushable t.board id ∨ t.isWalker φ id

/-- A cell that nothing can enter: it is off the board, or an occupant blocks. -/
def isShut (φ : Physics) (t : Turn) (c : Cell) : Bool :=
  ¬ φ.bounds.contains c ∨ (t.board.occupants c).any (φ.blocks t.board)

/-- A cell at which a push line ends: it is shut, or nothing would leave it. -/
def isEnd (φ : Physics) (t : Turn) (c : Cell) : Bool :=
  t.isShut φ c ∨ ¬ (t.board.occupants c).any (t.isLeaving φ)

/-- What leaves a cell, in this order: those that walk, ascending, and then the others that can be
pushed, ascending. -/
def leavers (φ : Physics) (t : Turn) (c : Cell) : List EntityId :=
  (t.board.occupants c).filter (t.isWalker φ) ++
  (t.board.occupants c).filter fun id => φ.isPushable t.board id ∧ ¬ t.isWalker φ id

/-- One step for all that leaves a cell. -/
def departures (φ : Physics) (d : Direction) (t : Turn) (c : Cell) : List (EntityId × Cell) :=
  (t.leavers φ c).map (·, c.step d)

/-- One step for all that leaves the `n` cells from `c` on, the farthest cell first. -/
def shift (φ : Physics) (d : Direction) (c : Cell) (n : Nat) (t : Turn) : List (EntityId × Cell) :=
  (List.range n).reverse.flatMap fun i : Nat => t.departures φ d (c.offset d i)

/-! ### What leaves a cell -/

theorem mem_leavers : id ∈ t.leavers φ c ↔ t.board.cell? id = some c ∧ t.isLeaving φ id := by
  simp only [leavers, List.mem_append, List.mem_filter, mem_occupants, isLeaving,
    decide_eq_true_eq]
  rw [← and_or_left]
  by_cases hw : t.isWalker φ id <;> simp [hw]

theorem leavers_nodup (φ : Physics) (t : Turn) (c : Cell) : (t.leavers φ c).Nodup := by
  have hn : (t.board.occupants c).Nodup := (occupants_ascending t.board c).imp Nat.ne_of_lt
  refine List.nodup_append.mpr ⟨hn.filter _, hn.filter _, ?_⟩
  rintro id hw k hp rfl
  have hk := of_decide_eq_true (List.mem_filter.mp hp).2
  exact hk.2 (List.mem_filter.mp hw).2

theorem isEnd_iff : t.isEnd φ c ↔ t.isShut φ c ∨ t.leavers φ c = [] := by
  rw [isEnd, decide_eq_true_eq, List.eq_nil_iff_forall_not_mem, List.any_eq_true]
  simp only [mem_leavers, mem_occupants, not_exists]

theorem contains_of_not_isShut (h : ¬ t.isShut φ c) : φ.bounds.contains c := by
  rw [isShut, decide_eq_true_eq, not_or, Decidable.not_not] at h
  exact h.1

theorem not_blocks_of_not_isShut (h : ¬ t.isShut φ c) (hc : t.board.cell? id = some c) :
    ¬ φ.blocks t.board id := by
  rw [isShut, decide_eq_true_eq, not_or, List.any_eq_true] at h
  intro hb
  exact h.2 ⟨id, mem_occupants.mpr hc, hb⟩

/-- A vacant cell is the end of a line, and it is shut only off the board. -/
theorem isEnd_of_vacant (h : ∀ k, t.board.cell? k ≠ some c) :
    t.isEnd φ c ∧ (t.isShut φ c ↔ ¬ φ.bounds.contains c) := by
  have hocc : t.board.occupants c = [] :=
    List.eq_nil_iff_forall_not_mem.mpr fun k hk => h k (mem_occupants.mp hk)
  simp [isEnd, isShut, hocc]

/-! ### The steps along the line -/

theorem shift_succ : t.shift φ d c (n + 1) =
    t.shift φ d (c.step d) n ++ t.departures φ d c := by
  simp only [shift, List.range_succ_eq_map, List.reverse_cons, List.flatMap_append,
    List.flatMap_cons, List.flatMap_nil, List.append_nil, ← List.map_reverse, List.flatMap_map,
    Cell.step_offset, Cell.offset_natCast_zero, Nat.succ_eq_add_one]

theorem mem_shift : (id, e) ∈ t.shift φ d c n ↔ ∃ i < n,
    t.board.cell? id = some (c.offset d i) ∧ t.isLeaving φ id ∧ e = (c.offset d i).step d := by
  simp only [shift, departures, List.mem_flatMap, List.mem_reverse, List.mem_range, List.mem_map,
    mem_leavers, Prod.mk.injEq]
  constructor
  · rintro ⟨i, hi, k, ⟨hc, hl⟩, rfl, rfl⟩
    exact ⟨i, hi, hc, hl, rfl⟩
  · rintro ⟨i, hi, hc, hl, rfl⟩
    exact ⟨i, hi, id, ⟨hc, hl⟩, rfl, rfl⟩

theorem map_fst_departures : (t.departures φ d c).map Prod.fst = t.leavers φ c := by
  rw [departures, List.map_map]
  exact List.map_id _

/-- Nothing takes more than one of the steps. -/
theorem shift_nodup (φ : Physics) (d : Direction) (c : Cell) (n : Nat) (t : Turn) :
    ((t.shift φ d c n).map Prod.fst).Nodup := by
  induction n generalizing c with
  | zero => simp [shift]
  | succ n ih =>
    rw [shift_succ, List.map_append, map_fst_departures]
    refine List.nodup_append.mpr ⟨ih (c.step d), leavers_nodup φ t c, ?_⟩
    rintro k hs _ hk rfl
    obtain ⟨⟨id, e⟩, ha, rfl⟩ := List.mem_map.mp hs
    obtain ⟨i, -, hc, -⟩ := mem_shift.mp ha
    have he := Option.some.inj (hc.symm.trans (mem_leavers.mp hk).1)
    exact (Cell.ahead_offset d (c.step d) i).ne_of_step he

/-- The steps do not touch what stands in none of the cells ahead. -/
theorem stays_shift (h : ∀ e, Cell.Ahead d c e → t.board.cell? k ≠ some e) :
    Stays t.board (t.arriveAll φ (t.shift φ d c n)).board k ∧
      k ∉ (t.shift φ d c n).map Prod.fst := by
  have hs : ∀ a ∈ t.shift φ d c n, k ≠ a.1 ∧ t.board.cell? k ≠ some a.2 := by
    rintro ⟨id, e⟩ ha
    obtain ⟨i, -, hc, -, rfl⟩ := mem_shift.mp ha
    constructor
    · rintro rfl
      exact h _ (Cell.ahead_offset d c i) hc
    · rw [Cell.offset_step]
      exact h _ (Cell.ahead_offset d c (i + 1))
  constructor
  · exact stays_arriveAll hs
  · intro hk
    obtain ⟨a, ha, rfl⟩ := List.mem_map.mp hk
    exact (hs a ha).1 rfl

/-- What stands behind the line is not touched by it. -/
theorem stays_shift_of_behind (hc : t.board.cell? id = some c) :
    Stays t.board (t.arriveAll φ (t.shift φ d (c.step d) n)).board id ∧
      (id ∈ (t.arriveAll φ (t.shift φ d (c.step d) n)).moved ↔ id ∈ t.moved) := by
  have hahead : ∀ e, Cell.Ahead d (c.step d) e → t.board.cell? id ≠ some e := by
    intro e he h
    exact he.ne_of_step (Option.some.inj (h.symm.trans hc))
  obtain ⟨hs, hm⟩ := stays_shift (φ := φ) (n := n) hahead
  refine ⟨hs, ?_⟩
  rw [moved_arriveAll, List.mem_append]
  exact or_iff_left hm

/-! ### The end of the line -/

/-- The push line from `c` on ends after `n` cells. -/
structure EndsAfter (φ : Physics) (d : Direction) (t : Turn) (c : Cell) (n : Nat) : Prop where
  last : t.isEnd φ (c.offset d n)
  before : ∀ i < n, ¬ t.isEnd φ (c.offset d i)

/-- Every line ends, at the latest where the board does. -/
theorem exists_endsAfter (φ : Physics) (d : Direction) (t : Turn) (c : Cell) :
    ∃ n, t.EndsAfter φ d c n := by
  have h : ∃ n : Nat, t.isEnd φ (c.offset d n) := by
    have hshut : t.isShut φ (c.offset d (φ.bounds.room c d)) :=
      decide_eq_true (.inl (φ.bounds.not_contains_offset_room c d))
    exact ⟨φ.bounds.room c d, isEnd_iff.mpr (.inl hshut)⟩
  exact ⟨Nat.find h, Nat.find_spec h, fun i hi => Nat.find_min h hi⟩

namespace EndsAfter

theorem isEnd_zero (h : t.EndsAfter φ d c 0) : t.isEnd φ c := by
  have := h.last
  rwa [Cell.offset_natCast_zero] at this

theorem of_isEnd (h : t.isEnd φ c) : t.EndsAfter φ d c 0 where
  last := by rwa [Cell.offset_natCast_zero]
  before i hi := absurd hi (Nat.not_lt_zero i)

/-- A line of more than no cells begins with a cell that something leaves. -/
theorem open_succ (h : t.EndsAfter φ d c (n + 1)) : ¬ t.isShut φ c ∧ t.leavers φ c ≠ [] := by
  have := h.before 0 (Nat.succ_pos n)
  rwa [Cell.offset_natCast_zero, isEnd_iff, not_or] at this

theorem succ (h : t.EndsAfter φ d c (n + 1)) : t.EndsAfter φ d (c.step d) n where
  last := Cell.step_offset c d n ▸ h.last
  before i hi := Cell.step_offset c d i ▸ h.before (i + 1) (Nat.succ_lt_succ hi)

theorem cons (h : t.EndsAfter φ d (c.step d) n) (hc : ¬ t.isEnd φ c) :
    t.EndsAfter φ d c (n + 1) where
  last := (Cell.step_offset c d n).symm ▸ h.last
  before i hi := by
    match i with
    | 0 => rwa [Cell.offset_natCast_zero]
    | i + 1 => exact (Cell.step_offset c d i).symm ▸ h.before i (Nat.lt_of_succ_lt_succ hi)

/-- Up to an end that is not shut, no cell is. -/
theorem not_isShut (h : t.EndsAfter φ d c n) (hopen : ¬ t.isShut φ (c.offset d n)) {i : Nat}
    (hi : i ≤ n) : ¬ t.isShut φ (c.offset d i) := by
  rcases Nat.lt_or_eq_of_le hi with hi | rfl
  · exact fun hs => h.before i hi (isEnd_iff.mpr (.inl hs))
  · exact hopen

end EndsAfter

end WordTiles.Turn
