import WordTiles.Proofs.Movement.Steps

/-! Who is free to move, read off a board before anything has moved. The cells ahead are walked until
one is shut or has nothing in it that would make room; the entity is free if that cell is not shut.
This is what decides a first attempt, so a turn moves nothing exactly if no mover is free. -/

namespace WordTiles

open Board Std

variable {φ : Physics} {d : Direction} {b : Board} {t : Turn} {m : EntityId} {p c : Cell}

namespace Physics

/-- Nothing can enter the cell: it is off the board, or an occupant blocks. -/
def isShut (φ : Physics) (b : Board) (c : Cell) : Bool :=
  ¬ φ.bounds.contains c ∨ (b.occupants c).any (φ.blocks b)

/-- Something in the cell would make room: it can be pushed, or it is YOU. -/
def makesRoom (φ : Physics) (b : Board) (c : Cell) : Bool :=
  (b.occupants c).any fun id => φ.isPushable b id ∨ φ.isYou b id

/-- Of the cells ahead of `p`, the one `k` steps away is the first that is shut or makes no room. -/
def EndsAt (φ : Physics) (d : Direction) (b : Board) (p : Cell) (k : Nat) : Prop :=
  IsLeast {k : Nat | 1 ≤ k ∧ (φ.isShut b (p.offset d k) ∨ ¬ φ.makesRoom b (p.offset d k))} k

/-- The first cell ahead that is shut or makes no room is not shut. -/
def IsFree (φ : Physics) (d : Direction) (b : Board) (m : EntityId) : Prop :=
  ∃ p k, b.cell? m = some p ∧ φ.EndsAt d b p k ∧ ¬ φ.isShut b (p.offset d k)

/-- The first cell ahead that is shut or makes no room is shut. -/
def IsStuck (φ : Physics) (d : Direction) (b : Board) (m : EntityId) : Prop :=
  ∃ p k, b.cell? m = some p ∧ φ.EndsAt d b p k ∧ φ.isShut b (p.offset d k)

end Physics

/-! ### Lines that end in the open -/

namespace Turn

/-- The push line ahead of a cell ends at a cell that is not shut. -/
def IsOpen (φ : Physics) (d : Direction) (t : Turn) (p : Cell) : Prop :=
  ∃ n, t.EndsAfter φ d (p.step d) n ∧ ¬ t.isShut φ ((p.step d).offset d n)

/-- A line is open if its first cell is not shut and, unless nothing would leave that cell, the line
from there on is open. -/
theorem isOpen_iff : t.IsOpen φ d p ↔ ¬ t.isShut φ (p.step d) ∧
    (t.leavers φ (p.step d) = [] ∨ t.IsOpen φ d (p.step d)) := by
  constructor
  · rintro ⟨n, hn, hs⟩
    cases n with
    | zero =>
      rw [Cell.offset_natCast_zero] at hs
      exact ⟨hs, .inl ((isEnd_iff.mp hn.isEnd_zero).resolve_left hs)⟩
    | succ n =>
      rw [← Cell.step_offset] at hs
      exact ⟨hn.open_succ.1, .inr ⟨n, hn.succ, hs⟩⟩
  · rintro ⟨hs, h⟩
    by_cases hl : t.leavers φ (p.step d) = []
    · refine ⟨0, .of_isEnd (isEnd_iff.mpr (.inr hl)), ?_⟩
      rwa [Cell.offset_natCast_zero]
    · obtain ⟨n, hn, hopen⟩ := h.resolve_left hl
      have hc : ¬ t.isEnd φ (p.step d) := by
        rw [isEnd_iff, not_or]
        exact ⟨hs, hl⟩
      refine ⟨n + 1, hn.cons hc, ?_⟩
      rwa [← Cell.step_offset]

theorem isSome_move?_iff : (t.move? φ d m).isSome ↔
    ∃ p, t.board.cell? m = some p ∧ t.IsOpen φ d p := by
  rw [Option.isSome_iff_exists]
  constructor
  · rintro ⟨t', h⟩
    obtain ⟨p, n, hf, -⟩ := move?_eq_some_iff.mp h
    exact ⟨p, hf.cell, n, hf.ends, hf.notShut⟩
  · rintro ⟨p, hp, n, hn, hs⟩
    exact ⟨_, move?_eq_some_iff.mpr ⟨p, n, ⟨hp, hn, hs⟩, rfl⟩⟩

/-! ### Before anything has moved -/

theorem isEnd_start : ({ board := b } : Turn).isEnd φ c ↔ φ.isShut b c ∨ ¬ φ.makesRoom b c := by
  have hw : ∀ id, ({ board := b } : Turn).isLeaving φ id =
      decide (φ.isPushable b id ∨ φ.isYou b id) := fun id => by
    simp [isLeaving, isWalker]
  rw [isEnd, decide_eq_true_eq, funext hw]
  rfl

/-- The walk on the board is the push line of a turn in which nothing has moved. -/
theorem endsAfter_start {n : Nat} :
    ({ board := b } : Turn).EndsAfter φ d (p.step d) n ↔ φ.EndsAt d b p (n + 1) := by
  constructor
  · intro h
    refine ⟨⟨Nat.succ_pos n, ?_⟩, ?_⟩
    · rw [← Cell.step_offset]
      exact isEnd_start.mp h.last
    · rintro k ⟨hk, hend⟩
      obtain ⟨i, rfl⟩ := Nat.exists_eq_add_of_le' hk
      rw [← Cell.step_offset] at hend
      have hi : ¬ i < n := fun hi => h.before i hi (isEnd_start.mpr hend)
      omega
  · rintro ⟨⟨-, hlast⟩, hleast⟩
    refine ⟨?_, fun i hi hend => ?_⟩
    · rw [Cell.step_offset]
      exact isEnd_start.mpr hlast
    · rw [Cell.step_offset] at hend
      have hle : n + 1 ≤ i + 1 := hleast ⟨Nat.succ_pos i, isEnd_start.mp hend⟩
      omega

end Turn

namespace Physics

theorem isFree_iff : φ.IsFree d b m ↔
    ∃ p, b.cell? m = some p ∧ ({ board := b } : Turn).IsOpen φ d p := by
  constructor
  · rintro ⟨p, k, hp, hk, hs⟩
    obtain ⟨n, rfl⟩ := Nat.exists_eq_add_of_le' hk.1.1
    rw [← Cell.step_offset] at hs
    exact ⟨p, hp, n, Turn.endsAfter_start.mpr hk, hs⟩
  · rintro ⟨p, hp, n, hn, hs⟩
    rw [Cell.step_offset] at hs
    exact ⟨p, n + 1, hp, Turn.endsAfter_start.mp hn, hs⟩

/-- What stands somewhere is either free or stuck. -/
theorem isStuck_iff (hp : b.cell? m = some p) : φ.IsStuck d b m ↔ ¬ φ.IsFree d b m := by
  constructor
  · rintro ⟨q, k, hq, hk, hs⟩ ⟨q', k', hq', hk', hs'⟩
    obtain rfl := Option.some.inj (hq.symm.trans hq')
    obtain rfl := Nat.le_antisymm (hk.2 hk'.1) (hk'.2 hk.1)
    exact hs' hs
  · intro h
    obtain ⟨n, hn⟩ := Turn.exists_endsAfter φ d { board := b } (p.step d)
    have hk := Turn.endsAfter_start.mp hn
    refine ⟨p, n + 1, hp, hk, ?_⟩
    by_contra hs
    exact h ⟨p, n + 1, hp, hk, hs⟩

end Physics

/-! ### Turns that move nothing -/

namespace Turn

/-- Movers one after the other move nothing exactly if none of them that is live can move at first. -/
theorem foldl_moved_eq_nil_iff {ms : List EntityId} :
    (ms.foldl (advance φ d) { board := b }).moved = [] ↔
      ∀ m ∈ ms, m ∈ b.live → ¬ (({ board := b } : Turn).move? φ d m).isSome := by
  induction ms with
  | nil => simp
  | cons m ms ih =>
    rw [List.foldl_cons, List.forall_mem_cons]
    by_cases hm : m ∈ b.live ∧ (({ board := b } : Turn).move? φ d m).isSome
    · -- what has moved once stays in the report
      refine iff_of_false (fun h => ?_) fun h => h.1 hm.1 hm.2
      obtain ⟨t', ht⟩ := Option.isSome_iff_exists.mp hm.2
      have hadv : advance φ d { board := b } m = t' := by
        rw [advance, if_neg (by simp [hm.1]), ht]
        rfl
      obtain ⟨ids, hids, hid⟩ := moved_of_move? ht
      have hpre := moved_prefix_foldl (φ := φ) (d := d) ms t'
      rw [← hadv, h, List.prefix_nil, hadv, hids, List.nil_append] at hpre
      rw [hpre] at hid
      cases hid
    · have hadv : advance φ d { board := b } m = { board := b } := by
        rcases advance_cases φ d { board := b } m with h | ⟨-, hl, h⟩
        · exact h
        · exact absurd ⟨hl, Option.isSome_of_eq_some h⟩ hm
      rw [hadv]
      exact ih.trans (and_iff_right fun hl hs => hm ⟨hl, hs⟩).symm

/-- A turn moves nothing exactly if no live mover is free as the turn begins. -/
theorem resolve_moved_eq_nil_iff {ms : List EntityId} :
    (resolve φ d ms { board := b }).moved = [] ↔ ∀ m ∈ ms, m ∈ b.live → ¬ φ.IsFree d b m := by
  rw [resolve, foldl_moved_eq_nil_iff]
  simp [Physics.isFree_iff, isSome_move?_iff]

end Turn

end WordTiles
