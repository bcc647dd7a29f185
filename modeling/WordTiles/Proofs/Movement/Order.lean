import WordTiles.Proofs.Movement.Freedom
import WordTiles.Proofs.Movement.Once

/-! Who moves does not depend on who tries first. Where the things that are YOU cannot be pushed and
never block, a move leaves every YOU thing that still waits as free or as stuck as it was: the cell
right ahead of where the mover stood has been entered and holds nothing that leaves, so a line that
comes that far is open, and off its push line a move touches nothing. So whoever is free on the board
before the turn moves in it, and nobody else of those that are YOU. -/

namespace WordTiles

open Board Std

variable {φ : Physics} {d : Direction} {b : Board} {t : Turn} {m k : EntityId} {p q c : Cell}
  {n : Nat}

/-- No name that is YOU is also PUSH, STOP or one that always blocks. -/
def Physics.YouOnlyWalks (φ : Physics) : Prop :=
  ∀ name, .you ∈ φ.properties.of name →
    ¬ .push ∈ φ.properties.of name ∧ ¬ .stop ∈ φ.properties.of name ∧ ¬ name ∈ φ.blockers

namespace Physics.YouOnlyWalks

/-- What is YOU has the properties of its name, so it lacks those that no such name has. -/
theorem of_isYou (h : φ.YouOnlyWalks) (hy : φ.isYou b k) :
    ¬ b.isWord k ∧ ¬ .push ∈ φ.properties.ofEntity b k ∧
      ¬ .stop ∈ φ.properties.ofEntity b k ∧ ¬ φ.isBlocker b k := by
  obtain ⟨hw, name, hn, hyou⟩ := PropertyTable.mem_ofEntity.mp (of_decide_eq_true hy)
  have hof : φ.properties.ofEntity b k = φ.properties.of name := by
    simp [PropertyTable.ofEntity, hw, hn]
  have hblocker : φ.isBlocker b k = φ.blockers.contains name := by
    rw [isBlocker, hn, Option.any_some]
  obtain ⟨hpush, hstop, hblock⟩ := h name hyou
  rw [hof, hblocker, List.contains_iff_mem]
  exact ⟨hw, hpush, hstop, hblock⟩

theorem not_isPushable (h : φ.YouOnlyWalks) (hy : φ.isYou b k) : ¬ φ.isPushable b k := by
  obtain ⟨hw, hpush, -, -⟩ := h.of_isYou hy
  rw [isPushable, decide_eq_true_eq, not_or]
  exact ⟨hw, hpush⟩

theorem not_blocks (h : φ.YouOnlyWalks) (hy : φ.isYou b k) : ¬ φ.blocks b k := by
  obtain ⟨-, -, hstop, hblock⟩ := h.of_isYou hy
  intro hb
  rcases (of_decide_eq_true hb).2 with hb | ⟨hb, -⟩
  · exact hblock hb
  · exact hstop hb

end Physics.YouOnlyWalks

namespace Turn

/-! ### What a cell looks like -/

theorem isShut_iff : t.isShut φ c ↔
    ¬ φ.bounds.contains c ∨ ∃ k, t.board.cell? k = some c ∧ φ.blocks t.board k := by
  simp [isShut]

theorem leavers_eq_nil_iff :
    t.leavers φ c = [] ↔ ∀ k, t.board.cell? k = some c → ¬ t.isLeaving φ k := by
  simp [List.eq_nil_iff_forall_not_mem, mem_leavers]

section Untouched

variable {t' : Turn}
  (h : ∀ k, t.board.cell? k = some c ∨ t'.board.cell? k = some c →
    Stays t.board t'.board k ∧ (k ∈ t'.moved ↔ k ∈ t.moved))

include h

theorem isShut_of_untouched : t'.isShut φ c ↔ t.isShut φ c := by
  rw [isShut_iff, isShut_iff]
  refine or_congr_right (exists_congr fun k => ⟨fun ⟨hc, hb⟩ => ?_, fun ⟨hc, hb⟩ => ?_⟩)
  · obtain ⟨hs, -⟩ := h k (.inr hc)
    exact ⟨hs.cell ▸ hc, Physics.blocks_of_kept hs.toKept ▸ hb⟩
  · obtain ⟨hs, -⟩ := h k (.inl hc)
    exact ⟨hs.cell.trans hc, (Physics.blocks_of_kept hs.toKept).trans hb⟩

theorem leavers_of_untouched : t'.leavers φ c = [] ↔ t.leavers φ c = [] := by
  have hl : ∀ k, Stays t.board t'.board k → (k ∈ t'.moved ↔ k ∈ t.moved) →
      t'.isLeaving φ k = t.isLeaving φ k := fun k hs hm => by
    simp [isLeaving, isWalker, Physics.isPushable_of_kept hs.toKept,
      Physics.isYou_of_kept hs.toKept, hm]
  rw [leavers_eq_nil_iff, leavers_eq_nil_iff]
  refine forall_congr' fun k => ⟨fun hk hc => ?_, fun hk hc => ?_⟩
  · obtain ⟨hs, hm⟩ := h k (.inl hc)
    rw [← hl k hs hm]
    exact hk (hs.cell.trans hc)
  · obtain ⟨hs, hm⟩ := h k (.inr hc)
    rw [hl k hs hm]
    exact hk (hs.cell ▸ hc)

end Untouched

/-! ### One move -/

/-- The turn after entity `m` has moved from `p` along a push line of `n` cells. -/
abbrev after (φ : Physics) (d : Direction) (t : Turn) (m : EntityId) (p : Cell) (n : Nat) : Turn :=
  t.arriveAll φ (t.steps φ d m p n)

namespace IsFree

/-- Those that take a step stand on the cell of the mover or on the push line. -/
theorem exists_offset_of_mem (h : t.IsFree φ d m p n)
    (hk : k ∈ (t.steps φ d m p n).map Prod.fst) :
    ∃ i ≤ n, t.board.cell? k = some (p.offset d i) ∧
      (i = 0 → k = m) ∧ (k = m ∨ t.isLeaving φ k) := by
  obtain ⟨⟨k, e⟩, hs, rfl⟩ := List.mem_map.mp hk
  rcases List.mem_append.mp hs with hs | hs
  · obtain ⟨i, hi, hc, hl, -⟩ := mem_shift.mp hs
    rw [Cell.step_offset] at hc
    exact ⟨i + 1, hi, hc, fun h0 => by omega, .inr hl⟩
  · obtain ⟨rfl, -⟩ := Prod.mk.inj (List.mem_singleton.mp hs)
    exact ⟨0, Nat.zero_le n, by rw [Cell.offset_natCast_zero, h.cell], fun _ => rfl, .inl rfl⟩

/-- What leaves a cell of the push line takes a step. -/
theorem mem_steps_of_isLeaving {i : Nat} (hi : i < n)
    (hc : t.board.cell? k = some (p.offset d (i + 1 : Nat))) (hl : t.isLeaving φ k) :
    k ∈ (t.steps φ d m p n).map Prod.fst := by
  refine List.mem_map.mpr ⟨(k, _), List.mem_append_left _ (mem_shift.mpr ⟨i, hi, ?_, hl, rfl⟩), rfl⟩
  rw [Cell.step_offset, hc]

/-- Nothing leaves the cell at which the line ends. -/
theorem leavers_last (h : t.IsFree φ d m p n) : t.leavers φ (p.offset d (n + 1 : Nat)) = [] := by
  have hend := isEnd_iff.mp h.ends.last
  rw [← Cell.step_offset]
  exact hend.resolve_left h.notShut

theorem not_isShut_offset (h : t.IsFree φ d m p n) {i : Nat} (hi : i ≤ n) :
    ¬ t.isShut φ (p.offset d (i + 1 : Nat)) := by
  rw [← Cell.step_offset]
  exact h.ends.not_isShut h.notShut hi

/-- The line is open from each of its cells on. -/
theorem isOpen_offset (h : t.IsFree φ d m p n) {i : Nat} (hi : i ≤ n) :
    t.IsOpen φ d (p.offset d i) := by
  induction i with
  | zero =>
    rw [Cell.offset_natCast_zero]
    exact ⟨n, h.ends, h.notShut⟩
  | succ i ih =>
    have hopen := (isOpen_iff.mp (ih (Nat.le_of_succ_le hi))).2
    rw [Cell.offset_step] at hopen
    refine hopen.resolve_left fun hl => h.ends.before i hi (isEnd_iff.mpr (.inr ?_))
    rw [Cell.step_offset, hl]

theorem mem_moved_iff : k ∈ (t.after φ d m p n).moved ↔
    k ∈ t.moved ∨ k ∈ (t.steps φ d m p n).map Prod.fst := by
  rw [moved_arriveAll, List.mem_append]

/-- What takes no step and does not stand in a cell that is entered stays. -/
theorem stays (h : t.IsFree φ d m p n) (hk : k ∉ (t.steps φ d m p n).map Prod.fst)
    (hc : ∀ i ≤ n, t.board.cell? k ≠ some (p.offset d (i + 1 : Nat))) :
    Stays t.board (t.after φ d m p n).board k := by
  refine stays_arriveAll fun a ha => ⟨fun hka => hk (hka ▸ List.mem_map_of_mem ha), ?_⟩
  obtain ⟨i, hi, hcell, -⟩ := h.exists_offset_of_mem (List.mem_map_of_mem ha)
  obtain ⟨e, he, hstep, -⟩ := h.of_mem_steps ha
  obtain rfl := Option.some.inj (hcell.symm.trans he)
  rw [hstep, Cell.offset_step]
  exact hc i hi

/-- What stands in a cell after the move has come there by a step or stood there before. -/
theorem cell?_before (h : t.IsFree φ d m p n)
    (hc : (t.after φ d m p n).board.cell? k = some c) :
    (k ∈ (t.steps φ d m p n).map Prod.fst ∧ ∃ i ≤ n, t.board.cell? k = some (p.offset d i) ∧
      (i = 0 → k = m) ∧ c = p.offset d (i + 1 : Nat)) ∨
    k ∉ (t.steps φ d m p n).map Prod.fst ∧ t.board.cell? k = some c := by
  rcases h.carries k with hg | ⟨-, hcell⟩
  · rw [hg.cell] at hc; cases hc
  · by_cases hk : k ∈ (t.steps φ d m p n).map Prod.fst
    · obtain ⟨i, hi, hi', hm, -⟩ := h.exists_offset_of_mem hk
      simp only [hi', if_pos hk, Option.map_some] at hcell
      have he : c = (p.offset d i).step d := Option.some.inj (hc.symm.trans hcell)
      exact .inl ⟨hk, i, hi, hi', hm, by rw [he, Cell.offset_step]⟩
    · simp only [if_neg hk, Option.map_id_fun', id_eq] at hcell
      exact .inr ⟨hk, hcell ▸ hc⟩

theorem kept (h : t.IsFree φ d m p n)
    (hc : (t.after φ d m p n).board.cell? k = some c) :
    Kept t.board (t.after φ d m p n).board k := (h.carries k).kept hc

/-- Cells off the line are as they were. -/
theorem untouched (h : t.IsFree φ d m p n) (hc : ∀ i ≤ n + 1, c ≠ p.offset d (i : Nat)) (k)
    (hk : t.board.cell? k = some c ∨
      (t.after φ d m p n).board.cell? k = some c) :
    Stays t.board (t.after φ d m p n).board k ∧
      (k ∈ (t.after φ d m p n).moved ↔ k ∈ t.moved) := by
  have hcell : t.board.cell? k = some c := by
    rcases hk with hk | hk
    · exact hk
    · rcases h.cell?_before hk with ⟨-, i, hi, -, -, he⟩ | ⟨-, hk⟩
      · exact absurd he (hc (i + 1) (Nat.succ_le_succ hi))
      · exact hk
  have hns : k ∉ (t.steps φ d m p n).map Prod.fst := fun hs => by
    obtain ⟨i, hi, hi', -⟩ := h.exists_offset_of_mem hs
    exact hc i (Nat.le_succ_of_le hi) (Option.some.inj (hcell.symm.trans hi'))
  refine ⟨h.stays hns fun i hi hi' => ?_, ?_⟩
  · exact hc (i + 1) (Nat.succ_le_succ hi) (Option.some.inj (hcell.symm.trans hi'))
  · rw [mem_moved_iff]
    exact or_iff_left hns

theorem isLeaving_before (hk : Kept t.board (t.after φ d m p n).board k)
    (hl : (t.after φ d m p n).isLeaving φ k) : t.isLeaving φ k := by
  rw [isLeaving, decide_eq_true_eq, isWalker, decide_eq_true_eq] at hl ⊢
  rw [Physics.isPushable_of_kept hk, Physics.isYou_of_kept hk] at hl
  exact hl.imp_right fun hw => ⟨hw.1, fun hm => hw.2 (mem_moved_iff.mpr (.inl hm))⟩

/-- In the cell right ahead of where the mover stood are the mover and what stood there and took no
step. -/
theorem cell?_next (h : t.IsFree φ d m p n)
    (hk : (t.after φ d m p n).board.cell? k = some (p.step d)) :
    k = m ∨ t.board.cell? k = some (p.step d) ∧ k ∉ (t.steps φ d m p n).map Prod.fst := by
  rcases h.cell?_before hk with ⟨-, i, -, -, hm, he⟩ | ⟨hns, hc⟩
  · have hstep : p.step d = p.offset d (0 + 1 : Nat) := rfl
    rw [hstep, Cell.offset_inj] at he
    exact .inl (hm (by omega))
  · exact .inr ⟨hc, hns⟩

/-- After a move nothing leaves the cell right ahead of where the mover stood, but the mover if it can
be pushed. -/
theorem leaver_next (h : t.IsFree φ d m p n)
    (hk : k ∈ (t.after φ d m p n).leavers φ (p.step d)) : k = m ∧ φ.isPushable t.board m := by
  obtain ⟨hcell, hl⟩ := mem_leavers.mp hk
  have hkept := h.kept hcell
  rcases h.cell?_next hcell with rfl | ⟨hc, hns⟩
  · have hmem := List.mem_map_of_mem (f := Prod.fst) (mem_steps_self (φ := φ) (d := d) (m := k)
      (p := p) (n := n) t)
    rcases of_decide_eq_true hl with hp | hw
    · exact ⟨rfl, (Physics.isPushable_of_kept hkept).symm.trans hp⟩
    · exact absurd (mem_moved_iff.mpr (.inr hmem)) (of_decide_eq_true hw).2
  · have hleave := isLeaving_before hkept hl
    cases n with
    | zero => exact absurd hleave (leavers_eq_nil_iff.mp h.leavers_last k hc)
    | succ n => exact absurd (mem_steps_of_isLeaving (Nat.succ_pos n) hc hleave) hns

section Walker

variable (hφ : φ.YouOnlyWalks) (h : t.IsFree φ d m p n) (hy : φ.isYou t.board m)

include hφ h hy

/-- The cell right ahead of where the mover stood can be entered after it, and nothing leaves it. -/
theorem next_after : ¬ (t.after φ d m p n).isShut φ (p.step d) ∧
    (t.after φ d m p n).leavers φ (p.step d) = [] := by
  constructor
  · have hopen : ¬ t.isShut φ (p.step d) := h.not_isShut_offset (Nat.zero_le n)
    rw [isShut_iff, not_or, Decidable.not_not] at hopen ⊢
    refine ⟨hopen.1, fun ⟨k, hk, hb⟩ => ?_⟩
    rw [Physics.blocks_of_kept (h.kept hk)] at hb
    rcases h.cell?_next hk with rfl | ⟨hc, -⟩
    · exact hφ.not_blocks hy hb
    · exact hopen.2 ⟨k, hc, hb⟩
  · rw [List.eq_nil_iff_forall_not_mem]
    exact fun k hk => hφ.not_isPushable hy (h.leaver_next hk).2

/-- The cell that the mover has left blocks exactly if it did before. -/
theorem isShut_origin : (t.after φ d m p n).isShut φ p ↔ t.isShut φ p := by
  have hp0 : ∀ i : Nat, p = p.offset d i → i = 0 := fun i hi => by
    rw [← Cell.offset_natCast_zero p d, Cell.offset_offset, Cell.offset_inj] at hi
    omega
  rw [isShut_iff, isShut_iff]
  refine or_congr_right (exists_congr fun k => ⟨fun ⟨hc, hb⟩ => ?_, fun ⟨hc, hb⟩ => ?_⟩)
  · rw [Physics.blocks_of_kept (h.kept hc)] at hb
    rcases h.cell?_before hc with ⟨-, i, -, -, -, he⟩ | ⟨-, hk⟩
    · have := hp0 _ he
      omega
    · exact ⟨hk, hb⟩
  · have hne : k ≠ m := fun hkm => hφ.not_blocks hy (hkm ▸ hb)
    have hns : k ∉ (t.steps φ d m p n).map Prod.fst := fun hs => by
      obtain ⟨i, -, hi, hm, -⟩ := h.exists_offset_of_mem hs
      exact hne (hm (hp0 i (Option.some.inj (hc.symm.trans hi))))
    have hs := h.stays hns fun i _ hi => by
      have := hp0 _ (Option.some.inj (hc.symm.trans hi))
      omega
    exact ⟨hs.cell.trans hc, (Physics.blocks_of_kept hs.toKept).trans hb⟩

/-- A move changes for no cell off its line whether the line ahead of it is open. -/
theorem isOpen_after (hm : m ∉ t.moved) (hq : ∀ i < n, q ≠ p.offset d (i + 1 : Nat)) :
    (t.after φ d m p n).IsOpen φ d q ↔ t.IsOpen φ d q := by
  have hopen : t.IsOpen φ d p := ⟨n, h.ends, h.notShut⟩
  have hopen' : (t.after φ d m p n).IsOpen φ d p :=
    isOpen_iff.mpr ⟨(next_after hφ h hy).1, .inl (next_after hφ h hy).2⟩
  have hleave : t.leavers φ p ≠ [] := List.ne_nil_of_mem (a := m) (mem_leavers.mpr
    ⟨h.cell, decide_eq_true (.inr (decide_eq_true ⟨hy, hm⟩))⟩)
  -- the cells ahead of `q`, as long as they are on the board
  induction hr : φ.bounds.room (q.step d) d using Nat.strong_induction_on generalizing q with
  | _ r ih =>
    by_cases hqp : q = p
    · subst hqp
      exact iff_of_true hopen' hopen
    rw [isOpen_iff, isOpen_iff (t := t)]
    by_cases hstep : q.step d = p
    · rw [hstep, isShut_origin hφ h hy]
      simp only [hopen, hopen', or_true]
    · have hoff : ∀ i ≤ n + 1, q.step d ≠ p.offset d (i : Nat) := by
        intro i hi he
        cases i with
        | zero => exact hstep (he.trans (Cell.offset_natCast_zero p d))
        | succ i =>
          rw [← Cell.offset_step] at he
          have hqi : q = p.offset d i := Cell.step_inj.mp he
          cases i with
          | zero => exact hqp (hqi.trans (Cell.offset_natCast_zero p d))
          | succ i => exact hq i (by omega) hqi
      have hsame := h.untouched hoff
      rw [isShut_of_untouched hsame, leavers_of_untouched hsame]
      by_cases hin : φ.bounds.contains (q.step d)
      · have hnext := ih _ (hr ▸ Bounds.room_step_lt hin d)
          (fun i hi => hoff (i + 1) (by omega)) rfl
        exact and_congr_right fun _ => or_congr_right hnext
      · have hs : t.isShut φ (q.step d) := isShut_iff.mpr (.inl hin)
        simp [hs]

end Walker

/-- A YOU thing that waits on through a move stands off its line and stays. -/
theorem waits (h : t.IsFree φ d m p n) (hy : φ.isYou t.board k)
    (hk : k ∉ (t.after φ d m p n).moved) :
    Stays t.board (t.after φ d m p n).board k ∧
      ∀ i ≤ n, t.board.cell? k ≠ some (p.offset d (i + 1 : Nat)) := by
  rw [mem_moved_iff, not_or] at hk
  have hl : t.isLeaving φ k := decide_eq_true (.inr (decide_eq_true ⟨hy, hk.1⟩))
  have hoff : ∀ i ≤ n, t.board.cell? k ≠ some (p.offset d (i + 1 : Nat)) := by
    intro i hi hc
    rcases Nat.lt_or_eq_of_le hi with hi | rfl
    · exact hk.2 (mem_steps_of_isLeaving hi hc hl)
    · exact leavers_eq_nil_iff.mp h.leavers_last k hc hl
  exact ⟨h.stays hk.2 hoff, hoff⟩

end IsFree

/-! ### All moves of a turn -/

/-- Of the things that are YOU on board `b`, those that have moved were free on it, and those that
wait are as they were and can move exactly if they were free. -/
structure Honours (φ : Physics) (d : Direction) (b : Board) (t : Turn) : Prop where
  moved : ∀ k, φ.isYou b k → k ∈ t.moved → φ.IsFree d b k
  stays : ∀ k, φ.isYou b k → k ∉ t.moved → Stays b t.board k
  free : ∀ k, φ.isYou b k → k ∉ t.moved → ((t.move? φ d k).isSome ↔ φ.IsFree d b k)

namespace Honours

theorem start : Honours φ d b { board := b } where
  moved k _ hk := by simp at hk
  stays k _ _ := .refl b k
  free k _ _ := by rw [isSome_move?_iff, Physics.isFree_iff]

/-- Whoever of the YOU things takes a step was free before the turn. -/
theorem isFree_of_mem_steps (h : t.Honours φ d b) (hf : t.IsFree φ d m p n) (hy : φ.isYou b k)
    (hk : k ∈ (t.steps φ d m p n).map Prod.fst) : φ.IsFree d b k := by
  obtain ⟨i, hi, hc, -, hkm⟩ := hf.exists_offset_of_mem hk
  by_cases hmoved : k ∈ t.moved
  · exact h.moved k hy hmoved
  · exact (h.free k hy hmoved).mp (isSome_move?_iff.mpr ⟨_, hc, hf.isOpen_offset hi⟩)

theorem advance (hφ : φ.YouOnlyWalks) (h : t.Honours φ d b) (hym : φ.isYou b m) :
    (t.advance φ d m).Honours φ d b := by
  rcases advance_cases φ d t m with he | ⟨hm, -, hmove⟩
  · rwa [he]
  obtain ⟨p, n, hf, he⟩ := move?_eq_some_iff.mp hmove
  rw [he]
  have hyou : ∀ k, φ.isYou b k → k ∉ t.moved → φ.isYou t.board k := fun k hy hk =>
    (Physics.isYou_of_kept (h.stays k hy hk).toKept).trans hy
  have hwait : ∀ k, k ∉ (t.after φ d m p n).moved → k ∉ t.moved := fun k hk hk' =>
    hk (IsFree.mem_moved_iff.mpr (.inl hk'))
  constructor
  · intro k hy hk
    rcases IsFree.mem_moved_iff.mp hk with hk | hk
    · exact h.moved k hy hk
    · exact h.isFree_of_mem_steps hf hy hk
  · intro k hy hk
    exact (h.stays k hy (hwait k hk)).trans (hf.waits (hyou k hy (hwait k hk)) hk).1
  · intro k hy hk
    obtain ⟨hs, hoff⟩ := hf.waits (hyou k hy (hwait k hk)) hk
    rw [← h.free k hy (hwait k hk), isSome_move?_iff, isSome_move?_iff, hs.cell]
    refine exists_congr fun q => and_congr_right fun hq => ?_
    exact IsFree.isOpen_after hφ hf (hyou m hym hm) hm fun i hi he =>
      hoff i (Nat.le_of_lt hi) (hq.trans (congrArg some he))

end Honours

/-- Whoever is live, free on the board before the turn and among the movers has moved in the end. -/
theorem mem_moved_foldl {ms : List EntityId} (hφ : φ.YouOnlyWalks) (h : t.Honours φ d b)
    (hms : ∀ m ∈ ms, φ.isYou b m) (hk : k ∈ ms) (hl : k ∈ b.live) (hf : φ.IsFree d b k) :
    k ∈ (ms.foldl (advance φ d) t).moved := by
  induction ms generalizing t with
  | nil => cases hk
  | cons m ms ih =>
    obtain ⟨hm, hms⟩ := List.forall_mem_cons.mp hms
    rcases List.mem_cons.mp hk with rfl | hk
    · refine (moved_prefix_foldl ms _).subset ?_
      by_cases hmoved : k ∈ t.moved
      · rwa [advance, if_pos (.inl hmoved)]
      · obtain ⟨t', ht⟩ := Option.isSome_iff_exists.mp ((h.free k hm hmoved).mpr hf)
        obtain ⟨ids, hids, hid⟩ := moved_of_move? ht
        have hlive : k ∈ t.board.live := (h.stays k hm hmoved).live.mpr hl
        rw [advance, if_neg (by simp [hmoved, hlive]), ht, Option.getD_some, hids]
        exact List.mem_append_right _ hid
    · exact ih (h.advance hφ hm) hms hk

theorem honours_foldl {ms : List EntityId} (hφ : φ.YouOnlyWalks) (h : t.Honours φ d b)
    (hms : ∀ m ∈ ms, φ.isYou b m) : (ms.foldl (advance φ d) t).Honours φ d b := by
  induction ms generalizing t with
  | nil => exact h
  | cons m ms ih =>
    obtain ⟨hm, hms⟩ := List.forall_mem_cons.mp hms
    exact ih (h.advance hφ hm) hms

theorem isFree_of_mem_moved {ms : List EntityId} (hφ : φ.YouOnlyWalks) (hms : ∀ m ∈ ms, φ.isYou b m)
    (hy : φ.isYou b k) (hk : k ∈ (ms.foldl (advance φ d) { board := b }).moved) :
    φ.IsFree d b k :=
  (honours_foldl hφ .start hms).moved k hy hk

end Turn

/-- Where YOU things only walk, those of them that move in their turn are those that are free on the
board before it. The same holds in whatever order they get their moves, and even an entity that is no
longer live moves along only if it is free. -/
theorem Physics.mem_moved_iff_isFree (φ : Physics) (d : Direction) (b : Board)
    (hφ : φ.YouOnlyWalks) :
    (∀ m ∈ b.live, φ.isYou b m → (m ∈ (φ.youTurn d b).moved ↔ φ.IsFree d b m)) ∧
    (∀ order : List EntityId, (∀ m, m ∈ order ↔ φ.isYou b m) → ∀ m ∈ b.live, φ.isYou b m →
      (m ∈ (order.foldl (Turn.advance φ d) { board := b }).moved ↔ φ.IsFree d b m)) ∧
    ∀ m, φ.isYou b m → m ∈ (φ.youTurn d b).moved → φ.IsFree d b m := by
  have hall : ∀ order : List EntityId, (∀ m, m ∈ order ↔ φ.isYou b m) → ∀ m, φ.isYou b m →
      (m ∈ (order.foldl (Turn.advance φ d) { board := b }).moved → φ.IsFree d b m) ∧
      (m ∈ b.live → φ.IsFree d b m →
        m ∈ (order.foldl (Turn.advance φ d) { board := b }).moved) := by
    intro order horder m hy
    have hms : ∀ m ∈ order, φ.isYou b m := fun m hm => (horder m).mp hm
    exact ⟨Turn.isFree_of_mem_moved hφ hms hy,
      Turn.mem_moved_foldl hφ .start hms ((horder m).mpr hy)⟩
  have hyou : ∀ m, m ∈ (ExtTreeSet.ofList (φ.properties.entitiesWith b .you)).toList ↔
      φ.isYou b m := fun m => by
    simp [PropertyTable.mem_entitiesWith, isYou]
  refine ⟨fun m hl hy => ?_, fun order horder m hl hy => ?_, fun m hy => (hall _ hyou m hy).1⟩
  · obtain ⟨hfree, hmoves⟩ := hall _ hyou m hy
    exact ⟨hfree, hmoves hl⟩
  · obtain ⟨hfree, hmoves⟩ := hall order horder m hy
    exact ⟨hfree, hmoves hl⟩

/-- Two YOU things in a row, the one with the higher number behind, and a rock ahead of both: to the
right both move, to the left, where the edge is, neither does. -/
theorem Physics.mem_moved_iff_isFree_in_row :
    let φ : Physics :=
      { properties := ((∅ : PropertyTable).give "BigBlue" {.you}).give "Rock" {.push}
        blockers := ["Hedge"], bounds := ⟨4, 1⟩ }
    let b := (((∅ : Board).addThing "BigBlue" ⟨1, 0⟩).addThing "BigBlue" ⟨0, 0⟩).addThing
      "Rock" ⟨2, 0⟩
    φ.YouOnlyWalks ∧ (0 ∈ b.live ∧ φ.isYou b 0) ∧ (1 ∈ b.live ∧ φ.isYou b 1) ∧
      (φ.IsFree .right b 0 ∧ φ.IsFree .right b 1) ∧
      ¬ φ.IsFree .left b 0 ∧ ¬ φ.IsFree .left b 1 := by
  intro φ b
  have hφ : φ.YouOnlyWalks := by
    intro name hyou
    by_cases hr : "Rock" = name
    · subst hr
      exact absurd hyou (by decide +kernel)
    · by_cases hb : "BigBlue" = name
      · subst hb
        decide +kernel
      · simp [φ, PropertyTable.of_give, hr, hb] at hyou
  have h0 : 0 ∈ b.live ∧ φ.isYou b 0 := by decide +kernel
  have h1 : 1 ∈ b.live ∧ φ.isYou b 1 := by decide +kernel
  obtain ⟨hright, -, -⟩ := mem_moved_iff_isFree φ .right b hφ
  obtain ⟨hleft, -, -⟩ := mem_moved_iff_isFree φ .left b hφ
  refine ⟨hφ, h0, h1, ⟨(hright 0 h0.1 h0.2).mp ?_, (hright 1 h1.1 h1.2).mp ?_⟩,
    fun hf => absurd ((hleft 0 h0.1 h0.2).mpr hf) ?_,
    fun hf => absurd ((hleft 1 h1.1 h1.2).mpr hf) ?_⟩
  all_goals decide +kernel

end WordTiles
