import WordTiles.Proofs.Board.Things
import WordTiles.Proofs.Movement.Steps

/-! How often a YOU thing moves in a turn. A YOU thing that walks has not moved before, but one that
is pushed may have. So the law that YOU things move at most once fails exactly in the turns in which
some mover pushes a YOU thing on that has already moved; and it holds on every board exactly if the
rules make no name both YOU and PUSH, names that always block apart. -/

namespace WordTiles

open Board Std

variable {φ : Physics} {d : Direction} {b b' : Board} {t : Turn} {m k : EntityId} {f : Cell → Cell}
  {p : Cell} {n : Nat}

/-- The turn in which all YOU things of the board set out. -/
def Physics.youTurn (φ : Physics) (d : Direction) (b : Board) : Turn :=
  Turn.resolve φ d (φ.properties.entitiesWith b .you) { board := b }

/-- Every YOU thing of the board moves at most once in the turn of the YOU things, and those that are
left at its end stand where they stood or one step further. -/
structure Physics.MovesOnce (φ : Physics) (d : Direction) (b : Board) : Prop where
  once : ∀ id, φ.isYou b id → (φ.youTurn d b).moved.count id ≤ 1
  oneStep : ∀ id, φ.isYou b id → id ∈ (φ.youTurn d b).board.live →
    (φ.youTurn d b).board.cell? id = b.cell? id ∨
      (φ.youTurn d b).board.cell? id = (b.cell? id).map (·.step d)

/-- Mover `m` is free, and on its push line stands a YOU thing that can be pushed and has already
moved in the turn. -/
def Turn.PushesAgain (φ : Physics) (d : Direction) (t : Turn) (m : EntityId) : Prop :=
  ¬ m ∈ t.moved ∧ m ∈ t.board.live ∧ ∃ p n, t.IsFree φ d m p n ∧ ∃ i < n, ∃ k,
    t.board.cell? k = some ((p.step d).offset d i) ∧ k ∈ t.moved ∧ φ.isYou t.board k ∧
      φ.isPushable t.board k

/-- Some mover of the list pushes a YOU thing again when its move comes. -/
def Turn.SomePushesAgain (φ : Physics) (d : Direction) : List EntityId → Turn → Prop
  | [], _ => False
  | m :: ms, t => t.PushesAgain φ d m ∨ SomePushesAgain φ d ms (t.advance φ d m)

/-- In the turn of the YOU things of the board, one of them is pushed after it has moved. -/
def Physics.PushesAgain (φ : Physics) (d : Direction) (b : Board) : Prop :=
  Turn.SomePushesAgain φ d (ExtTreeSet.ofList (φ.properties.entitiesWith b .you)).toList
    { board := b }

/-! ### What is kept in the course of a turn -/

theorem Physics.isYou_of_carries (h : Carries f b b' k) (hy : φ.isYou b' k) : φ.isYou b k := by
  rcases h with h | ⟨h, -⟩
  · obtain ⟨-, name, hn, -⟩ := PropertyTable.mem_ofEntity.mp (of_decide_eq_true hy)
    rw [h.name] at hn; cases hn
  · rwa [isYou_of_kept h] at hy

namespace Turn

theorem exists_carries_advance (φ : Physics) (d : Direction) (t : Turn) (m k : EntityId) :
    ∃ f, Carries f t.board (t.advance φ d m).board k := by
  rcases advance_cases φ d t m with h | ⟨-, -, h⟩
  · rw [h]
    exact ⟨_, .refl t.board k⟩
  · obtain ⟨p, n, hfree, he⟩ := move?_eq_some_iff.mp h
    rw [he]
    exact ⟨_, hfree.carries k⟩

/-- A YOU thing has moved at most once since the board was `b`, and has then taken one step. -/
def IsSettled (d : Direction) (b : Board) (t : Turn) (k : EntityId) : Prop :=
  t.moved.count k ≤ 1 ∧ Carries (fun c => if k ∈ t.moved then c.step d else c) b t.board k

/-- What has not moved before it takes a step in a move is settled after it. -/
theorem IsFree.isSettled (hfree : t.IsFree φ d m p n)
    (hnew : k ∈ (t.steps φ d m p n).map Prod.fst → k ∉ t.moved) (h : t.IsSettled d b k) :
    (t.arriveAll φ (t.steps φ d m p n)).IsSettled d b k := by
  have hcarries := h.2.trans (hfree.carries k)
  have hcount := List.nodup_iff_count.mp hfree.steps_nodup k
  rw [IsSettled, moved_arriveAll, List.count_append]
  by_cases hs : k ∈ (t.steps φ d m p n).map Prod.fst
  · rw [List.count_eq_zero.mpr (hnew hs)]
    refine ⟨by omega, ?_⟩
    simpa only [List.mem_append, hs, hnew hs, or_true, if_true, if_false] using hcarries
  · rw [List.count_eq_zero.mpr hs]
    refine ⟨h.1, ?_⟩
    simpa only [List.mem_append, hs, or_false, if_false] using hcarries

theorem isSettled_advance (hk : φ.isYou b k) (hm : ¬ t.PushesAgain φ d m)
    (h : t.IsSettled d b k) : (t.advance φ d m).IsSettled d b k := by
  rcases advance_cases φ d t m with he | ⟨hmoved, hlive, hmove⟩
  · rwa [he]
  obtain ⟨p, n, hfree, he⟩ := move?_eq_some_iff.mp hmove
  rw [he]
  refine hfree.isSettled (fun hs hkm => ?_) h
  obtain ⟨⟨k, e⟩, ha, rfl⟩ := List.mem_map.mp hs
  rcases List.mem_append.mp ha with ha | ha
  · obtain ⟨i, hi, hc, hl, -⟩ := mem_shift.mp ha
    have hy := (Physics.isYou_of_kept (h.2.kept hc)).trans hk
    rcases of_decide_eq_true hl with hp | hw
    · exact hm ⟨hmoved, hlive, p, n, hfree, i, hi, _, hc, hkm, hy, hp⟩
    · exact (of_decide_eq_true hw).2 hkm
  · obtain ⟨rfl, -⟩ := Prod.mk.inj (List.mem_singleton.mp ha)
    exact hmoved hkm

theorem isSettled_foldl {ms : List EntityId} (hk : φ.isYou b k) (hms : ¬ t.SomePushesAgain φ d ms)
    (h : t.IsSettled d b k) : (ms.foldl (advance φ d) t).IsSettled d b k := by
  induction ms generalizing t with
  | nil => exact h
  | cons m ms ih =>
    rw [SomePushesAgain, not_or] at hms
    exact ih hms.2 (isSettled_advance hk hms.1 h)

/-- A YOU thing that is pushed again has moved twice when the turn is over. -/
theorem exists_two_le_count {ms : List EntityId} (h : t.SomePushesAgain φ d ms) :
    ∃ k, φ.isYou t.board k ∧ 2 ≤ (ms.foldl (advance φ d) t).moved.count k := by
  induction ms generalizing t with
  | nil => exact h.elim
  | cons m ms ih =>
    rcases h with ⟨hmoved, hlive, p, n, hfree, i, hi, k, hc, hkm, hy, hp⟩ | h
    · have hadv : t.advance φ d m = t.arriveAll φ (t.steps φ d m p n) := by
        rw [advance, if_neg (by simp [hmoved, hlive]),
          move?_eq_some_iff.mpr ⟨p, n, hfree, rfl⟩]
        rfl
      have hs : (k, ((p.step d).offset d i).step d) ∈ t.steps φ d m p n :=
        List.mem_append_left _ (mem_shift.mpr ⟨i, hi, hc, decide_eq_true (.inl hp), rfl⟩)
      have hk : 0 < ((t.steps φ d m p n).map Prod.fst).count k :=
        List.count_pos_iff.mpr (List.mem_map.mpr ⟨_, hs, rfl⟩)
      have hkm' := List.count_pos_iff.mpr hkm
      have hle := (moved_prefix_foldl (φ := φ) (d := d) ms (t.advance φ d m)).sublist.count_le k
      rw [hadv, moved_arriveAll, List.count_append] at hle
      refine ⟨k, hy, ?_⟩
      rw [List.foldl_cons, hadv]
      omega
    · obtain ⟨k, hy, hk⟩ := ih h
      obtain ⟨f, hf⟩ := exists_carries_advance φ d t m k
      exact ⟨k, Physics.isYou_of_carries hf hy, hk⟩

end Turn

/-- The law holds on a board exactly if no YOU thing is pushed after it has moved. -/
theorem Physics.movesOnce_iff : φ.MovesOnce d b ↔ ¬ φ.PushesAgain d b := by
  constructor
  · intro h hp
    obtain ⟨k, hy, hk⟩ := Turn.exists_two_le_count hp
    have : (φ.youTurn d b).moved.count k ≤ 1 := h.once k hy
    rw [youTurn, Turn.resolve] at this
    omega
  · intro h
    have hset : ∀ k, φ.isYou b k → (φ.youTurn d b).IsSettled d b k := fun k hy =>
      Turn.isSettled_foldl hy h ⟨by simp, .refl b k⟩
    constructor
    · intro k hy
      exact (hset k hy).1
    · intro k hy hl
      rcases (hset k hy).2 with hg | ⟨-, hc⟩
      · exact absurd hl hg.dead
      · by_cases hm : k ∈ (φ.youTurn d b).moved
        · right
          simpa only [hm, if_true] using hc
        · left
          simpa only [hm, if_false, Option.map_id_fun', id_eq] using hc

/-! ### Which rules keep the law -/

/-- There are two cells of the board one after the other in the direction. -/
def Bounds.HasStep (β : Bounds) (d : Direction) : Prop :=
  ∃ c, β.contains c ∧ β.contains (c.step d)

/-- Whatever is YOU on the board and can be pushed blocks all the same. -/
def Physics.NoneLoose (φ : Physics) (b : Board) : Prop :=
  ∀ k, φ.isYou b k → φ.isPushable b k → φ.blocks b k

theorem Physics.NoneLoose.of_carries (h : φ.NoneLoose b) (hc : ∀ k, ∃ f, Carries f b b' k) :
    φ.NoneLoose b' := by
  intro k hy hp
  obtain ⟨f, hf⟩ := hc k
  have hyb := isYou_of_carries hf hy
  rcases hf with hg | ⟨hk, -⟩
  · obtain ⟨-, name, hn, -⟩ := PropertyTable.mem_ofEntity.mp (of_decide_eq_true hy)
    rw [hg.name] at hn; cases hn
  · rw [blocks_of_kept hk]
    exact h k hyb (isPushable_of_kept hk ▸ hp)

theorem Turn.not_somePushesAgain {ms : List EntityId}
    (h : φ.bounds.HasStep d → φ.NoneLoose t.board) : ¬ t.SomePushesAgain φ d ms := by
  induction ms generalizing t with
  | nil => exact fun hf => hf
  | cons m ms ih =>
    rintro (⟨-, -, p, n, hfree, i, hi, k, hc, -, hy, hp⟩ | hms)
    · have hi0 := hfree.ends.not_isShut hfree.notShut (Nat.le_of_lt hi)
      have hi1 := hfree.ends.not_isShut hfree.notShut hi
      rw [← Cell.offset_step] at hi1
      have hstep : φ.bounds.HasStep d :=
        ⟨_, contains_of_not_isShut hi0, contains_of_not_isShut hi1⟩
      exact not_blocks_of_not_isShut hi0 hc (h hstep k hy hp)
    · refine ih (fun hstep => (h hstep).of_carries fun k => ?_) hms
      exact exists_carries_advance φ d t m k

/-- Things of this name walk, can be pushed, and do not block. -/
def Physics.IsLoose (φ : Physics) (name : String) : Prop :=
  .you ∈ φ.properties.of name ∧ .push ∈ φ.properties.of name ∧ ¬ name ∈ φ.blockers

theorem Physics.noneLoose (h : ∀ name, ¬ φ.IsLoose name) (b : Board) : φ.NoneLoose b := by
  intro k hy hp
  obtain ⟨hw, name, hn, hyou⟩ := PropertyTable.mem_ofEntity.mp (of_decide_eq_true hy)
  have hpush := (of_decide_eq_true hp).resolve_left hw
  obtain ⟨-, name', hn', hpush⟩ := PropertyTable.mem_ofEntity.mp hpush
  obtain rfl := Option.some.inj (hn.symm.trans hn')
  have hblock : name ∈ φ.blockers := Decidable.byContradiction fun hb => h name ⟨hyou, hpush, hb⟩
  refine decide_eq_true ⟨hw, .inl ?_⟩
  rw [isBlocker, hn]
  simpa using hblock

/-! ### Two things of one name in one cell -/

section Pair

variable {name : String} {c e : Cell}

theorem Physics.ofEntity_pair (hk : k = 0 ∨ k = 1) :
    φ.properties.ofEntity (pair name c) k = φ.properties.of name := by
  rcases hk with rfl | rfl <;> rfl

theorem Physics.youEntities_pair (hyou : .you ∈ φ.properties.of name) :
    (ExtTreeSet.ofList (φ.properties.entitiesWith (pair name c) .you)).toList = [0, 1] := by
  have h0 : φ.properties.ofEntity (pair name c) 0 = φ.properties.of name := ofEntity_pair (.inl rfl)
  have h1 : φ.properties.ofEntity (pair name c) 1 = φ.properties.of name := ofEntity_pair (.inr rfl)
  have hnames : (pair name c).names.keys = [0, 1] := rfl
  rw [PropertyTable.entitiesWith, hnames]
  simp only [List.filter_cons, h0, h1, hyou, decide_true, if_true, List.filter_nil]
  rfl

/-- The two things when the first has stepped ahead. -/
def Turn.oneAhead (name : String) (c : Cell) (d : Direction) : Turn where
  board := (pair name c).relocate 0 (c.step d)
  moved := [0]

namespace Turn

theorem cell?_oneAhead : (oneAhead name c d).board.cell? k = some e ↔
    k = 0 ∧ e = c.step d ∨ k = 1 ∧ e = c := by
  simp only [oneAhead, cell?_relocate]
  split
  · rename_i hk
    subst hk
    have h0 : (pair name c).cell? 0 = some c := cell?_pair.mpr ⟨.inl rfl, rfl⟩
    simp [h0, eq_comm]
  · rename_i hk
    rw [cell?_pair]
    simp [hk]

theorem ofEntity_oneAhead :
    φ.properties.ofEntity (oneAhead name c d).board 0 = φ.properties.of name :=
  (PropertyTable.ofEntity_of_kept (kept_relocate _ 0 0 _)).trans (Physics.ofEntity_pair (.inl rfl))

theorem not_blocks_oneAhead (hl : φ.IsLoose name) : ¬ φ.blocks (oneAhead name c d).board 0 := by
  intro h
  rcases (of_decide_eq_true h).2 with hb | ⟨-, hnp⟩
  · exact hl.2.2 (List.contains_iff_mem.mp hb)
  · exact hnp (ofEntity_oneAhead ▸ hl.2.1)

/-- The first steps ahead and leaves the second behind. -/
theorem advance_pair (hin : φ.bounds.contains (c.step d)) :
    advance φ d { board := pair name c } 0 = oneAhead name c d := by
  have hvacant : ∀ k, (pair name c).cell? k ≠ some (c.step d) := fun k hk =>
    Cell.step_ne c d (cell?_pair.mp hk).2
  obtain ⟨hend, hshut⟩ := isEnd_of_vacant (φ := φ) (t := { board := pair name c }) hvacant
  have hfree : IsFree φ d { board := pair name c } 0 c 0 := by
    refine ⟨cell?_pair.mpr ⟨.inl rfl, rfl⟩, .of_isEnd hend, ?_⟩
    rw [Cell.offset_natCast_zero, hshut]
    exact fun h => h hin
  have hmove := move?_eq_some_iff.mpr ⟨c, 0, hfree, rfl⟩
  have hlive : 0 ∈ (pair name c).live := mem_live_pair (.inl rfl)
  rw [advance, if_neg (by simp [hlive]), hmove]
  exact arrive_of_vacant hvacant

/-- The line of the second holds the cell of the first and ends after it, in a vacant cell. -/
theorem isFree_oneAhead (hl : φ.IsLoose name) (hin : φ.bounds.contains (c.step d))
    (hin' : φ.bounds.contains ((c.step d).step d)) :
    (oneAhead name c d).IsFree φ d 1 c 1 := by
  have hvacant : ∀ k, (oneAhead name c d).board.cell? k ≠ some ((c.step d).step d) := by
    intro k hk
    rcases cell?_oneAhead.mp hk with ⟨-, h⟩ | ⟨-, h⟩
    · exact Cell.step_ne _ d h
    · exact (Cell.ahead_offset d (c.step d) 1).ne_of_step h
  obtain ⟨hend, hshut⟩ := isEnd_of_vacant (φ := φ) hvacant
  have hopen : ¬ (oneAhead name c d).isShut φ (c.step d) := by
    intro h
    rcases of_decide_eq_true h with h | h
    · exact h hin
    · obtain ⟨k, hk, hb⟩ := List.any_eq_true.mp h
      rcases cell?_oneAhead.mp (mem_occupants.mp hk) with ⟨rfl, -⟩ | ⟨-, h⟩
      · exact not_blocks_oneAhead hl hb
      · exact Cell.step_ne c d h
  have hleaver : 0 ∈ (oneAhead name c d).leavers φ (c.step d) := mem_leavers.mpr
    ⟨cell?_oneAhead.mpr (.inl ⟨rfl, rfl⟩),
      decide_eq_true (.inl (decide_eq_true (.inr (ofEntity_oneAhead ▸ hl.2.1))))⟩
  refine ⟨cell?_oneAhead.mpr (.inr ⟨rfl, rfl⟩), (EndsAfter.of_isEnd hend).cons ?_, ?_⟩
  · rw [isEnd_iff, not_or]
    exact ⟨hopen, List.ne_nil_of_mem hleaver⟩
  · show ¬ (oneAhead name c d).isShut φ ((c.step d).step d)
    rw [hshut]
    exact fun h => h hin'

end Turn

/-- Of two loose things in one cell the first steps ahead, and the second pushes it on. -/
theorem Physics.pushesAgain_pair (hl : φ.IsLoose name) (hin : φ.bounds.contains (c.step d))
    (hin' : φ.bounds.contains ((c.step d).step d)) : φ.PushesAgain d (pair name c) := by
  rw [PushesAgain, youEntities_pair hl.1, Turn.SomePushesAgain, Turn.advance_pair hin]
  refine .inr (.inl ⟨by simp [Turn.oneAhead], mem_live_pair (.inr rfl), c, 1,
    Turn.isFree_oneAhead hl hin hin', 0, Nat.one_pos, 0, ?_, by simp [Turn.oneAhead], ?_, ?_⟩)
  · rw [Cell.offset_natCast_zero]
    exact Turn.cell?_oneAhead.mpr (.inl ⟨rfl, rfl⟩)
  · exact decide_eq_true (Turn.ofEntity_oneAhead ▸ hl.1)
  · exact decide_eq_true (.inr (Turn.ofEntity_oneAhead ▸ hl.2.1))

end Pair

/-- Where there is room for a push, loose things make a board on which one is pushed again. -/
theorem Physics.exists_pushesAgain {name : String} (hstep : φ.bounds.HasStep d)
    (hl : φ.IsLoose name) : ∃ b, φ.PushesAgain d b := by
  obtain ⟨c, hc, hc'⟩ := hstep
  have hback : (c.step d.reverse).step d = c := by
    simpa using Cell.step_reverse c d.reverse
  exact ⟨_, pushesAgain_pair (c := c.step d.reverse) hl (hback.symm ▸ hc) (hback.symm ▸ hc')⟩

/-- When YOU things move at most once: on a board, exactly if none of them is pushed after it has
moved; on all boards, exactly if no name is both YOU and PUSH without being one that always blocks, or
the board is too small for a push in the direction. -/
theorem Physics.movesOnce_exactly (φ : Physics) (d : Direction) :
    (∀ b, φ.MovesOnce d b ↔ ¬ φ.PushesAgain d b) ∧
      ((∀ b, φ.MovesOnce d b) ↔ ¬ (φ.bounds.HasStep d ∧ ∃ name, φ.IsLoose name)) := by
  refine ⟨fun b => movesOnce_iff, ?_, ?_⟩
  · rintro h ⟨⟨c, hc, hc'⟩, name, hl⟩
    have hback : (c.step d.reverse).step d = c := by
      simpa using Cell.step_reverse c d.reverse
    exact movesOnce_iff.mp (h (pair name (c.step d.reverse)))
      (pushesAgain_pair hl (hback.symm ▸ hc) (hback.symm ▸ hc'))
  · intro h b
    refine movesOnce_iff.mpr (Turn.not_somePushesAgain fun hstep => noneLoose (fun name hl => ?_) b)
    exact h ⟨hstep, name, hl⟩

/-- Two things in one cell whose name is YOU and PUSH: the first moves, the second pushes it on. -/
theorem Physics.not_movesOnce_pair :
    let φ : Physics :=
      { properties := (∅ : PropertyTable).give "Rock" (.ofList [.you, .push])
        blockers := ["Hedge"], bounds := ⟨4, 1⟩ }
    let t := φ.youTurn .right (pair "Rock" ⟨0, 0⟩)
    t.moved = [0, 0, 1] ∧ t.board.cell? 0 = some ⟨2, 0⟩ ∧
      ¬ φ.MovesOnce .right (pair "Rock" ⟨0, 0⟩) := by
  refine ⟨by decide +kernel, by decide +kernel, fun h => ?_⟩
  exact absurd (h.once 0 (by decide +kernel)) (by decide +kernel)

end WordTiles
