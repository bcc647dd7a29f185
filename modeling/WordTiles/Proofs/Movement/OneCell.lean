import WordTiles.Proofs.Movement.Order

/-! How far things move in a turn. A push line ends right ahead of where a mover stood, once it has moved,
unless the mover itself can be pushed on. So whatever has moved stands beyond the end of every line that
could still reach it, and is not moved again: one cell is as far as anything gets. -/

namespace WordTiles

open Board Std

variable {φ : Physics} {d : Direction} {b : Board} {t : Turn} {m k : EntityId} {p q s c : Cell}
  {n i : Nat}

/-- In the turn of the YOU things of the board everything moves at most once. What has moved is gone or
stands one step further, and the rest is gone or stands where it stood. -/
structure Physics.OneCellEach (φ : Physics) (d : Direction) (b : Board) : Prop where
  once : (φ.youTurn d b).moved.Nodup
  moved : ∀ k ∈ (φ.youTurn d b).moved, Gone b (φ.youTurn d b).board k ∨
    ∃ c, b.cell? k = some c ∧ (φ.youTurn d b).board.cell? k = some (c.step d)
  rest : ∀ k, k ∉ (φ.youTurn d b).moved → Gone b (φ.youTurn d b).board k ∨
    Stays b (φ.youTurn d b).board k

namespace Turn

/-! ### Cells out of reach -/

/-- Nothing in the cell walks by itself. -/
def IsQuiet (φ : Physics) (t : Turn) (c : Cell) : Prop :=
  ∀ k, t.board.cell? k = some c → ¬ t.isWalker φ k

/-- No push line that is still to come leads through the cell: a line ends in some cell `s` from which
steps lead here, and from there on nothing walks by itself. -/
def IsGuarded (φ : Physics) (d : Direction) (t : Turn) (q : Cell) : Prop :=
  ∃ (s : Cell) (l : Nat), q = s.offset d l ∧ t.isEnd φ s ∧ ∀ j ≤ l, t.IsQuiet φ (s.offset d j)

namespace IsFree

/-- The line of a thing that walks leads through no guarded cell. -/
theorem not_isGuarded (h : t.IsFree φ d m p n) (hm : t.isWalker φ m) (hi : i < n) :
    ¬ t.IsGuarded φ d (p.offset d (i + 1 : Nat)) := by
  rintro ⟨s, l, hq, hend, hquiet⟩
  rcases Nat.lt_or_ge i l with hil | hil
  · -- the thing itself stands between the end and the cell
    obtain ⟨r, rfl⟩ := Nat.exists_eq_add_of_le' (Nat.succ_le_of_lt hil)
    have hp : p = s.offset d r := by
      rwa [Int.natCast_add r, ← Cell.offset_offset, Cell.offset_cancel] at hq
    exact hquiet r (Nat.le_add_right r _) m (hp ▸ h.cell) hm
  · -- the end lies on the line, short of the cell
    obtain ⟨r, rfl⟩ := Nat.exists_eq_add_of_le' hil
    have hs : p.offset d (r + 1 : Nat) = s := by
      rwa [Nat.add_right_comm, Int.natCast_add (r + 1), ← Cell.offset_offset, Cell.offset_cancel] at hq
    refine h.ends.before r (by omega) ?_
    rwa [Cell.step_offset, hs]

/-! ### One move -/

/-- What still walks after a move walked before it, and does not stand in a cell that was entered. -/
theorem isWalker_before (h : t.IsFree φ d m p n)
    (hc : (t.after φ d m p n).board.cell? k = some c) (hw : (t.after φ d m p n).isWalker φ k) :
    t.board.cell? k = some c ∧ t.isWalker φ k ∧ ∀ i ≤ n, c ≠ p.offset d (i + 1 : Nat) := by
  obtain ⟨hy, hm⟩ := of_decide_eq_true hw
  rw [Physics.isYou_of_kept (h.kept hc)] at hy
  obtain ⟨hs, hoff⟩ := h.waits hy hm
  rw [hs.cell] at hc
  refine ⟨hc, decide_eq_true ⟨hy, fun hk => hm (mem_moved_iff.mpr (.inl hk))⟩, fun i hi he => ?_⟩
  exact hoff i hi (hc.trans (congrArg some he))

theorem isQuiet_after (h : t.IsFree φ d m p n) (hc : t.IsQuiet φ c) :
    (t.after φ d m p n).IsQuiet φ c := by
  intro k hk hw
  obtain ⟨hk, hw, -⟩ := h.isWalker_before hk hw
  exact hc k hk hw

theorem isQuiet_entered (h : t.IsFree φ d m p n) (hi : i ≤ n) :
    (t.after φ d m p n).IsQuiet φ (p.offset d (i + 1 : Nat)) := by
  intro k hk hw
  obtain ⟨-, -, hoff⟩ := h.isWalker_before hk hw
  exact hoff i hi rfl

/-- A line ends right ahead of where the mover stood, also where the mover could be pushed on but
blocks. -/
theorem isEnd_next (h : t.IsFree φ d m p n) (hm : φ.isPushable t.board m → φ.blocks t.board m) :
    (t.after φ d m p n).isEnd φ (p.step d) := by
  rw [isEnd_iff]
  by_cases hl : (t.after φ d m p n).leavers φ (p.step d) = []
  · exact .inr hl
  · obtain ⟨k, hk⟩ := List.exists_mem_of_ne_nil _ hl
    obtain ⟨rfl, hp⟩ := h.leaver_next hk
    have hcell := (mem_leavers.mp hk).1
    exact .inl (isShut_iff.mpr (.inr ⟨k, hcell,
      (Physics.blocks_of_kept (h.kept hcell)).trans (hm hp)⟩))

/-- A quiet cell that is not entered remains an end. -/
theorem isEnd_after (h : t.IsFree φ d m p n) (hm : t.isWalker φ m) (hquiet : t.IsQuiet φ s)
    (hs : ∀ i ≤ n, s ≠ p.offset d (i + 1 : Nat)) (hend : t.isEnd φ s) :
    (t.after φ d m p n).isEnd φ s := by
  rw [isEnd_iff, isShut_iff, leavers_eq_nil_iff] at hend ⊢
  rcases hend with (hout | ⟨k, hk, hb⟩) | hnone
  · exact .inl (.inl hout)
  · have hns : k ∉ (t.steps φ d m p n).map Prod.fst := fun hmem => by
      obtain ⟨i, hi, hc, hkm, -⟩ := h.exists_offset_of_mem hmem
      cases i with
      | zero => exact hquiet k hk (hkm rfl ▸ hm)
      | succ i => exact hs i (Nat.le_of_succ_le hi) (Option.some.inj (hk.symm.trans hc))
    have hstays := h.stays hns fun i hi hc => hs i hi (Option.some.inj (hk.symm.trans hc))
    exact .inl (.inr ⟨k, hstays.cell.trans hk, (Physics.blocks_of_kept hstays.toKept).trans hb⟩)
  · refine .inr fun k hk hl => ?_
    rcases h.cell?_before hk with ⟨-, i, hi, -, -, he⟩ | ⟨-, hc⟩
    · exact hs i hi he
    · exact hnone k hc (isLeaving_before (h.kept hk) hl)

/-- The cells that were entered are guarded from the one right ahead of where the mover stood. -/
theorem isGuarded_entered (h : t.IsFree φ d m p n)
    (hnext : (t.after φ d m p n).isEnd φ (p.step d)) (hi : i ≤ n) :
    (t.after φ d m p n).IsGuarded φ d (p.offset d (i + 1 : Nat)) := by
  refine ⟨p.step d, i, (Cell.step_offset p d i).symm, hnext, fun j hj => ?_⟩
  rw [Cell.step_offset]
  exact h.isQuiet_entered (Nat.le_trans hj hi)

/-- A move leaves guarded cells guarded. Where things arrive in the cell that guards them, the line
of the move ended there, and they are guarded from further back. -/
theorem isGuarded_after (h : t.IsFree φ d m p n) (hm : t.isWalker φ m)
    (hnext : (t.after φ d m p n).isEnd φ (p.step d)) (hq : t.IsGuarded φ d q) :
    (t.after φ d m p n).IsGuarded φ d q := by
  obtain ⟨s, l, rfl, hend, hquiet⟩ := hq
  have hquiet' : ∀ j ≤ l, (t.after φ d m p n).IsQuiet φ (s.offset d j) := fun j hj =>
    h.isQuiet_after (hquiet j hj)
  by_cases hs : ∃ a ≤ n, s = p.offset d (a + 1 : Nat)
  · obtain ⟨a, ha, rfl⟩ := hs
    obtain rfl : a = n := by
      refine Nat.le_antisymm ha (Nat.le_of_not_lt fun hlt => h.ends.before a hlt ?_)
      rwa [Cell.step_offset]
    refine ⟨p.step d, a + l, ?_, hnext, fun j hj => ?_⟩
    · rw [← Cell.step_offset, Cell.offset_offset, Int.natCast_add]
    · rcases Nat.le_total j a with hja | hja
      · rw [Cell.step_offset]
        exact h.isQuiet_entered hja
      · obtain ⟨r, rfl⟩ := Nat.exists_eq_add_of_le hja
        rw [Int.natCast_add, ← Cell.offset_offset, Cell.step_offset]
        exact hquiet' r (Nat.le_of_add_le_add_left hj)
  · rw [not_exists] at hs
    have hoff : ∀ i ≤ n, s ≠ p.offset d (i + 1 : Nat) := fun i hi he => hs i ⟨hi, he⟩
    have hquiet0 : t.IsQuiet φ s := by
      have := hquiet 0 (Nat.zero_le l)
      rwa [Cell.offset_natCast_zero] at this
    exact ⟨s, l, rfl, h.isEnd_after hm hquiet0 hoff hend, hquiet'⟩

end IsFree

/-! ### All moves of a turn -/

/-- Since the board was `b` everything has taken at most one step, and what has taken one stands out of
reach of the moves to come, if there is room for a push at all. -/
structure IsTidy (φ : Physics) (d : Direction) (b : Board) (t : Turn) : Prop where
  settled : ∀ k, t.IsSettled d b k
  stood : ∀ k ∈ t.moved, ∃ c, b.cell? k = some c
  guarded : φ.bounds.HasStep d → ∀ k ∈ t.moved, ∀ q, t.board.cell? k = some q → t.IsGuarded φ d q

namespace IsTidy

theorem start (φ : Physics) (d : Direction) (b : Board) : IsTidy φ d b { board := b } where
  settled k := ⟨by simp, .refl b k⟩
  stood k hk := by cases hk
  guarded _ k hk := by cases hk

/-- What takes a step has not moved before: it is the mover, or it stands on the push line. -/
theorem not_mem_moved_of_mem_steps (h : t.IsTidy φ d b) (hf : t.IsFree φ d m p n)
    (hm : t.isWalker φ m) (hk : k ∈ (t.steps φ d m p n).map Prod.fst) : k ∉ t.moved := by
  obtain ⟨i, hi, hc, hkm, -⟩ := hf.exists_offset_of_mem hk
  cases i with
  | zero =>
    obtain rfl := hkm rfl
    exact (of_decide_eq_true hm).2
  | succ i =>
    intro hmoved
    have hhere := contains_of_not_isShut (hf.not_isShut_offset (Nat.le_of_lt hi))
    have hahead := contains_of_not_isShut (hf.not_isShut_offset hi)
    rw [← Cell.offset_step] at hahead
    exact hf.not_isGuarded hm hi (h.guarded ⟨_, hhere, hahead⟩ k hmoved _ hc)

/-- What stands somewhere now stood somewhere on the board before the turn. -/
theorem exists_cell? (h : t.IsTidy φ d b) (hc : t.board.cell? k = some c) :
    ∃ e, b.cell? k = some e := by
  rcases (h.settled k).2 with hg | ⟨-, hcell⟩
  · rw [hg.cell] at hc; cases hc
  · obtain ⟨e, he, -⟩ := Option.map_eq_some_iff.mp (hcell.symm.trans hc)
    exact ⟨e, he⟩

theorem after (h : t.IsTidy φ d b) (hf : t.IsFree φ d m p n) (hm : t.isWalker φ m)
    (hnext : φ.bounds.HasStep d → (t.after φ d m p n).isEnd φ (p.step d)) :
    (t.after φ d m p n).IsTidy φ d b where
  settled k := hf.isSettled (h.not_mem_moved_of_mem_steps hf hm) (h.settled k)
  stood k hk := by
    rcases IsFree.mem_moved_iff.mp hk with hk | hk
    · exact h.stood k hk
    · obtain ⟨i, -, hc, -⟩ := hf.exists_offset_of_mem hk
      exact h.exists_cell? hc
  guarded hstep k hk q hq := by
    rcases hf.cell?_before hq with ⟨-, i, hi, -, -, rfl⟩ | ⟨hns, hc⟩
    · exact hf.isGuarded_entered (hnext hstep) hi
    · have hmoved := (IsFree.mem_moved_iff.mp hk).resolve_right hns
      exact hf.isGuarded_after hm (hnext hstep) (h.guarded hstep k hmoved q hc)

theorem advance (hb : φ.bounds.HasStep d → φ.NoneLoose b) (h : t.IsTidy φ d b)
    (hm : φ.isYou b m) : (t.advance φ d m).IsTidy φ d b := by
  rcases advance_cases φ d t m with he | ⟨hmoved, hlive, hmove⟩
  · rwa [he]
  obtain ⟨p, n, hf, he⟩ := move?_eq_some_iff.mp hmove
  rw [he]
  have hkept : Kept b t.board m := (h.settled m).2.kept hf.cell
  have hwalker : t.isWalker φ m :=
    decide_eq_true ⟨(Physics.isYou_of_kept hkept).trans hm, hmoved⟩
  refine h.after hf hwalker fun hstep => hf.isEnd_next ?_
  rw [Physics.isPushable_of_kept hkept, Physics.blocks_of_kept hkept]
  exact hb hstep m hm

theorem foldl {ms : List EntityId} (hb : φ.bounds.HasStep d → φ.NoneLoose b)
    (h : t.IsTidy φ d b) (hms : ∀ m ∈ ms, φ.isYou b m) :
    (ms.foldl (Turn.advance φ d) t).IsTidy φ d b := by
  induction ms generalizing t with
  | nil => exact h
  | cons m ms ih =>
    obtain ⟨hm, hms⟩ := List.forall_mem_cons.mp hms
    exact ih (h.advance hb hm) hms

end IsTidy

end Turn

namespace Physics

theorem isTidy_youTurn (hb : φ.bounds.HasStep d → φ.NoneLoose b) :
    (φ.youTurn d b).IsTidy φ d b := by
  refine (Turn.IsTidy.start φ d b).foldl hb fun m hm => ?_
  rw [ExtTreeSet.mem_toList, ExtTreeSet.mem_ofList, List.contains_iff_mem] at hm
  exact decide_eq_true (PropertyTable.mem_entitiesWith.mp hm)

theorem oneCellEach (hb : φ.bounds.HasStep d → φ.NoneLoose b) : φ.OneCellEach d b := by
  have h := isTidy_youTurn hb
  refine ⟨List.nodup_iff_count.mpr fun k => (h.settled k).1, fun k hk => ?_, fun k hk => ?_⟩
  · refine (h.settled k).2.imp_right fun ⟨_, hcell⟩ => ?_
    obtain ⟨c, hc⟩ := h.stood k hk
    simp only [hk, if_true, hc, Option.map_some] at hcell
    exact ⟨c, hc, hcell⟩
  · refine (h.settled k).2.imp_right fun ⟨hkept, hcell⟩ => ⟨hkept, ?_⟩
    simpa only [hk, if_false, Option.map_id_fun', id_eq] using hcell

/-- Where everything moves at most one cell, so do the YOU things. -/
theorem OneCellEach.movesOnce (h : φ.OneCellEach d b) : φ.MovesOnce d b where
  once k _ := List.nodup_iff_count.mp h.once k
  oneStep k _ hl := by
    by_cases hk : k ∈ (φ.youTurn d b).moved
    · rcases h.moved k hk with hg | ⟨c, hc, hcell⟩
      · exact absurd hl hg.dead
      · exact .inr (by rw [hcell, hc, Option.map_some])
    · rcases h.rest k hk with hg | hs
      · exact absurd hl hg.dead
      · exact .inl hs.cell

/-- Under rules that make no name both YOU and PUSH everything moves at most one cell in a turn. It is
so on every board exactly if such names always block, or the board is too small for a push. -/
theorem oneCellEach_of_rules (φ : Physics) (d : Direction) :
    ((∀ name, .you ∈ φ.properties.of name → ¬ .push ∈ φ.properties.of name) →
      ∀ b, φ.OneCellEach d b) ∧
    ((∀ b, φ.OneCellEach d b) ↔ ¬ (φ.bounds.HasStep d ∧ ∃ name, φ.IsLoose name)) := by
  have hsharp : ¬ (φ.bounds.HasStep d ∧ ∃ name, φ.IsLoose name) → ∀ b, φ.OneCellEach d b :=
    fun h b => oneCellEach fun hstep => noneLoose (fun name hl => h ⟨hstep, name, hl⟩) b
  refine ⟨fun h => hsharp ?_, ?_, hsharp⟩
  · rintro ⟨-, name, hyou, hpush, -⟩
    exact h name hyou hpush
  · rintro h ⟨hstep, name, hl⟩
    obtain ⟨b, hb⟩ := exists_pushesAgain hstep hl
    exact movesOnce_iff.mp (h b).movesOnce hb

/-- Two things that are YOU, and a rock that stands with the first: the second pushes it to where the
first has gone, and no further. -/
theorem oneCellEach_of_rules_in_row :
    let φ : Physics :=
      { properties := ((∅ : PropertyTable).give "BigBlue" {.you}).give "Rock" {.push}
        blockers := ["Hedge"], bounds := ⟨4, 1⟩ }
    let b := (((∅ : Board).addThing "BigBlue" ⟨1, 0⟩).addThing "BigBlue" ⟨0, 0⟩).addThing
      "Rock" ⟨1, 0⟩
    (∀ name, .you ∈ φ.properties.of name → ¬ .push ∈ φ.properties.of name) ∧
      (φ.youTurn .right b).moved = [0, 2, 1] ∧ φ.OneCellEach .right b := by
  intro φ b
  have hφ : ∀ name, .you ∈ φ.properties.of name → ¬ .push ∈ φ.properties.of name := by
    intro name hyou
    by_cases hr : "Rock" = name
    · subst hr
      exact absurd hyou (by decide +kernel)
    · by_cases hb : "BigBlue" = name
      · subst hb
        decide +kernel
      · simp [φ, PropertyTable.of_give, hr, hb] at hyou
  obtain ⟨hrules, -⟩ := oneCellEach_of_rules φ .right
  exact ⟨hφ, by decide +kernel, hrules hφ b⟩

end Physics

end WordTiles
