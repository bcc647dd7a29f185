import WordTiles.Movement.Resolution
import WordTiles.Proofs.Board.Things
import WordTiles.Proofs.Movement.Scan
import Mathlib.Order.Bounds.Defs

/-! Clearing a cell does what the scan of its push line says. The recursion asks each cell for its
occupants before anything has entered it, and clears it once: the first entity to leave a cell has the
next cell cleared, and for the others that cell is noted as clear. What happens ahead never touches an
entity that still waits in a cell behind. -/

namespace WordTiles

open Std Board

variable {φ : Physics} {d : Direction} {c e : Cell} {id k : EntityId}

namespace Attempt

variable {a a' b : Attempt} {chosen : Attempt → EntityId → Bool}
  {go : EntityId → Attempt → Except Attempt Attempt} {ids : List EntityId}

/-- Arrivals in the middle of an attempt. -/
def arriveAll (φ : Physics) (as : List (EntityId × Cell)) (a : Attempt) : Attempt :=
  { a with toTurn := a.toTurn.arriveAll φ as }

theorem arriveAll_append {as as' : List (EntityId × Cell)} :
    a.arriveAll φ (as ++ as') = (a.arriveAll φ as).arriveAll φ as' := by
  simp only [arriveAll, Turn.arriveAll_append]

/-! ### Who is chosen -/

/-- A choice that looks only at what stands in cell `c`, at what it is and at whether it has moved. -/
structure LooksAt (c : Cell) (chosen : Attempt → EntityId → Bool) : Prop where
  here : ∀ a id, chosen a id → a.board.cell? id = some c
  congr : ∀ a b id, Stays a.board b.board id → (id ∈ b.moved ↔ id ∈ a.moved) →
    chosen b id = chosen a id

theorem walks_iff : walks φ c a id ↔ a.board.cell? id = some c ∧ a.toTurn.isWalker φ id := by
  simp only [walks, Turn.isWalker, decide_eq_true_eq]
  constructor
  · rintro ⟨hc, hm, hy⟩
    exact ⟨hc, hy, hm⟩
  · rintro ⟨hc, hy, hm⟩
    exact ⟨hc, hm, hy⟩

theorem isPushed_iff :
    isPushed φ c a id ↔ a.board.cell? id = some c ∧ φ.isPushable a.board id := by
  rw [isPushed, decide_eq_true_eq]

theorem looksAt_walks (φ : Physics) (c : Cell) : LooksAt c (walks φ c) where
  here a id h := (walks_iff.mp h).1
  congr a b id hs hm := by
    simp only [walks, hs.cell, hm, Physics.isYou_of_kept hs.toKept]

theorem looksAt_isPushed (φ : Physics) (c : Cell) : LooksAt c (isPushed φ c) where
  here a id h := (isPushed_iff.mp h).1
  congr a b id hs _ := by
    simp only [isPushed, hs.cell, Physics.isPushable_of_kept hs.toKept]

theorem mem_moved_arrive (hk : k ≠ id) : k ∈ (a.arrive φ id e).moved ↔ k ∈ a.moved := by
  change k ∈ a.moved ++ [id] ↔ _
  simp [hk]

theorem cell?_arrive_ne (hk : k ≠ id) (hc : a.board.cell? k ≠ some c) :
    (a.arrive φ id e).board.cell? k ≠ some c := by
  change (a.toTurn.arrive φ id e).board.cell? k ≠ some c
  rcases Turn.carries_arrive (φ := φ) (t := a.toTurn) (c := e) hk with hg | ⟨-, he⟩
  · rw [hg.cell]
    simp
  · rw [he, Option.map_id_fun']
    exact hc

/-- An arrival in another cell does not change who else is chosen in this one. -/
theorem LooksAt.arrive (h : LooksAt c chosen) (he : e ≠ c) (hk : k ≠ id) :
    chosen (a.arrive φ id e) k = chosen a k := by
  by_cases hc : a.board.cell? k = some c
  · have hs : Stays a.board (a.arrive φ id e).board k := by
      refine Turn.stays_arrive hk ?_
      rw [hc]
      intro hce
      exact he (Option.some.inj hce).symm
    exact h.congr a _ k hs (mem_moved_arrive hk)
  · have hno : ¬ chosen a k := fun hch => hc (h.here a k hch)
    have hno' : ¬ chosen (a.arrive φ id e) k := fun hch => cell?_arrive_ne hk hc (h.here _ k hch)
    rw [Bool.eq_iff_iff]
    exact iff_of_false hno' hno

/-! ### Sweeps -/

theorem sweep_cons_pos (h : chosen a id) :
    sweep chosen go (id :: ids) a = (go id a).bind (sweep chosen go ids) := by
  simp only [sweep, List.foldlM_cons, if_pos h]
  rfl

theorem sweep_cons_neg (h : ¬ chosen a id) :
    sweep chosen go (id :: ids) a = sweep chosen go ids a := by
  simp only [sweep, List.foldlM_cons, if_neg h]
  rfl

theorem sweep_of_none (h : ∀ id ∈ ids, ¬ chosen a id) : sweep chosen go ids a = .ok a := by
  induction ids with
  | nil => rfl
  | cons id ids ih =>
    obtain ⟨hid, hids⟩ := List.forall_mem_cons.mp h
    rw [sweep_cons_neg hid, ih hids]

/-- If nothing can leave, the first that should leave ends the sweep. -/
theorem sweep_of_error (hgo : ∀ id, go id a = .error a') (h : ∃ id ∈ ids, chosen a id) :
    sweep chosen go ids a = .error a' := by
  induction ids with
  | nil => obtain ⟨_, h, _⟩ := h; cases h
  | cons id ids ih =>
    by_cases hid : chosen a id
    · rw [sweep_cons_pos hid, hgo]; rfl
    · obtain ⟨k, hk, hc⟩ := h
      rcases List.mem_cons.mp hk with rfl | hk
      · exact absurd hc hid
      · rw [sweep_cons_neg hid, ih ⟨k, hk, hc⟩]

/-- A sweep does not tell two attempts apart in which the same entities are chosen and the first
that leaves comes to the same. -/
theorem sweep_congr (hgo : ∀ id, go id a = go id a')
    (hch : ∀ id ∈ ids, chosen a id = chosen a' id) (h : ∃ id ∈ ids, chosen a id) :
    sweep chosen go ids a = sweep chosen go ids a' := by
  induction ids with
  | nil => obtain ⟨_, h, _⟩ := h; cases h
  | cons id ids ih =>
    obtain ⟨hcid, hcids⟩ := List.forall_mem_cons.mp hch
    by_cases hid : chosen a id
    · rw [sweep_cons_pos hid, sweep_cons_pos (hcid ▸ hid), hgo]
    · obtain ⟨k, hk, hc⟩ := h
      rcases List.mem_cons.mp hk with rfl | hk
      · exact absurd hc hid
      · rw [sweep_cons_neg hid, sweep_cons_neg (hcid ▸ hid), ih hcids ⟨k, hk, hc⟩]

/-- Once cell `e` is clear, a sweep lets the chosen entities arrive there one after the other. -/
theorem sweep_of_cleared (hgo : ∀ id a, e ∈ a.cleared → go id a = .ok (a.arrive φ id e))
    (hch : LooksAt c chosen) (he : e ≠ c) (hn : ids.Nodup) (ha : e ∈ a.cleared) :
    sweep chosen go ids a = .ok (a.arriveAll φ ((ids.filter (chosen a)).map (·, e))) := by
  induction ids generalizing a with
  | nil => rfl
  | cons id ids ih =>
    obtain ⟨hid, hn⟩ := List.nodup_cons.mp hn
    by_cases hc : chosen a id
    · have hf : ids.filter (chosen (a.arrive φ id e)) = ids.filter (chosen a) :=
        List.filter_congr fun k hk => hch.arrive he fun hki => hid (hki ▸ hk)
      have ih := ih hn (a := a.arrive φ id e) ha
      rw [hf] at ih
      rw [sweep_cons_pos hc, hgo id a ha, List.filter_cons_of_pos hc]
      exact ih
    · rw [sweep_cons_neg hc, List.filter_cons_of_neg hc, ih hn ha]

/-! ### Emptying a cell -/

theorem vacate_of_blocks (h : (a.board.occupants c).any (φ.blocks a.board)) :
    vacate φ c go a = .error a := by
  simp only [vacate, if_pos h]

theorem vacate_of_not_blocks (h : ¬ (a.board.occupants c).any (φ.blocks a.board)) :
    vacate φ c go a = (sweep (walks φ c) go (a.board.occupants c) a).bind
      (sweep (isPushed φ c) go (a.board.occupants c)) := by
  simp only [vacate, if_neg h]

/-- Either something walks out of the cell, or something is pushed out of it and nothing walks. -/
theorem exists_leaver (h : a.toTurn.leavers φ c ≠ []) :
    (∃ id ∈ a.board.occupants c, walks φ c a id) ∨
      (∀ id ∈ a.board.occupants c, ¬ walks φ c a id) ∧
        ∃ id ∈ a.board.occupants c, isPushed φ c a id := by
  obtain ⟨id, hid⟩ := List.exists_mem_of_ne_nil _ h
  obtain ⟨hc, hl⟩ := Turn.mem_leavers.mp hid
  by_cases hw : ∃ id ∈ a.board.occupants c, walks φ c a id
  · exact .inl hw
  · right
    have hno : ∀ k ∈ a.board.occupants c, ¬ walks φ c a k := fun k hk hkw => hw ⟨k, hk, hkw⟩
    refine ⟨hno, id, mem_occupants.mpr hc, isPushed_iff.mpr ⟨hc, ?_⟩⟩
    rcases of_decide_eq_true hl with hp | hwalk
    · exact hp
    · exact absurd (walks_iff.mpr ⟨hc, hwalk⟩) (hno id (mem_occupants.mpr hc))

theorem vacate_of_no_leavers (hb : ¬ (a.board.occupants c).any (φ.blocks a.board))
    (hl : a.toTurn.leavers φ c = []) : vacate φ c go a = .ok a := by
  have hno : ∀ id, a.board.cell? id = some c → ¬ a.toTurn.isLeaving φ id := fun id hc h => by
    have := Turn.mem_leavers.mpr ⟨hc, h⟩
    rw [hl] at this; cases this
  have hw : ∀ id ∈ a.board.occupants c, ¬ walks φ c a id := fun id _ h => by
    obtain ⟨hc, hw⟩ := walks_iff.mp h
    exact hno id hc (decide_eq_true (.inr hw))
  have hp : ∀ id ∈ a.board.occupants c, ¬ isPushed φ c a id := fun id _ h => by
    obtain ⟨hc, hp⟩ := isPushed_iff.mp h
    exact hno id hc (decide_eq_true (.inl hp))
  rw [vacate_of_not_blocks hb, sweep_of_none hw]
  exact sweep_of_none hp

theorem vacate_of_error (hgo : ∀ id, go id a = .error b) (hl : a.toTurn.leavers φ c ≠ [])
    (hb : ¬ (a.board.occupants c).any (φ.blocks a.board)) : vacate φ c go a = .error b := by
  rw [vacate_of_not_blocks hb]
  rcases exists_leaver hl with hw | ⟨hw, hp⟩
  · rw [sweep_of_error hgo hw]; rfl
  · rw [sweep_of_none hw]
    exact sweep_of_error hgo hp

/-- When those of a list have left for another cell, what is still to be pushed are the others. -/
theorem isPushed_arriveAll (he : e ≠ c) (hn : ids.Nodup) (hc : a.board.cell? id = some c) :
    isPushed φ c (a.arriveAll φ (ids.map (·, e))) id =
      decide (φ.isPushable a.board id ∧ ¬ id ∈ ids) := by
  have hfst : (ids.map fun k => (k, e)).map Prod.fst = ids := by
    rw [List.map_map]; exact List.map_id _
  rw [Bool.eq_iff_iff, isPushed_iff, decide_eq_true_eq]
  change (a.toTurn.arriveAll φ (ids.map (·, e))).board.cell? id = some c ∧
    φ.isPushable (a.toTurn.arriveAll φ (ids.map (·, e))).board id ↔ _
  by_cases hm : id ∈ ids
  · have ha : (id, e) ∈ ids.map (·, e) := List.mem_map.mpr ⟨id, hm, rfl⟩
    have hg := Turn.carries_arriveAll_mem (φ := φ) (t := a.toTurn) (hfst.symm ▸ hn) ha
    refine iff_of_false (fun h => ?_) fun h => h.2 hm
    rcases hg with hg | ⟨-, hce⟩
    · rw [hg.cell] at h; cases h.1
    · rw [hce, hc] at h
      exact he (Option.some.inj h.1)
  · have hs : Stays a.board (a.toTurn.arriveAll φ (ids.map (·, e))).board id := by
      refine Turn.stays_arriveAll fun x hx => ?_
      obtain ⟨k, hk, rfl⟩ := List.mem_map.mp hx
      refine ⟨fun h => hm (h ▸ hk), ?_⟩
      rw [hc]; exact fun h => he (Option.some.inj h).symm
    rw [hs.cell, Physics.isPushable_of_kept hs.toKept]
    exact ⟨fun h => ⟨h.2, hm⟩, fun h => ⟨hc, h.1⟩⟩

section Emptying

variable (he : e ≠ c) (hcleared : ∀ id a, e ∈ a.cleared → go id a = .ok (a.arrive φ id e))
  (hcl : e ∈ b.cleared) (hstays : ∀ id, a.board.cell? id = some c → Stays a.board b.board id)

include he hcleared hcl hstays

/-- When those of a list have left for `e`, a sweep takes what is to be pushed of the others. -/
theorem sweep_isPushed_arriveAll (hids : ids.Nodup)
    (hmem : ∀ id ∈ a.board.occupants c, (id ∈ ids ↔ a.toTurn.isWalker φ id)) :
    sweep (isPushed φ c) go (a.board.occupants c) (b.arriveAll φ (ids.map (·, e))) =
      .ok ((b.arriveAll φ (ids.map (·, e))).arriveAll φ (((a.board.occupants c).filter fun id =>
        φ.isPushable a.board id ∧ ¬ a.toTurn.isWalker φ id).map (·, e))) := by
  have hn : (a.board.occupants c).Nodup := (occupants_ascending a.board c).imp Nat.ne_of_lt
  have hcl' : e ∈ (b.arriveAll φ (ids.map (·, e))).cleared := hcl
  rw [sweep_of_cleared hcleared (looksAt_isPushed φ c) he hn hcl']
  congr 3
  refine List.filter_congr fun id hid => ?_
  have hs := hstays id (mem_occupants.mp hid)
  rw [isPushed_arriveAll he hids (hs.cell.trans (mem_occupants.mp hid)),
    Physics.isPushable_of_kept hs.toKept, decide_eq_decide, hmem id hid]

/-- A cell is emptied by arrivals in the next one, `e`, if the next one can be cleared without
touching what stands here. -/
theorem vacate_of_ok (hgo : ∀ id, go id a = go id b)
    (hmoved : ∀ id, a.board.cell? id = some c → (id ∈ b.moved ↔ id ∈ a.moved))
    (hl : a.toTurn.leavers φ c ≠ []) (hb : ¬ (a.board.occupants c).any (φ.blocks a.board)) :
    vacate φ c go a = .ok (b.arriveAll φ ((a.toTurn.leavers φ c).map (·, e))) := by
  have hn : (a.board.occupants c).Nodup := (occupants_ascending a.board c).imp Nat.ne_of_lt
  have hsame : ∀ {chosen}, LooksAt c chosen → ∀ id ∈ a.board.occupants c,
      chosen a id = chosen b id := by
    intro chosen hch id hid
    have hc := mem_occupants.mp hid
    exact (hch.congr a b id (hstays id hc) (hmoved id hc)).symm
  have hwalker : ∀ id ∈ a.board.occupants c, walks φ c a id = a.toTurn.isWalker φ id := by
    intro id hid
    rw [Bool.eq_iff_iff, walks_iff, and_iff_right (mem_occupants.mp hid)]
  rw [vacate_of_not_blocks hb, Turn.leavers, List.map_append, arriveAll_append]
  rcases exists_leaver hl with hw | ⟨hw, hp⟩
  · -- the first that walks has the next cell cleared
    have hwalkers : (a.board.occupants c).filter (walks φ c b) =
        (a.board.occupants c).filter (a.toTurn.isWalker φ) :=
      List.filter_congr fun id hid => (hsame (looksAt_walks φ c) id hid).symm.trans (hwalker id hid)
    rw [sweep_congr hgo (hsame (looksAt_walks φ c)) hw,
      sweep_of_cleared hcleared (looksAt_walks φ c) he hn hcl, hwalkers]
    refine sweep_isPushed_arriveAll he hcleared hcl hstays (hn.filter _) fun id hid => ?_
    rw [List.mem_filter, and_iff_right hid]
  · -- nothing walks, and the first that is pushed has the next cell cleared
    have hnone : (a.board.occupants c).filter (a.toTurn.isWalker φ) = [] :=
      List.filter_eq_nil_iff.mpr fun id hid h => hw id hid (hwalker id hid ▸ h)
    have hrest := sweep_isPushed_arriveAll he hcleared hcl hstays List.nodup_nil fun id hid => by
      rw [← hwalker id hid]
      exact iff_of_false List.not_mem_nil (hw id hid)
    rw [sweep_of_none hw, hnone]
    exact (sweep_congr hgo (hsame (looksAt_isPushed φ c)) hp).trans hrest

end Emptying

/-! ### Clearing a cell -/

theorem clear_of_cleared (hin : φ.bounds.contains c) (h : c ∈ a.cleared) :
    clear φ d c a = .ok a := by
  rw [clear, if_pos hin, if_pos h]

theorem clear_of_not_contains (hin : ¬ φ.bounds.contains c) : clear φ d c a = .error a := by
  rw [clear, if_neg hin]

theorem contains_of_clear_eq_ok (h : clear φ d c a = .ok a') : φ.bounds.contains c := by
  refine Decidable.byContradiction fun hin => ?_
  rw [clear_of_not_contains hin] at h
  cases h

/-- A cell that is new to the attempt is emptied. -/
theorem clear_of_new (hin : φ.bounds.contains c) (hcl : ¬ c ∈ a.cleared) (hln : ¬ c ∈ a.line) :
    clear φ d c a = match vacate φ c (fun id a =>
        (clear φ d (c.step d) a).map (arrive φ id (c.step d))) (a.enter c) with
      | .ok a => .ok ((a.leave c).settle c)
      | .error a => .error (a.leave c) := by
  rw [clear]
  exact (if_pos hin).trans ((if_neg hcl).trans (if_neg hln))

/-- None of the cells from `c` on has been entered or cleared in the attempt. -/
def IsNew (d : Direction) (c : Cell) (a : Attempt) : Prop :=
  ∀ e, Cell.Ahead d c e → ¬ e ∈ a.line ∧ ¬ e ∈ a.cleared

theorem IsNew.enter (h : IsNew d c a) : IsNew d (c.step d) (a.enter c) := by
  intro e he
  obtain ⟨hl, hc⟩ := h e he.of_step
  refine ⟨?_, hc⟩
  simp only [Attempt.enter, ExtTreeSet.mem_insert, LawfulEqCmp.compare_eq_iff_eq, not_or]
  exact ⟨he.ne_of_step.symm, hl⟩

/-- If the line from `c` on ends in a shut cell, `c` cannot be cleared. -/
theorem exists_clear_eq_error {n : Nat} (hnew : IsNew d c a) (h : a.toTurn.EndsAfter φ d c n)
    (hshut : a.toTurn.isShut φ (c.offset d n)) : ∃ a', clear φ d c a = .error a' := by
  obtain ⟨hln, hcl⟩ := hnew c (Cell.ahead_refl d c)
  induction n generalizing c a with
  | zero =>
    simp only [Cell.offset_natCast_zero] at hshut
    by_cases hin : φ.bounds.contains c
    · have hb := (of_decide_eq_true hshut).resolve_left fun h => h hin
      rw [clear_of_new hin hcl hln, vacate_of_blocks (a := a.enter c) hb]
      exact ⟨_, rfl⟩
    · exact ⟨a, clear_of_not_contains hin⟩
  | succ n ih =>
    obtain ⟨hs, hl⟩ := h.open_succ
    obtain ⟨hln', hcl'⟩ := hnew.enter (c.step d) (Cell.ahead_refl d _)
    obtain ⟨a', ha'⟩ := ih (a := a.enter c) hnew.enter h.succ
      (Cell.step_offset c d n ▸ hshut) hln' hcl'
    rw [clear_of_new (Turn.contains_of_not_isShut hs) hcl hln,
      vacate_of_error (a := a.enter c) (b := a') (fun id => by rw [ha']; rfl) hl
        (fun hb => hs (decide_eq_true (.inr hb)))]
    exact ⟨_, rfl⟩

/-- If the line from `c` on ends in a cell that is not shut, `c` is cleared by the steps that the
scan tells. -/
theorem exists_clear_eq_ok {n : Nat} (hnew : IsNew d c a) (h : a.toTurn.EndsAfter φ d c n)
    (hopen : ¬ a.toTurn.isShut φ (c.offset d n)) :
    ∃ a', clear φ d c a = .ok a' ∧ a'.toTurn = a.toTurn.arriveAll φ (a.toTurn.shift φ d c n) ∧
      c ∈ a'.cleared := by
  obtain ⟨hln, hcl⟩ := hnew c (Cell.ahead_refl d c)
  have hsettle : ∀ a : Attempt, c ∈ ((a.leave c).settle c).cleared := fun a => by
    simp [settle]
  induction n generalizing c a with
  | zero =>
    rw [Cell.offset_natCast_zero] at hopen
    have hl := (Turn.isEnd_iff.mp h.isEnd_zero).resolve_left hopen
    rw [clear_of_new (Turn.contains_of_not_isShut hopen) hcl hln,
      vacate_of_no_leavers (a := a.enter c) (fun hb => hopen (decide_eq_true (.inr hb))) hl]
    exact ⟨_, rfl, rfl, hsettle _⟩
  | succ n ih =>
    obtain ⟨hs, hl⟩ := h.open_succ
    obtain ⟨hln', hcl'⟩ := hnew.enter (c.step d) (Cell.ahead_refl d _)
    obtain ⟨a', ha', ht', hc'⟩ := ih (a := a.enter c) hnew.enter h.succ
      (Cell.step_offset c d n ▸ hopen) hln' hcl' (fun a => by simp [settle])
    have hin' := contains_of_clear_eq_ok ha'
    -- what stands in `c` waits there untouched while the cells ahead are cleared
    have hwait : ∀ id, a.board.cell? id = some c → Stays a.board a'.board id ∧
        (id ∈ a'.moved ↔ id ∈ a.moved) := fun id hc => by
      rw [ht']
      exact Turn.stays_shift_of_behind hc
    rw [clear_of_new (Turn.contains_of_not_isShut hs) hcl hln,
      vacate_of_ok (a := a.enter c) (b := a') (Cell.step_ne c d)
        (fun id b hb => by rw [clear_of_cleared hin' hb]; rfl) hc' (fun id hc => (hwait id hc).1)
        (fun id => by rw [ha', clear_of_cleared hin' hc']) (fun id hc => (hwait id hc).2) hl
        (fun hb => hs (decide_eq_true (.inr hb)))]
    refine ⟨_, rfl, ?_, hsettle _⟩
    rw [Turn.shift_succ, Turn.arriveAll_append]
    exact congrArg (Turn.arriveAll φ _) ht'

end Attempt

/-! ### Moving an entity -/

namespace Turn

variable {t t' : Turn} {p : Cell} {m : EntityId} {n : Nat}

theorem move?_eq_match (hp : t.board.cell? m = some p) :
    t.move? φ d m = match Attempt.clear φ d (p.step d) { t with } with
      | .ok a => some (a.toTurn.arrive φ m (p.step d))
      | .error _ => none := by
  rw [move?, hp]
  rfl

theorem isNew_start (t : Turn) (d : Direction) (c : Cell) :
    Attempt.IsNew d c { t with } := fun _ _ =>
  ⟨ExtTreeSet.not_mem_empty, ExtTreeSet.not_mem_empty⟩

/-- The steps of a move: those along the line ahead, and then that of the entity itself. -/
def steps (φ : Physics) (d : Direction) (m : EntityId) (p : Cell) (n : Nat) (t : Turn) :
    List (EntityId × Cell) :=
  t.shift φ d (p.step d) n ++ [(m, p.step d)]

theorem move?_of_isShut (hp : t.board.cell? m = some p) (h : t.EndsAfter φ d (p.step d) n)
    (hshut : t.isShut φ ((p.step d).offset d n)) : t.move? φ d m = none := by
  obtain ⟨a', ha'⟩ := Attempt.exists_clear_eq_error (isNew_start t d (p.step d)) h hshut
  rw [move?_eq_match hp, ha']

theorem move?_of_not_isShut (hp : t.board.cell? m = some p) (h : t.EndsAfter φ d (p.step d) n)
    (hopen : ¬ t.isShut φ ((p.step d).offset d n)) :
    t.move? φ d m = some (t.arriveAll φ (t.steps φ d m p n)) := by
  obtain ⟨a', ha', ht', -⟩ := Attempt.exists_clear_eq_ok (isNew_start t d (p.step d)) h hopen
  rw [move?_eq_match hp, ha', steps, arriveAll_append]
  simp only [ht', arriveAll_cons, arriveAll_nil]

/-- Moving an entity is what the scan of the cells ahead tells: with `k` the distance of the first
cell at which the push line ends, the move fails if that cell is shut, and otherwise all that leaves
the cells between takes one step, and then the entity itself. -/
theorem move?_eq_scan (hp : t.board.cell? m = some p) :
    ∃ k : Nat, IsLeast {k : Nat | 1 ≤ k ∧ t.isEnd φ (p.offset d k)} k ∧
      t.move? φ d m = if t.isShut φ (p.offset d k) then none
        else some (t.arriveAll φ (t.shift φ d (p.step d) (k - 1) ++ [(m, p.step d)])) := by
  obtain ⟨n, h⟩ := exists_endsAfter φ d t (p.step d)
  refine ⟨n + 1, ⟨⟨Nat.succ_pos n, Cell.step_offset p d n ▸ h.last⟩, ?_⟩, ?_⟩
  · rintro k ⟨hk, hkend⟩
    obtain ⟨i, rfl⟩ := Nat.exists_eq_add_of_le' hk
    rw [← Cell.step_offset] at hkend
    have : ¬ i < n := fun hi => h.before i hi hkend
    omega
  · rw [← Cell.step_offset, Nat.add_sub_cancel]
    split
    · exact move?_of_isShut hp h ‹_›
    · exact move?_of_not_isShut hp h ‹_›

/-- The scan for a thing with a thing ahead that it can push. -/
theorem move?_eq_scan_of_two :
    let φ : Physics :=
      { properties := ((∅ : PropertyTable).give "BigBlue" {.you}).give "Rock" {.push}
        blockers := [], bounds := ⟨3, 1⟩ }
    let t : Turn := { board := ((∅ : Board).addThing "BigBlue" ⟨0, 0⟩).addThing "Rock" ⟨1, 0⟩ }
    t.board.cell? 0 = some ⟨0, 0⟩ ∧
      ∃ k : Nat, IsLeast {k : Nat | 1 ≤ k ∧ t.isEnd φ (Cell.offset ⟨0, 0⟩ .right k)} k ∧
        t.move? φ .right 0 = if t.isShut φ (Cell.offset ⟨0, 0⟩ .right k) then none
          else some (t.arriveAll φ
            (t.shift φ .right (Cell.step ⟨0, 0⟩ .right) (k - 1) ++ [(0, Cell.step ⟨0, 0⟩ .right)])) :=
  ⟨by decide, move?_eq_scan (by decide)⟩

end Turn

end WordTiles
