import Mathlib.Data.List.Induction
import WordTiles.Proofs.Movement.Steps

/-! A turn as its report tells it. A turn does nothing but single steps, one for each entry of the report
and in the order of the report: the entity stands somewhere when its step comes, and arrives in the next
cell. So a report is all it takes to play a turn again, and what is kept by each step is kept by the turn. -/

namespace WordTiles.Turn

open Board Std

variable {φ : Physics} {d : Direction} {b : Board} {t t' t₀ : Turn} {m m' k : EntityId} {p c : Cell}
  {n : Nat} {ids ids' : List EntityId}

/-- Lets an entity take one step; nothing if it stands nowhere. -/
def takeStep? (φ : Physics) (d : Direction) (t : Turn) (id : EntityId) : Option Turn :=
  (t.board.cell? id).map fun c => t.arrive φ id (c.step d)

/-- Lets entities take one step each, in the order of the list. -/
def replay? (φ : Physics) (d : Direction) (ids : List EntityId) (t : Turn) : Option Turn :=
  ids.foldlM (takeStep? φ d) t

/-- When the entities take their steps from turn `t` on, it comes to turn `t₀`, and then entity `m`
steps into cell `c`. -/
def Enters (φ : Physics) (d : Direction) (t : Turn) (ids : List EntityId) (t₀ : Turn) (m : EntityId)
    (c : Cell) : Prop :=
  ∃ before after e, ids = before ++ m :: after ∧ t.replay? φ d before = some t₀ ∧
    t₀.board.cell? m = some e ∧ c = e.step d

/-! ### Steps one after the other -/

@[simp] theorem replay?_nil : t.replay? φ d [] = some t := rfl

theorem replay?_cons_of_cell? (h : t.board.cell? k = some c) :
    t.replay? φ d (k :: ids) = (t.arrive φ k (c.step d)).replay? φ d ids := by
  rw [replay?, List.foldlM_cons, takeStep?, h]
  rfl

theorem replay?_append :
    t.replay? φ d (ids ++ ids') = (t.replay? φ d ids).bind (replay? φ d ids') :=
  List.foldlM_append

theorem replay?_concat_eq_some_iff : t.replay? φ d (ids ++ [m]) = some t' ↔
    ∃ t₁ c, t.replay? φ d ids = some t₁ ∧ t₁.board.cell? m = some c ∧
      t' = t₁.arrive φ m (c.step d) := by
  rw [replay?_append, Option.bind_eq_some_iff]
  refine exists_congr fun t₁ => ⟨fun ⟨hr, ht⟩ => ?_, fun ⟨c, hr, hc, ht⟩ => ⟨hr, ?_⟩⟩
  · cases hc : t₁.board.cell? m with
    | none => rw [replay?, List.foldlM_cons, takeStep?, hc] at ht; cases ht
    | some c =>
      rw [replay?_cons_of_cell? hc] at ht
      exact ⟨c, hr, rfl, (Option.some.inj ht).symm⟩
  · rw [replay?_cons_of_cell? hc, ht, replay?_nil]

/-- What holds at first and is kept by each step holds after all of them. -/
theorem replay?_induction {P : List EntityId → Turn → Prop} (start : P [] t)
    (step : ∀ ids t₁ m c, t.replay? φ d ids = some t₁ → P ids t₁ → t₁.board.cell? m = some c →
      P (ids ++ [m]) (t₁.arrive φ m (c.step d)))
    (h : t.replay? φ d ids = some t') : P ids t' := by
  induction ids using List.reverseRecOn generalizing t' with
  | nil =>
    obtain rfl := Option.some.inj h
    exact start
  | append_singleton ids m ih =>
    obtain ⟨t₁, c, hr, hc, rfl⟩ := replay?_concat_eq_some_iff.mp h
    exact step ids t₁ m c hr (ih hr) hc

theorem moved_of_replay? (h : t.replay? φ d ids = some t') : t'.moved = t.moved ++ ids := by
  refine replay?_induction (P := fun ids t' => t'.moved = t.moved ++ ids) ?_ ?_ h
  · exact (List.append_nil _).symm
  · intro ids t₁ m c _ ih _
    rw [moved_arrive, ih, List.append_assoc]

theorem not_enters_nil : ¬ t.Enters φ d [] t₀ m c := by
  rintro ⟨before, after, e, hids, -⟩
  exact List.append_ne_nil_of_right_ne_nil before (List.cons_ne_nil m after) hids.symm

/-- The entries of a cell are those before the last step, and the last step itself. -/
theorem enters_concat (hr : t.replay? φ d ids = some t') (hp : t'.board.cell? m' = some p) :
    t.Enters φ d (ids ++ [m']) t₀ m c ↔
      t.Enters φ d ids t₀ m c ∨ t₀ = t' ∧ m = m' ∧ c = p.step d := by
  constructor
  · rintro ⟨before, after, e, hids, hbefore, he, rfl⟩
    rcases List.eq_nil_or_concat after with rfl | ⟨after, x, rfl⟩
    · obtain ⟨rfl, hm⟩ := List.append_inj' hids rfl
      obtain rfl : m' = m := List.singleton_inj.mp hm
      obtain rfl : t' = t₀ := Option.some.inj (hr.symm.trans hbefore)
      obtain rfl := Option.some.inj (hp.symm.trans he)
      exact .inr ⟨rfl, rfl, rfl⟩
    · rw [List.concat_eq_append, ← List.cons_append, ← List.append_assoc] at hids
      obtain ⟨rfl, -⟩ := List.append_inj' hids rfl
      exact .inl ⟨before, after, e, rfl, hbefore, he, rfl⟩
  · rintro (⟨before, after, e, rfl, hbefore, he, rfl⟩ | ⟨rfl, rfl, rfl⟩)
    · refine ⟨before, after ++ [m'], e, ?_, hbefore, he, rfl⟩
      rw [List.append_assoc, List.cons_append]
    · exact ⟨ids, [], p, rfl, hr, hp, rfl⟩

/-! ### The steps of a move -/

theorem replay?_of_cell? (hids : ids.Nodup) (hc : ∀ k ∈ ids, t.board.cell? k = some c) :
    t.replay? φ d ids = some (t.arriveAll φ (ids.map (·, c.step d))) := by
  induction ids generalizing t with
  | nil => rfl
  | cons id ids ih =>
    obtain ⟨hid, hids⟩ := List.nodup_cons.mp hids
    obtain ⟨hcid, hcids⟩ := List.forall_mem_cons.mp hc
    rw [replay?_cons_of_cell? hcid]
    refine ih hids fun k hk => ?_
    have hck := hcids k hk
    have hs : Stays t.board (t.arrive φ id (c.step d)).board k := by
      refine stays_arrive (fun hkid => hid (hkid ▸ hk)) fun hstep => ?_
      exact Cell.step_ne c d (Option.some.inj (hstep.symm.trans hck))
    exact hs.cell.trans hck

/-- What waits behind while the cells ahead are cleared is there when its own step comes. -/
theorem replay?_shift :
    t.replay? φ d ((t.shift φ d c n).map Prod.fst) = some (t.arriveAll φ (t.shift φ d c n)) := by
  induction n generalizing c with
  | zero => rfl
  | succ n ih =>
    rw [shift_succ, List.map_append, replay?_append, ih, Option.bind_some, map_fst_departures,
      arriveAll_append]
    refine replay?_of_cell? (leavers_nodup φ t c) fun k hk => ?_
    have hc := (mem_leavers.mp hk).1
    exact (stays_shift_of_behind hc).1.cell.trans hc

theorem IsFree.replay?_steps (h : t.IsFree φ d m p n) :
    t.replay? φ d ((t.steps φ d m p n).map Prod.fst) =
      some (t.arriveAll φ (t.steps φ d m p n)) := by
  have hm := (stays_shift_of_behind (φ := φ) (d := d) (n := n) h.cell).1.cell.trans h.cell
  rw [steps, List.map_append, replay?_append, replay?_shift, Option.bind_some, arriveAll_append]
  exact replay?_cons_of_cell? hm

/-! ### The steps of a turn -/

theorem exists_replay?_advance (φ : Physics) (d : Direction) (t : Turn) (m : EntityId) :
    ∃ ids, t.replay? φ d ids = some (t.advance φ d m) := by
  rcases advance_cases φ d t m with h | ⟨-, -, h⟩
  · exact ⟨[], congrArg some h.symm⟩
  · obtain ⟨p, n, hfree, he⟩ := move?_eq_some_iff.mp h
    exact ⟨_, he ▸ hfree.replay?_steps⟩

theorem exists_replay?_foldl (ms : List EntityId) :
    ∃ ids, t.replay? φ d ids = some (ms.foldl (advance φ d) t) := by
  induction ms generalizing t with
  | nil => exact ⟨[], rfl⟩
  | cons m ms ih =>
    obtain ⟨ids, hids⟩ := exists_replay?_advance φ d t m
    obtain ⟨ids', hids'⟩ := ih (t := t.advance φ d m)
    refine ⟨ids ++ ids', ?_⟩
    rw [replay?_append, hids, Option.bind_some, hids', List.foldl_cons]

/-- The turn of any movers is the steps of those it reports as moved. -/
theorem replay?_moved (φ : Physics) (d : Direction) (ms : List EntityId) (b : Board) :
    ({ board := b } : Turn).replay? φ d (resolve φ d ms { board := b }).moved =
      some (resolve φ d ms { board := b }) := by
  obtain ⟨ids, hids⟩ := exists_replay?_foldl (φ := φ) (d := d) (t := { board := b })
    (ExtTreeSet.ofList ms).toList
  have hmoved := moved_of_replay? hids
  rw [List.nil_append] at hmoved
  rw [resolve, hmoved]
  exact hids

end WordTiles.Turn
