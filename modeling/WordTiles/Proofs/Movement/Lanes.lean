import WordTiles.Proofs.Movement.Exchange
import WordTiles.Proofs.Movement.Order

/-! Moves on different lines. Whether an entity can move, and which steps that takes, is read off the line
on which it stands, and these steps touch nothing off that line. So two entities on different lines get
their moves in either order with the same end. -/

namespace WordTiles

open Board Std

variable {φ : Physics} {d : Direction} {b : Board} {t t' t'' : Turn} {m k : EntityId} {p c : Cell}
  {n : Nat} {l l' : Int} {a a' : EntityId × Cell} {as as' : List (EntityId × Cell)}

namespace Cell

/-- The coordinate that steps in the direction leave as it is. It tells the lines of the direction
apart. -/
def lane (c : Cell) : Direction → Int
  | .up | .down => c.x
  | .left | .right => c.y

theorem lane_offset (c : Cell) (d : Direction) (n : Int) : (c.offset d n).lane d = c.lane d := by
  cases d <;> simp [lane, offset, Direction.delta]

theorem lane_step (c : Cell) (d : Direction) : (c.step d).lane d = c.lane d := lane_offset c d 1

end Cell

namespace Turn

/-! ### Arrivals on different lines -/

/-- An arrival along a line: the cell lies on the line, and the entity stands on it if it stands
anywhere. -/
def Along (d : Direction) (l : Int) (b : Board) (a : EntityId × Cell) : Prop :=
  a.2.lane d = l ∧ ∀ c, b.cell? a.1 = some c → c.lane d = l

theorem Along.apart (h : Along d l b a) (h' : Along d l' b a') (hl : l ≠ l') (hne : a.1 ≠ a'.1) :
    Apart b a a' where
  ids := hne
  cells he := hl (by rw [← h.1, ← h'.1, he])
  left hc := hl ((h.2 _ hc).symm.trans h'.1)
  right hc := hl (h.1.symm.trans (h'.2 _ hc))

/-- Arrivals of others, and those on the same line, keep an arrival along its line. -/
theorem Along.arrive (h : Along d l t.board a) (ha : a.1 = m → c.lane d = l) :
    Along d l (t.arrive φ m c).board a := by
  refine ⟨h.1, fun e he => ?_⟩
  by_cases hm : a.1 = m
  · rw [hm] at he
    have hcarries : Carries (fun _ => c) t.board (t.arrive φ m c).board m := carries_arrive_self
    rcases hcarries with hg | ⟨-, hcell⟩
    · rw [hg.cell] at he; cases he
    · obtain ⟨-, -, rfl⟩ := Option.map_eq_some_iff.mp (hcell.symm.trans he)
      exact ha hm
  · rcases carries_arrive (φ := φ) (t := t) (c := c) hm with hg | ⟨-, hcell⟩
    · rw [hg.cell] at he; cases he
    · rw [hcell, Option.map_id_fun'] at he
      exact h.2 e he

theorem Along.arriveAll (h : Along d l t.board a)
    (has : ∀ a' ∈ as, a.1 = a'.1 → a'.2.lane d = l) : Along d l (t.arriveAll φ as).board a := by
  induction as generalizing t with
  | nil => exact h
  | cons a' as ih =>
    obtain ⟨ha', has⟩ := List.forall_mem_cons.mp has
    exact ih (h.arrive ha') has

theorem arriveAll_arrive_comm (ha : Along d l t.board a) (has : ∀ a' ∈ as, Along d l' t.board a')
    (hl : l ≠ l') (hne : ∀ a' ∈ as, a.1 ≠ a'.1) :
    SameButOrder ((t.arrive φ a.1 a.2).arriveAll φ as) ((t.arriveAll φ as).arrive φ a.1 a.2) := by
  induction as generalizing t with
  | nil => exact .refl _
  | cons a' as ih =>
    obtain ⟨ha', has⟩ := List.forall_mem_cons.mp has
    obtain ⟨hne', hne⟩ := List.forall_mem_cons.mp hne
    have hswap : SameButOrder ((t.arrive φ a.1 a.2).arrive φ a'.1 a'.2)
        ((t.arrive φ a'.1 a'.2).arrive φ a.1 a.2) := (ha.apart ha' hl hne').arrive_comm
    refine hswap.arriveAll.trans (ih (ha.arrive fun he => absurd he hne') (fun x hx => ?_) hne)
    exact (has x hx).arrive fun _ => ha'.1

theorem arriveAll_arriveAll_comm (has : ∀ a ∈ as, Along d l t.board a)
    (has' : ∀ a' ∈ as', Along d l' t.board a') (hl : l ≠ l')
    (hne : ∀ a ∈ as, ∀ a' ∈ as', a.1 ≠ a'.1) :
    SameButOrder ((t.arriveAll φ as).arriveAll φ as') ((t.arriveAll φ as').arriveAll φ as) := by
  induction as generalizing t with
  | nil => exact .refl _
  | cons a as ih =>
    obtain ⟨ha, has⟩ := List.forall_mem_cons.mp has
    obtain ⟨hne', hne⟩ := List.forall_mem_cons.mp hne
    have hswap : SameButOrder ((t.arrive φ a.1 a.2).arriveAll φ as')
        ((t.arriveAll φ as').arrive φ a.1 a.2) := arriveAll_arrive_comm ha has' hl hne'
    refine (ih (fun x hx => (has x hx).arrive fun _ => ha.1) (fun x hx => ?_) hne).trans
      hswap.arriveAll
    exact (has' x hx).arrive fun he => absurd he.symm (hne' x hx)

/-! ### What is left alone -/

/-- An entity is and stands as before, and nothing more is reported of it. -/
structure Untouched (t t' : Turn) (k : EntityId) : Prop where
  stays : Stays t.board t'.board k
  moved : t'.moved.count k = t.moved.count k
  destroyed : ∀ c, t'.destroyed.count (k, c) = t.destroyed.count (k, c)

namespace Untouched

theorem refl (t : Turn) (k : EntityId) : Untouched t t k := ⟨.refl t.board k, rfl, fun _ => rfl⟩

theorem trans (h : Untouched t t' k) (h' : Untouched t' t'' k) : Untouched t t'' k :=
  ⟨h.stays.trans h'.stays, h'.moved.trans h.moved, fun c => (h'.destroyed c).trans (h.destroyed c)⟩

theorem mem_moved_iff (h : Untouched t t' k) : k ∈ t'.moved ↔ k ∈ t.moved := by
  rw [← List.count_pos_iff, h.moved, List.count_pos_iff]

end Untouched

theorem untouched_arrive (hk : k ≠ m) (hc : t.board.cell? k ≠ some c) :
    Untouched t (t.arrive φ m c) k where
  stays := stays_arrive hk hc
  moved := by
    rw [moved_arrive, List.count_append, List.count_singleton, if_neg (by simpa using hk.symm),
      Nat.add_zero]
  destroyed e := by
    -- what is reported as destroyed stood in the cell
    have hnew : (k, e) ∉ ((φ.drowned (t.board.relocate m c) c m).filter (· ∈ t.board.live)).map
        (·, c) := fun he => by
      obtain ⟨k', hk', he⟩ := List.mem_map.mp he
      obtain rfl : k' = k := congrArg Prod.fst he
      have hcell := (mem_drowned_live_iff.mp hk').cell
      rw [cell?_relocate, if_neg hk] at hcell
      exact hc hcell
    rw [destroyed_arrive, List.count_append, List.count_eq_zero.mpr hnew, Nat.add_zero]

theorem untouched_arriveAll (h : ∀ a ∈ as, k ≠ a.1 ∧ t.board.cell? k ≠ some a.2) :
    Untouched t (t.arriveAll φ as) k := by
  induction as generalizing t with
  | nil => exact .refl t k
  | cons a as ih =>
    obtain ⟨⟨hk, hc⟩, has⟩ := List.forall_mem_cons.mp h
    have hu : Untouched t (t.arrive φ a.1 a.2) k := untouched_arrive hk hc
    exact hu.trans (ih (by rwa [hu.stays.cell]))

/-- Whatever stands on the line, before or after, is untouched. -/
def SameOn (d : Direction) (l : Int) (t t' : Turn) : Prop :=
  ∀ k c, c.lane d = l → t.board.cell? k = some c ∨ t'.board.cell? k = some c → Untouched t t' k

theorem SameOn.refl (d : Direction) (l : Int) (t : Turn) : SameOn d l t t := fun k _ _ _ => .refl t k

/-- Arrivals along one line touch nothing on another. -/
theorem sameOn_arriveAll (has : ∀ a ∈ as, Along d l t.board a) (hl : l ≠ l') :
    SameOn d l' t (t.arriveAll φ as) := by
  intro k c hc hk
  have hcell : t.board.cell? k = some c := by
    rcases hk with hk | hk
    · exact hk
    by_cases hka : k ∈ as.map Prod.fst
    · obtain ⟨a, ha, rfl⟩ := List.mem_map.mp hka
      have halong := (has a ha).arriveAll (φ := φ) fun a' ha' _ => (has a' ha').1
      exact absurd ((halong.2 c hk).symm.trans hc) hl
    · rcases carries_arriveAll (φ := φ) (t := t) hka with hg | ⟨-, hcell⟩
      · rw [hg.cell] at hk; cases hk
      · rwa [hcell, Option.map_id_fun'] at hk
  refine untouched_arriveAll fun a ha => ⟨?_, fun he => ?_⟩
  · rintro rfl
    exact hl (((has a ha).2 c hcell).symm.trans hc)
  · obtain rfl := Option.some.inj (hcell.symm.trans he)
    exact hl ((has a ha).1.symm.trans hc)

/-! ### What a line decides -/

namespace SameOn

variable (h : SameOn d l t t') (hc : c.lane d = l)

include h hc

theorem cell?_iff : t'.board.cell? k = some c ↔ t.board.cell? k = some c :=
  ⟨fun hk => (h k c hc (.inr hk)).stays.cell ▸ hk, fun hk => (h k c hc (.inl hk)).stays.cell ▸ hk⟩

theorem leavers : t'.leavers φ c = t.leavers φ c := by
  have hsame : ∀ k ∈ t.board.occupants c, φ.isPushable t'.board k = φ.isPushable t.board k ∧
      t'.isWalker φ k = t.isWalker φ k := fun k hk => by
    have hu := h k c hc (.inl (mem_occupants.mp hk))
    have hkept := hu.stays.toKept
    refine ⟨Physics.isPushable_of_kept hkept, ?_⟩
    rw [isWalker, isWalker, decide_eq_decide, Physics.isYou_of_kept hkept, hu.mem_moved_iff]
  rw [Turn.leavers, Turn.leavers, occupants_congr fun k => h.cell?_iff hc]
  congr 1
  · exact List.filter_congr fun k hk => (hsame k hk).2
  · refine List.filter_congr fun k hk => ?_
    rw [(hsame k hk).1, (hsame k hk).2]

theorem isShut_iff : t'.isShut φ c ↔ t.isShut φ c :=
  isShut_of_untouched fun k hk => ⟨(h k c hc hk).stays, (h k c hc hk).mem_moved_iff⟩

theorem isEnd_iff : t'.isEnd φ c ↔ t.isEnd φ c := by
  rw [Turn.isEnd_iff, Turn.isEnd_iff, h.isShut_iff hc, h.leavers hc]

theorem shift : t'.shift φ d c n = t.shift φ d c n := by
  refine List.flatMap_congr fun i _ => ?_
  rw [departures, departures, h.leavers ((c.lane_offset d i).trans hc)]

theorem endsAfter_iff : t'.EndsAfter φ d c n ↔ t.EndsAfter φ d c n := by
  have hend : ∀ i : Nat, t'.isEnd φ (c.offset d i) ↔ t.isEnd φ (c.offset d i) := fun i =>
    h.isEnd_iff ((c.lane_offset d i).trans hc)
  constructor
  · exact fun hn => ⟨(hend n).mp hn.last, fun i hi he => hn.before i hi ((hend i).mpr he)⟩
  · exact fun hn => ⟨(hend n).mpr hn.last, fun i hi he => hn.before i hi ((hend i).mp he)⟩

theorem steps : t'.steps φ d m c n = t.steps φ d m c n := by
  rw [Turn.steps, Turn.steps, h.shift ((c.lane_step d).trans hc)]

theorem isFree_iff : t'.IsFree φ d m c n ↔ t.IsFree φ d m c n := by
  have hstep := (c.lane_step d).trans hc
  have hcell := h.cell?_iff hc (k := m)
  have hends := h.endsAfter_iff (φ := φ) (n := n) hstep
  have hshut := h.isShut_iff (φ := φ) (((c.step d).lane_offset d n).trans hstep)
  constructor
  · exact fun hf => ⟨hcell.mp hf.cell, hends.mp hf.ends, fun hs => hf.notShut (hshut.mpr hs)⟩
  · exact fun hf => ⟨hcell.mpr hf.cell, hends.mpr hf.ends, fun hs => hf.notShut (hshut.mp hs)⟩

end SameOn

/-! ### Moves one after the other -/

/-- Gives an entity its move if it can have it, and says whether it could. -/
def tryMove (φ : Physics) (d : Direction) (t : Turn) (m : EntityId) : Turn × Bool :=
  ((t.move? φ d m).getD t, (t.move? φ d m).isSome)

theorem tryMove_of_isFree (h : t.IsFree φ d m p n) :
    t.tryMove φ d m = (t.arriveAll φ (t.steps φ d m p n), true) := by
  rw [tryMove, move?_eq_some_iff.mpr ⟨p, n, h, rfl⟩]
  rfl

theorem tryMove_of_not_isFree (h : ∀ p n, ¬ t.IsFree φ d m p n) : t.tryMove φ d m = (t, false) := by
  have hnone : t.move? φ d m = none := Option.eq_none_iff_forall_ne_some.mpr fun t' ht => by
    obtain ⟨p, n, hfree, -⟩ := move?_eq_some_iff.mp ht
    exact h p n hfree
  rw [tryMove, hnone]
  rfl

/-- The steps of a move are taken along its line by what stands there. -/
theorem IsFree.along_of_mem_steps (h : t.IsFree φ d m p n) (ha : a ∈ t.steps φ d m p n) :
    Along d (p.lane d) t.board a ∧ ∃ c, t.board.cell? a.1 = some c := by
  obtain ⟨i, -, hi, -⟩ := h.exists_offset_of_mem (List.mem_map_of_mem ha)
  obtain ⟨c, hc, hstep, -⟩ := h.of_mem_steps ha
  have hlane : c.lane d = p.lane d := by
    rw [Option.some.inj (hc.symm.trans hi), Cell.lane_offset]
  refine ⟨⟨?_, fun e he => ?_⟩, c, hc⟩
  · rw [hstep, Cell.lane_step, hlane]
  · rw [← Option.some.inj (hc.symm.trans he), hlane]

/-- The line of an entity tells by which arrivals it gets its move, or that it gets none. -/
theorem exists_tryMove_eq (hp : t.board.cell? m = some p) :
    ∃ as ok, (∀ a ∈ as, Along d (p.lane d) t.board a ∧ ∃ c, t.board.cell? a.1 = some c) ∧
      ∀ t', SameOn d (p.lane d) t t' → t'.tryMove φ d m = (t'.arriveAll φ as, ok) := by
  by_cases hfree : ∃ n, t.IsFree φ d m p n
  · obtain ⟨n, hn⟩ := hfree
    refine ⟨t.steps φ d m p n, true, fun a => hn.along_of_mem_steps, fun t' h => ?_⟩
    rw [tryMove_of_isFree ((h.isFree_iff rfl).mpr hn), h.steps rfl]
  · refine ⟨[], false, fun a ha => absurd ha List.not_mem_nil, fun t' h => ?_⟩
    refine tryMove_of_not_isFree fun p' n hn => hfree ⟨n, ?_⟩
    obtain rfl := Option.some.inj (((h.cell?_iff rfl).mpr hp).symm.trans hn.cell)
    exact (h.isFree_iff rfl).mp hn

/-- A move touches nothing but the mover and what stands ahead of it. -/
theorem untouched_tryMove (hk : k ≠ m) (hoff : ∀ p c, t.board.cell? m = some p →
    t.board.cell? k = some c → ¬ Cell.Ahead d (p.step d) c) :
    Untouched t (t.tryMove φ d m).1 k := by
  by_cases hfree : ∃ p n, t.IsFree φ d m p n
  · obtain ⟨p, n, hn⟩ := hfree
    rw [tryMove_of_isFree hn]
    refine untouched_arriveAll fun a ha => ⟨?_, fun hc => ?_⟩
    · rintro rfl
      obtain ⟨i, -, hc, hm, -⟩ := hn.exists_offset_of_mem (List.mem_map_of_mem ha)
      cases i with
      | zero => exact hk (hm rfl)
      | succ i => exact hoff p _ hn.cell hc ⟨i, (Cell.step_offset p d i).symm⟩
    · obtain ⟨i, -, hi, -⟩ := hn.exists_offset_of_mem (List.mem_map_of_mem ha)
      obtain ⟨e, he, hstep, -⟩ := hn.of_mem_steps ha
      obtain rfl := Option.some.inj (hi.symm.trans he)
      refine hoff p _ hn.cell hc ⟨i, ?_⟩
      rw [hstep, Cell.offset_step, Cell.step_offset]
  · push Not at hfree
    rw [tryMove_of_not_isFree hfree]
    exact .refl t k

/-- Two entities on different lines can be given their moves in either order: each of them moves exactly
if it moves alone, the board is the same in the end, and the same is reported to have moved and to have
been destroyed. And a move leaves alone all but the mover and what stands ahead of it on its line. -/
theorem tryMove_on_lanes (φ : Physics) (d : Direction) (t : Turn) :
    (∀ m m' p q, t.board.cell? m = some p → t.board.cell? m' = some q → p.lane d ≠ q.lane d →
      ((t.tryMove φ d m).1.tryMove φ d m').2 = (t.tryMove φ d m').2 ∧
      ((t.tryMove φ d m').1.tryMove φ d m).2 = (t.tryMove φ d m).2 ∧
      SameButOrder ((t.tryMove φ d m).1.tryMove φ d m').1 ((t.tryMove φ d m').1.tryMove φ d m).1) ∧
    ∀ m k, k ≠ m → (∀ p c, t.board.cell? m = some p → t.board.cell? k = some c →
      ¬ Cell.Ahead d (p.step d) c) → Untouched t (t.tryMove φ d m).1 k := by
  refine ⟨fun m m' p q hp hq hl => ?_, fun m k => untouched_tryMove⟩
  obtain ⟨as, ok, has, htry⟩ := exists_tryMove_eq (φ := φ) (d := d) hp
  obtain ⟨as', ok', has', htry'⟩ := exists_tryMove_eq (φ := φ) (d := d) hq
  have halong : ∀ a ∈ as, Along d (p.lane d) t.board a := fun a ha => (has a ha).1
  have halong' : ∀ a ∈ as', Along d (q.lane d) t.board a := fun a ha => (has' a ha).1
  have hne : ∀ a ∈ as, ∀ a' ∈ as', a.1 ≠ a'.1 := fun a ha a' ha' he => by
    obtain ⟨c, hc⟩ := (has a ha).2
    exact hl (((halong a ha).2 c hc).symm.trans ((halong' a' ha').2 c (he ▸ hc)))
  rw [htry t (.refl d _ t), htry' t (.refl d _ t), htry' _ (sameOn_arriveAll halong hl),
    htry _ (sameOn_arriveAll halong' hl.symm)]
  exact ⟨rfl, rfl, arriveAll_arriveAll_comm halong halong' hl hne⟩

/-- On one line a rock is pushed into the water, on the other one a YOU thing walks into it. -/
theorem tryMove_on_lanes_by_water :
    let φ : Physics :=
      { properties := (((∅ : PropertyTable).give "BigBlue" {.you}).give "Rock" {.push}).give
          "Water" {.sink}
        blockers := ["Hedge"], bounds := ⟨3, 2⟩ }
    let t : Turn := { board := (((((∅ : Board).addThing "BigBlue" ⟨0, 0⟩).addThing
      "Rock" ⟨1, 0⟩).addThing "Water" ⟨2, 0⟩).addThing "BigBlue" ⟨0, 1⟩).addThing "Water" ⟨1, 1⟩ }
    (t.board.cell? 0 = some ⟨0, 0⟩ ∧ t.board.cell? 3 = some ⟨0, 1⟩ ∧
      Cell.lane ⟨0, 0⟩ .right ≠ Cell.lane ⟨0, 1⟩ .right) ∧
    ((t.tryMove φ .right 0).1.tryMove φ .right 3).2 = (t.tryMove φ .right 3).2 ∧
    SameButOrder ((t.tryMove φ .right 0).1.tryMove φ .right 3).1
      ((t.tryMove φ .right 3).1.tryMove φ .right 0).1 ∧
    Untouched t (t.tryMove φ .right 0).1 4 ∧
    (t.tryMove φ .right 0).1.destroyed = [(1, ⟨2, 0⟩), (2, ⟨2, 0⟩)] ∧
    (t.tryMove φ .right 3).1.destroyed = [(3, ⟨1, 1⟩), (4, ⟨1, 1⟩)] := by
  intro φ t
  have h0 : t.board.cell? 0 = some ⟨0, 0⟩ := by decide +kernel
  have h3 : t.board.cell? 3 = some ⟨0, 1⟩ := by decide +kernel
  have h4 : t.board.cell? 4 = some ⟨1, 1⟩ := by decide +kernel
  have hl : Cell.lane ⟨0, 0⟩ .right ≠ Cell.lane ⟨0, 1⟩ .right := by decide
  obtain ⟨hswap, huntouched⟩ := tryMove_on_lanes φ .right t
  obtain ⟨hok, -, hsame⟩ := hswap 0 3 _ _ h0 h3 hl
  refine ⟨⟨h0, h3, hl⟩, hok, hsame, huntouched 0 4 (by decide) ?_, by decide +kernel,
    by decide +kernel⟩
  rintro p c hp hc ⟨n, hn⟩
  obtain rfl := Option.some.inj (h0.symm.trans hp)
  obtain rfl := Option.some.inj (h4.symm.trans hc)
  exact absurd (congrArg Cell.y hn) (by simp [Cell.step, Cell.offset, Direction.delta])

end Turn

end WordTiles
