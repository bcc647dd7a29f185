import WordTiles.Proofs.Board.Fate
import WordTiles.Verdict

/-! What a verdict comes to. The doomed are collected on one board and destroyed one by one on others, and
who is YOU is asked again on the board that is left. None of this can be seen from outside: the doomed are
those that stand with a killer on the board as it was, so that two killers of one cell destroy each other,
and what is left is judged as it stands. -/

namespace WordTiles

open Board Std

variable {r : Rulebook} {b : Board} {id other : EntityId} {c : Cell} {p : Property} {o : Outcome}

/-- The entities stand in one cell. -/
def Board.Together (b : Board) (id other : EntityId) : Prop :=
  ∃ c, b.cell? id = some c ∧ b.cell? other = some c

namespace Rulebook

/-- The YOU thing stands with another thing that kills. -/
def IsDoomed (r : Rulebook) (b : Board) (id : EntityId) : Prop :=
  id ∈ r.youEntities b ∧
    ∃ other, other ≠ id ∧ b.Together id other ∧ .kill ∈ r.properties.ofEntity b other

/-- Some YOU thing stands with a thing that wins, if only with itself. -/
def IsWon (r : Rulebook) (b : Board) : Prop :=
  ∃ id ∈ r.youEntities b, ∃ other ∈ r.winEntities b, b.Together id other

/-- What a board comes to as it stands. -/
def ComesTo (r : Rulebook) (b : Board) : Outcome → Prop
  | .lose => r.youEntities b = []
  | .win => r.youEntities b ≠ [] ∧ r.IsWon b
  | .playing => r.youEntities b ≠ [] ∧ ¬ r.IsWon b

/-- The verdict destroys the live things that are doomed on the board as it was, reports each of them with
its cell, in ascending order, and changes nothing else. Nothing is doomed on the board that is left, and
that board comes to the outcome of the verdict and to no other. -/
structure Judges (r : Rulebook) (b : Board) (v : Verdict) : Prop where
  destroyed : ∀ id c, (id, c) ∈ v.destroyed ↔ id ∈ b.live ∧ b.cell? id = some c ∧ r.IsDoomed b id
  ascending : (v.destroyed.map Prod.fst).Pairwise (· < ·)
  gone : ∀ id ∈ v.destroyed.map Prod.fst, Gone b v.board id
  stays : ∀ id, id ∉ v.destroyed.map Prod.fst → Stays b v.board id
  nextId : v.board.nextId = b.nextId
  spared : ∀ id ∈ v.board.live, ¬ r.IsDoomed v.board id
  outcome : ∀ o, v.outcome = o ↔ r.ComesTo v.board o

/-! ### The outcome -/

theorem wins_iff_isWon : r.wins b ↔ r.IsWon b := by
  rw [wins_iff]
  constructor
  · rintro ⟨id, hid, c, hc, other, hother, hwin⟩
    exact ⟨id, hid, other, PropertyTable.mem_entitiesWith.mpr hwin, c, hc, hother⟩
  · rintro ⟨id, hid, other, hwin, c, hc, hother⟩
    exact ⟨id, hid, c, hc, other, hother, PropertyTable.mem_entitiesWith.mp hwin⟩

theorem comesTo_outcome (r : Rulebook) (b : Board) : r.ComesTo b (r.outcome b) := by
  rw [outcome]
  split
  · rename_i hyou
    exact List.isEmpty_iff.mp hyou
  · rename_i hyou
    have hyou : r.youEntities b ≠ [] := fun h => hyou (List.isEmpty_iff.mpr h)
    split
    · rename_i hwins
      exact ⟨hyou, wins_iff_isWon.mp hwins⟩
    · rename_i hwins
      exact ⟨hyou, fun h => hwins (wins_iff_isWon.mpr h)⟩

/-- A board comes to one outcome only. -/
theorem ComesTo.unique {o' : Outcome} (h : r.ComesTo b o) (h' : r.ComesTo b o') : o = o' := by
  cases o <;> cases o' <;> simp_all [ComesTo]

theorem outcome_eq_iff : r.outcome b = o ↔ r.ComesTo b o :=
  ⟨fun h => h ▸ comesTo_outcome r b, (comesTo_outcome r b).unique⟩

/-! ### The doomed -/

theorem mem_doomed_iff : (id, c) ∈ r.doomed b ↔ b.cell? id = some c ∧ r.IsDoomed b id := by
  rw [mem_doomed]
  constructor
  · rintro ⟨hyou, hc, other, hother, hne, hkill⟩
    exact ⟨hc, hyou, other, hne, ⟨c, hc, hother⟩, hkill⟩
  · rintro ⟨hc, hyou, other, hne, ⟨e, he, hother⟩, hkill⟩
    rw [Option.some.inj (hc.symm.trans he)]
    exact ⟨hyou, he, other, hother, hne, hkill⟩

theorem IsDoomed.stands (h : r.IsDoomed b id) : ∃ c, b.cell? id = some c := by
  obtain ⟨-, other, -, ⟨c, hc, -⟩, -⟩ := h
  exact ⟨c, hc⟩

theorem mem_map_doomed : id ∈ (r.doomed b).map Prod.fst ↔ r.IsDoomed b id := by
  constructor
  · intro h
    obtain ⟨⟨id, c⟩, hd, rfl⟩ := List.mem_map.mp h
    exact (mem_doomed_iff.mp hd).2
  · intro hd
    obtain ⟨c, hc⟩ := hd.stands
    exact List.mem_map.mpr ⟨(id, c), mem_doomed_iff.mpr ⟨hc, hd⟩, rfl⟩

theorem doomed_ascending (r : Rulebook) (b : Board) :
    (r.doomed b).Pairwise fun x y => x.1 < y.1 := by
  have hyou : (r.youEntities b).Pairwise (· < ·) := r.properties.entitiesWith_ascending b .you
  refine List.pairwise_filterMap.mpr (hyou.imp fun hlt x hx y hy => ?_)
  obtain ⟨c, -, hx⟩ := Option.bind_eq_some_iff.mp hx
  obtain ⟨e, -, hy⟩ := Option.bind_eq_some_iff.mp hy
  rw [Option.ite_none_right_eq_some, Option.some.injEq] at hx hy
  rwa [← hx.2, ← hy.2]

/-! ### The board that is left -/

theorem mem_destroyed_judge :
    (id, c) ∈ (r.judge b).destroyed ↔ id ∈ b.live ∧ b.cell? id = some c ∧ r.IsDoomed b id := by
  rw [judge, List.mem_filter, decide_eq_true_eq, mem_doomed_iff, and_comm]

theorem mem_map_destroyed_judge :
    id ∈ (r.judge b).destroyed.map Prod.fst ↔ id ∈ b.live ∧ r.IsDoomed b id := by
  have hmap : (r.judge b).destroyed.map Prod.fst =
      ((r.doomed b).map Prod.fst).filter (· ∈ b.live) := by
    rw [List.filter_map]
    rfl
  rw [hmap, List.mem_filter, mem_map_doomed, decide_eq_true_eq, and_comm]

theorem gone_judge (hl : id ∈ b.live) (hd : r.IsDoomed b id) : Gone b (r.judge b).board id :=
  gone_destroyAll (mem_map_doomed.mpr hd) hl

theorem stays_judge (h : ¬ (id ∈ b.live ∧ r.IsDoomed b id)) : Stays b (r.judge b).board id :=
  stays_destroyAll fun hd => h ⟨hd.2, mem_map_doomed.mp hd.1⟩

/-- What has a property on the board that is left is what it was. -/
theorem stays_judge_of_mem_ofEntity (h : p ∈ r.properties.ofEntity (r.judge b).board id) :
    Stays b (r.judge b).board id := by
  refine stays_judge fun ⟨hl, hd⟩ => ?_
  obtain ⟨-, name, hn, -⟩ := PropertyTable.mem_ofEntity.mp h
  rw [(gone_judge hl hd).name] at hn
  cases hn

/-- To be doomed on the board that is left is to have been doomed before. -/
theorem IsDoomed.before (h : r.IsDoomed (r.judge b).board id) : r.IsDoomed b id := by
  obtain ⟨hyou, other, hne, ⟨c, hc, hother⟩, hkill⟩ := h
  have hyou := PropertyTable.mem_entitiesWith.mp hyou
  -- both have their properties yet, so neither has been destroyed
  have hid := stays_judge_of_mem_ofEntity hyou
  have hot := stays_judge_of_mem_ofEntity hkill
  rw [PropertyTable.ofEntity_of_kept hid.toKept] at hyou
  rw [PropertyTable.ofEntity_of_kept hot.toKept] at hkill
  rw [hid.cell] at hc
  rw [hot.cell] at hother
  exact ⟨PropertyTable.mem_entitiesWith.mpr hyou, other, hne, ⟨c, hc, hother⟩, hkill⟩

theorem judges_judge (r : Rulebook) (b : Board) : r.Judges b (r.judge b) where
  destroyed _ _ := mem_destroyed_judge
  ascending := List.pairwise_map.mpr ((doomed_ascending r b).filter _)
  gone id hid := by
    obtain ⟨hl, hd⟩ := mem_map_destroyed_judge.mp hid
    exact gone_judge hl hd
  stays id hid := stays_judge fun h => hid (mem_map_destroyed_judge.mpr h)
  nextId := nextId_destroyAll
  spared id hid hd :=
    have hl : id ∈ b.live := (stays_judge_of_mem_ofEntity
      (PropertyTable.mem_entitiesWith.mp hd.1)).live.mp hid
    (gone_judge hl hd.before).dead hid
  outcome _ := outcome_eq_iff

end Rulebook

end WordTiles
