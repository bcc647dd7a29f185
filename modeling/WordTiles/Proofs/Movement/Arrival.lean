import WordTiles.Movement.Clearing
import WordTiles.Proofs.Board.Fate

/-! What an arrival does to each entity. The one that arrives stands in the cell, unless it drowns
there; of the others nobody moves, and only what stood in the cell can drown. What movement asks about
an entity depends on its name and its word tile alone, so it is the same before and after. -/

namespace WordTiles

open Board

variable {φ : Physics} {b b' : Board} {t : Turn} {id k : EntityId} {c e : Cell}

/-! ### Questions that only name and word tile answer -/

namespace Physics

theorem isYou_of_kept (h : Kept b b' id) : φ.isYou b' id = φ.isYou b id := by
  simp only [isYou, PropertyTable.ofEntity_of_kept h]

theorem isPushable_of_kept (h : Kept b b' id) : φ.isPushable b' id = φ.isPushable b id := by
  simp only [isPushable, PropertyTable.ofEntity_of_kept h, h.isWord]

theorem blocks_of_kept (h : Kept b b' id) : φ.blocks b' id = φ.blocks b id := by
  rw [blocks, blocks, decide_eq_decide, isBlocker, isBlocker, PropertyTable.ofEntity_of_kept h,
    h.isWord, h.name]

theorem cell?_of_mem_drowned (h : id ∈ φ.drowned b c k) : b.cell? id = some c := by
  simp only [drowned] at h
  split at h
  · exact mem_occupants.mp (List.mem_filter.mp h).1
  · cases h

/-- An entity that is alone in its cell does not drown there. -/
theorem drowned_of_alone (h : ∀ k, b.cell? k = some c → k = id) : φ.drowned b c id = [] := by
  have hlen : ¬ 2 ≤ (b.occupants c).length := by
    have hasc := occupants_ascending b c
    have hmem : ∀ k ∈ b.occupants c, k = id := fun k hk => h k (mem_occupants.mp hk)
    generalize b.occupants c = here at hasc hmem
    match here with
    | [] => simp
    | [_] => simp
    | x :: y :: rest =>
      have hx := hmem x (by simp)
      have hy := hmem y (by simp)
      simp [hx, hy] at hasc
  simp only [drowned, hlen, false_and, if_false]

end Physics

/-! ### Arrivals -/

namespace Turn

@[simp] theorem moved_arrive : (t.arrive φ id c).moved = t.moved ++ [id] := rfl

theorem carries_arrive_self : Carries (fun _ => c) t.board (t.arrive φ id c).board id :=
  (carries_relocate t.board id c).trans (carries_destroyAll _ _ id)

theorem carries_arrive (h : k ≠ id) : Carries (fun e => e) t.board (t.arrive φ id c).board k :=
  (stays_relocate h).carries.trans (carries_destroyAll _ _ k)

theorem exists_carries_arrive (k : EntityId) :
    ∃ f, Carries f t.board (t.arrive φ id c).board k := by
  by_cases h : k = id
  · subst h
    exact ⟨_, carries_arrive_self⟩
  · exact ⟨_, carries_arrive h⟩

/-- An arrival does not touch what stands in another cell. -/
theorem stays_arrive (h : k ≠ id) (hc : t.board.cell? k ≠ some c) :
    Stays t.board (t.arrive φ id c).board k := by
  have hr : Stays t.board (t.board.relocate id c) k := stays_relocate h
  refine hr.trans (stays_destroyAll fun hd => hc ?_)
  rw [← hr.cell]
  exact Physics.cell?_of_mem_drowned hd.1

/-- In a vacant cell nothing drowns. -/
theorem arrive_of_vacant (h : ∀ k, t.board.cell? k ≠ some c) :
    t.arrive φ id c =
      { t with board := t.board.relocate id c, moved := t.moved ++ [id] } := by
  have hd : φ.drowned (t.board.relocate id c) c id = [] := Physics.drowned_of_alone fun k hk => by
    refine Decidable.byContradiction fun hne => h k ?_
    rwa [cell?_relocate, if_neg hne] at hk
  simp only [arrive, sink, hd, destroyAll, List.foldl_nil, List.filter_nil, List.map_nil,
    List.append_nil]

/-! ### Arrivals one after the other -/

/-- Lets entities arrive in their cells, in the order of the list. -/
def arriveAll (φ : Physics) (as : List (EntityId × Cell)) (t : Turn) : Turn :=
  as.foldl (fun t a => t.arrive φ a.1 a.2) t

variable {as : List (EntityId × Cell)}

@[simp] theorem arriveAll_nil : t.arriveAll φ [] = t := rfl

@[simp] theorem arriveAll_cons {a : EntityId × Cell} :
    t.arriveAll φ (a :: as) = (t.arrive φ a.1 a.2).arriveAll φ as := rfl

theorem arriveAll_append {as' : List (EntityId × Cell)} :
    t.arriveAll φ (as ++ as') = (t.arriveAll φ as).arriveAll φ as' := List.foldl_append

theorem moved_arriveAll : (t.arriveAll φ as).moved = t.moved ++ as.map Prod.fst := by
  induction as generalizing t with
  | nil => simp
  | cons a as ih => rw [arriveAll_cons, ih, moved_arrive, List.map_cons, List.append_assoc,
      List.singleton_append]

/-- Arrivals do not touch an entity that is not among them and stands in none of their cells. -/
theorem stays_arriveAll (h : ∀ a ∈ as, k ≠ a.1 ∧ t.board.cell? k ≠ some a.2) :
    Stays t.board (t.arriveAll φ as).board k := by
  induction as generalizing t with
  | nil => exact .refl t.board k
  | cons a as ih =>
    obtain ⟨⟨hk, hc⟩, has⟩ := List.forall_mem_cons.mp h
    have hs : Stays t.board (t.arrive φ a.1 a.2).board k := stays_arrive hk hc
    exact hs.trans (ih (by rwa [hs.cell]))

/-- Of an entity that is not among the arrivals, nothing changes unless it drowns. -/
theorem carries_arriveAll (h : k ∉ as.map Prod.fst) :
    Carries (fun e => e) t.board (t.arriveAll φ as).board k := by
  induction as generalizing t with
  | nil => exact .refl t.board k
  | cons a as ih =>
    rw [List.map_cons, List.mem_cons, not_or] at h
    exact (carries_arrive h.1).trans (ih h.2)

/-- An entity that arrives once is kept in the cell of its arrival, unless it drowns. -/
theorem carries_arriveAll_mem (hn : (as.map Prod.fst).Nodup) (h : (k, c) ∈ as) :
    Carries (fun _ => c) t.board (t.arriveAll φ as).board k := by
  induction as generalizing t with
  | nil => cases h
  | cons a as ih =>
    rw [List.map_cons, List.nodup_cons] at hn
    rcases List.mem_cons.mp h with rfl | h
    · exact carries_arrive_self.trans (carries_arriveAll hn.1)
    · have hk : k ≠ a.1 := fun hk => hn.1 (hk ▸ List.mem_map_of_mem h)
      exact (carries_arrive hk).trans (ih hn.2 h)

end Turn

end WordTiles
