import Mathlib.Data.List.Sort
import WordTiles.Proofs.Board.Exchange
import WordTiles.Proofs.Movement.Sinking

/-! Arrivals that can change places. What drowns at an arrival depends on the occupants of the cell alone.
So where two entities arrive in two cells and neither has stood in the cell of the other, the board is the
same in either order, and the reports tell the same in another order. -/

namespace WordTiles

open Board Std

variable {φ : Physics} {d : Direction} {b b' : Board} {t t' t'' : Turn} {m k : EntityId} {c e : Cell}
  {a a' : EntityId × Cell} {as : List (EntityId × Cell)}

/-! ### What drowns in a cell -/

theorem Board.occupants_congr (h : ∀ k, b'.cell? k = some c ↔ b.cell? k = some c) :
    b'.occupants c = b.occupants c := by
  refine List.Pairwise.eq_of_mem_iff (occupants_ascending _ _) (occupants_ascending _ _) fun k => ?_
  rw [mem_occupants, mem_occupants, h]

namespace Physics

/-- What drowns in a cell depends on nothing but the occupants of the cell. -/
theorem drowned_congr (h : ∀ k, b'.cell? k = some c ↔ b.cell? k = some c)
    (hkept : ∀ k, b.cell? k = some c → Kept b b' k) : φ.drowned b' c m = φ.drowned b c m := by
  have hkept : ∀ k ∈ b.occupants c, Kept b b' k := fun k hk => hkept k (mem_occupants.mp hk)
  have hsink : (b.occupants c).any (φ.isSink b') = (b.occupants c).any (φ.isSink b) := by
    rw [Bool.eq_iff_iff, List.any_eq_true, List.any_eq_true]
    refine exists_congr fun k => and_congr_right fun hk => ?_
    rw [isSink_of_kept (hkept k hk)]
  simp only [drowned, occupants_congr h, hsink]
  split
  · refine List.filter_congr fun k hk => ?_
    rw [(hkept k hk).isWord, decide_eq_decide]
    refine and_congr_right fun _ => not_congr (and_congr_right ?_)
    rintro rfl
    rw [isSink_of_kept (hkept k hk)]
  · rfl

/-- Who passes from one cell to another does not count in a third. -/
theorem drowned_relocate (hk : b.cell? k ≠ some c) (he : e ≠ c) :
    φ.drowned (b.relocate k e) c m = φ.drowned b c m := by
  refine drowned_congr (fun j => ?_) fun j _ => kept_relocate b k j e
  rw [cell?_relocate]
  split
  · rename_i hj
    subst hj
    refine iff_of_false (fun h => ?_) hk
    obtain ⟨-, -, h⟩ := Option.map_eq_some_iff.mp h
    exact he h
  · rfl

/-- What is destroyed in another cell does not count. -/
theorem drowned_destroyAll {ids : List EntityId} (h : ∀ k ∈ ids, b.cell? k ≠ some c) :
    φ.drowned (b.destroyAll ids) c m = φ.drowned b c m := by
  have hstays : ∀ k, b.cell? k = some c → Stays b (b.destroyAll ids) k := fun k hk =>
    stays_destroyAll fun hd => h k hd.1 hk
  refine drowned_congr (fun k => ⟨fun hk => ?_, fun hk => ?_⟩) fun k hk => (hstays k hk).toKept
  · rcases carries_destroyAll b ids k with hg | ⟨-, hcell⟩
    · rw [hg.cell] at hk; cases hk
    · rwa [hcell, Option.map_id_fun'] at hk
  · rw [(hstays k hk).cell, hk]

end Physics

namespace Turn

/-! ### Turns that differ in the order of their reports -/

/-- The boards are the same, and so are the reports up to their order. -/
structure SameButOrder (t t' : Turn) : Prop where
  board : t.board = t'.board
  moved : t.moved.Perm t'.moved
  destroyed : t.destroyed.Perm t'.destroyed

namespace SameButOrder

theorem refl (t : Turn) : SameButOrder t t := ⟨rfl, .refl _, .refl _⟩

theorem trans (h : SameButOrder t t') (h' : SameButOrder t' t'') : SameButOrder t t'' :=
  ⟨h.board.trans h'.board, h.moved.trans h'.moved, h.destroyed.trans h'.destroyed⟩

theorem arrive (h : SameButOrder t t') : SameButOrder (t.arrive φ m c) (t'.arrive φ m c) := by
  obtain ⟨hboard, hmoved, hdestroyed⟩ := h
  simp only [Turn.arrive, sink, hboard]
  exact ⟨rfl, hmoved.append_right _, hdestroyed.append_right _⟩

theorem arriveAll (h : SameButOrder t t') : SameButOrder (t.arriveAll φ as) (t'.arriveAll φ as) := by
  induction as generalizing t t' with
  | nil => exact h
  | cons a as ih => exact ih h.arrive

end SameButOrder

/-! ### Two arrivals -/

theorem destroyed_arrive : (t.arrive φ m c).destroyed = t.destroyed ++
    ((φ.drowned (t.board.relocate m c) c m).filter (· ∈ t.board.live)).map (·, c) := rfl

/-- Two entities that arrive in two cells, neither of which stood where the other arrives. -/
structure Apart (b : Board) (a a' : EntityId × Cell) : Prop where
  ids : a.1 ≠ a'.1
  cells : a.2 ≠ a'.2
  left : b.cell? a.1 ≠ some a'.2
  right : b.cell? a'.1 ≠ some a.2

namespace Apart

theorem symm (h : Apart b a a') : Apart b a' a := ⟨h.ids.symm, h.cells.symm, h.right, h.left⟩

/-- What drowns at the one arrival has not stood where the other one goes, neither before nor after. -/
theorem cell?_of_mem_drowned (h : Apart b a a')
    (hk : k ∈ φ.drowned (b.relocate a.1 a.2) a.2 a.1) :
    k ≠ a'.1 ∧ (b.relocate a'.1 a'.2).cell? k ≠ some a'.2 ∧
      ((b.relocate a.1 a.2).relocate a'.1 a'.2).cell? k ≠ some a'.2 := by
  have hcell := Physics.cell?_of_mem_drowned hk
  have hne : k ≠ a'.1 := by
    rintro rfl
    rw [cell?_relocate, if_neg h.ids.symm] at hcell
    exact h.right hcell
  refine ⟨hne, ?_, ?_⟩
  · rw [cell?_relocate, if_neg hne]
    rw [cell?_relocate] at hcell
    split at hcell
    · rename_i hka
      exact hka ▸ h.left
    · rw [hcell]
      exact fun he => h.cells (Option.some.inj he)
  · rw [cell?_relocate, if_neg hne, hcell]
    exact fun he => h.cells (Option.some.inj he)

/-- The same entities drown at the one arrival before and after the other. -/
theorem drowned_arrive (h : Apart t.board a a') :
    φ.drowned ((t.arrive φ a.1 a.2).board.relocate a'.1 a'.2) a'.2 a'.1 =
      φ.drowned (t.board.relocate a'.1 a'.2) a'.2 a'.1 := by
  have hother : (t.board.relocate a'.1 a'.2).cell? a.1 ≠ some a'.2 := by
    rw [cell?_relocate, if_neg h.ids]
    exact h.left
  calc φ.drowned ((t.arrive φ a.1 a.2).board.relocate a'.1 a'.2) a'.2 a'.1
      = φ.drowned (((t.board.relocate a.1 a.2).relocate a'.1 a'.2).destroyAll
          (φ.drowned (t.board.relocate a.1 a.2) a.2 a.1)) a'.2 a'.1 := by
        rw [destroyAll_relocate_comm]; rfl
    _ = φ.drowned ((t.board.relocate a.1 a.2).relocate a'.1 a'.2) a'.2 a'.1 :=
        Physics.drowned_destroyAll fun k hk => (h.cell?_of_mem_drowned hk).2.2
    _ = φ.drowned ((t.board.relocate a'.1 a'.2).relocate a.1 a.2) a'.2 a'.1 := by
        rw [relocate_relocate_comm h.ids]
    _ = φ.drowned (t.board.relocate a'.1 a'.2) a'.2 a'.1 :=
        Physics.drowned_relocate hother h.cells

theorem board_arrive_arrive (h : Apart t.board a a') :
    ((t.arrive φ a.1 a.2).arrive φ a'.1 a'.2).board =
      (((t.board.relocate a.1 a.2).relocate a'.1 a'.2).destroyAll
        (φ.drowned (t.board.relocate a.1 a.2) a.2 a.1)).destroyAll
          (φ.drowned (t.board.relocate a'.1 a'.2) a'.2 a'.1) := by
  rw [← h.drowned_arrive, destroyAll_relocate_comm]
  rfl

/-- What is reported as destroyed at the one arrival is the same before and after the other. -/
theorem destroyed_arrive_arrive (h : Apart t.board a a') :
    ((t.arrive φ a.1 a.2).arrive φ a'.1 a'.2).destroyed = t.destroyed ++
      ((φ.drowned (t.board.relocate a.1 a.2) a.2 a.1).filter (· ∈ t.board.live)).map (·, a.2) ++
      ((φ.drowned (t.board.relocate a'.1 a'.2) a'.2 a'.1).filter (· ∈ t.board.live)).map
        (·, a'.2) := by
  have hlive : ∀ k ∈ φ.drowned (t.board.relocate a'.1 a'.2) a'.2 a'.1,
      (k ∈ (t.arrive φ a.1 a.2).board.live ↔ k ∈ t.board.live) := by
    intro k hk
    have hs : Stays (t.board.relocate a.1 a.2) (t.arrive φ a.1 a.2).board k :=
      stays_destroyAll fun hd => (h.cell?_of_mem_drowned hd.1).2.1 (Physics.cell?_of_mem_drowned hk)
    exact hs.live
  have hfilter : (φ.drowned (t.board.relocate a'.1 a'.2) a'.2 a'.1).filter
        (· ∈ (t.arrive φ a.1 a.2).board.live) =
      (φ.drowned (t.board.relocate a'.1 a'.2) a'.2 a'.1).filter (· ∈ t.board.live) :=
    List.filter_congr fun k hk => decide_eq_decide.mpr (hlive k hk)
  rw [destroyed_arrive, destroyed_arrive, h.drowned_arrive, hfilter]

theorem arrive_comm (h : Apart t.board a a') :
    SameButOrder ((t.arrive φ a.1 a.2).arrive φ a'.1 a'.2)
      ((t.arrive φ a'.1 a'.2).arrive φ a.1 a.2) where
  board := by
    rw [h.board_arrive_arrive, h.symm.board_arrive_arrive, relocate_relocate_comm h.ids,
      destroyAll_destroyAll_comm]
  moved := by
    rw [moved_arrive, moved_arrive, moved_arrive, moved_arrive, List.append_assoc, List.append_assoc]
    exact List.perm_append_comm.append_left _
  destroyed := by
    rw [h.destroyed_arrive_arrive, h.symm.destroyed_arrive_arrive, List.append_assoc,
      List.append_assoc]
    exact List.perm_append_comm.append_left _

end Apart

end Turn

end WordTiles
