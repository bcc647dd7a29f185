import WordTiles.Proofs.Movement.Freedom
import WordTiles.Proofs.Play.Boards
import WordTiles.Proofs.Play.Chronicle

/-! Moves that move nothing. A move comes to nothing exactly if every YOU thing is stuck on the board as
it stands, and then it leaves no trace: not on the board, where every attempt has been given up as a
whole, and not in the history, where the turn that was opened is closed again. -/

namespace WordTiles.Game

open Board

variable {g : Game} {d : Direction} {m : EntityId}

/-- What movement goes by in the game as it stands. -/
def physics (g : Game) : Physics := g.settings.physics g.rules.properties g.bounds

/-! ### No turn stays open -/

theorem isOpen_of_back {h : History} {back : Board × History}
    (hb : h.undo? = some back ∨ h.restart? = some back) : back.2.isOpen = false := by
  rcases back_cases hb with ⟨past, -, hopen, he⟩ | ⟨-, he⟩
  · rw [he]
    exact hopen
  · rw [he]

theorem invariant_isClosed : Invariant fun g => g.history.isOpen = false where
  keepTurn _ _ := rfl
  conclude _ h := by rw [history_conclude, h]
  resume _ hb := isOpen_of_back hb
  drain h := h
  load _ hl := by
    rw [load_eq_ok hl]
    rfl

/-! ### When nothing moves -/

theorem result_move_iff : (g.move d).2 = .nothingMoved ↔ (g.movement d).moved = [] := by
  rw [move]
  split
  · rename_i hyou
    have hnil : (g.movement d).moved = [] := by
      rw [movement, List.isEmpty_iff.mp hyou]
      rfl
    exact iff_of_true rfl hnil
  · simp only
    split
    · rename_i hm
      exact iff_of_true rfl (List.isEmpty_iff.mp hm)
    · rename_i hm
      exact iff_of_false result_conclude_ne fun h => hm (List.isEmpty_iff.mpr h)

/-- On sound boards every YOU thing is live and stands somewhere. -/
theorem stands_of_mem_youEntities (h : g.HasSoundBoards) (hm : m ∈ g.youEntities) :
    m ∈ g.board.live ∧ ∃ p, g.board.cell? m = some p := by
  obtain ⟨β, operator, o, hall⟩ := h
  have hyou := PropertyTable.mem_entitiesWith.mp hm
  obtain ⟨-, name, hn, -⟩ := PropertyTable.mem_ofEntity.mp hyou
  have hl := hall.current.live_of_name m name hn
  obtain ⟨p, hp, -⟩ := hall.current.stands m hl
  exact ⟨hl, p, hp⟩

theorem moved_movement_eq_nil_iff (h : g.HasSoundBoards) :
    (g.movement d).moved = [] ↔ ∀ m ∈ g.youEntities, g.physics.IsStuck d g.board m := by
  rw [movement, Turn.resolve_moved_eq_nil_iff]
  refine forall₂_congr fun m hm => ?_
  obtain ⟨hl, p, hp⟩ := stands_of_mem_youEntities h hm
  rw [Physics.isStuck_iff hp]
  exact ⟨fun hfree => hfree hl, fun hfree _ => hfree⟩

theorem move_eq_self (hc : g.history.isOpen = false) (h : (g.move d).2 = .nothingMoved) :
    (g.move d).1 = g := by
  rcases move_cases g d with he | he | he
  · rw [he]
  · rw [he, keepTurn, History.closeTurn_false_openTurn hc]
  · rw [he] at h
    exact absurd h result_conclude_ne

/-- Whatever a host has asked of a game, a move then moves nothing exactly if all YOU things are stuck;
and an action that comes to nothing leaves the whole game as it was. -/
theorem nothingMoved_iff_isStuck (s : Settings) (rs : List Request) (d : Direction) :
    let g := (fresh s).serveAll rs
    ((g.act (.move d)).2 = .nothingMoved ↔
      ∀ m ∈ g.youEntities, g.physics.IsStuck d g.board m) ∧
    ∀ a, (g.act a).2 = .nothingMoved → (g.act a).1 = g := by
  intro g
  have hsound : g.HasSoundBoards := invariant_hasSoundBoards.serveAll (hasSoundBoards_fresh s) rs
  have hclosed : g.history.isOpen = false := invariant_isClosed.serveAll (g := fresh s) rfl rs
  refine ⟨result_move_iff.trans (moved_movement_eq_nil_iff hsound), fun a ha => ?_⟩
  cases a with
  | move d => exact move_eq_self hclosed ha
  | undo => cases ha
  | restart => cases ha

end WordTiles.Game
