import WordTiles.Proofs.Play.Boards

/-! Loading a level. A level is refused exactly if it has no cells or a layer of another size, and then
nothing happens. Otherwise the game begins anew: whatever was played before, it is the same game but for
the events that still wait, with the pieces of the level in reading order and nothing to take back. -/

namespace WordTiles.Game

open Board Level

variable {g g' : Game} {s : Settings} {l : Level}

/-- The game as a level begins, with no event waiting. -/
def opening (s : Settings) (l : Level) : Game :=
  let rules := Rulebook.ofBoard s.operator (layOut s l)
  let board := rules.rename (layOut s l)
  { settings := s
    board
    rules
    history := { start := some board, limit := s.historyLimit }
    bounds := l.bounds
    levelName := some l.name }

/-! ### The opening -/

theorem isCurrent_opening (s : Settings) (l : Level) : (opening s l).IsCurrent :=
  (Rulebook.ofBoard_of_sameWords (Rulebook.sameWords_rename _ _)).symm

theorem consists_opening (hl : l.IsShaped) : (opening s l).board.Consists s.operator
    (opening s l).rules.renames.follow (l.pieces s) :=
  (consists_layOut hl).rename _

/-! ### Loading -/

/-- A game with these settings that has its rules from its board begins a level like any other. -/
theorem load_of_isShaped (hset : g.HasSettings s) (hc : g.IsCurrent) (hl : l.IsShaped) :
    g.load l = .ok { opening s l with events := g.events ++ [.levelLoaded l.name] } := by
  obtain ⟨rfl, hlimit⟩ := hset
  have hok : ∃ g', g.load l = .ok g' := by
    rw [load, validate_eq_ok_iff.mpr hl]
    exact ⟨_, rfl⟩
  obtain ⟨g', hg'⟩ := hok
  rw [hg', load_eq_ok hg', hc.update_eq, History.beginLevel, hlimit]
  rfl

theorem isError_load_iff : (∃ e, g.load l = .error e) ↔ ¬ l.IsShaped := by
  constructor
  · rintro ⟨e, he⟩ hl
    rw [load, validate_eq_ok_iff.mpr hl] at he
    cases he
  · intro hl
    cases h : g.load l with
    | error e => exact ⟨e, rfl⟩
    | ok g' => exact absurd (isShaped_of_load h) hl

theorem not_isShaped_iff : ¬ l.IsShaped ↔ l.width = 0 ∨ l.height = 0 ∨
    ∃ layer, ¬ IsRectangle l.width l.height (l.layer layer) := by
  have hlayers : (∀ layer, IsRectangle l.width l.height (l.layer layer)) ↔
      IsRectangle l.width l.height l.things ∧ IsRectangle l.width l.height l.words :=
    ⟨fun h => ⟨h .things, h .words⟩, fun h layer => layer.casesOn h.1 h.2⟩
  rw [← not_iff_not, not_not, not_or, not_or, not_exists_not, hlayers]
  exact ⟨fun h => ⟨h.width, h.height, h.things, h.words⟩, fun h => ⟨h.1, h.2.1, h.2.2.1, h.2.2.2⟩⟩

/-- Whatever a host has asked of a game, a level is refused exactly if its size is zero or a layer has not
that size, and then the game stays as it was. Any other level begins with its opening and one more event:
the board has exactly the pieces of the level, its things renamed by the rules it spells, and is the board
to restart from, and no turn can be taken back. -/
theorem load_exactly (s : Settings) (rs : List Request) (l : Level) :
    let g := (fresh s).serveAll rs
    let refused := l.width = 0 ∨ l.height = 0 ∨
      ∃ layer, ¬ IsRectangle l.width l.height (l.layer layer)
    ((∃ e, g.load l = .error e) ↔ refused) ∧ (refused → g.serve (.load l) = g) ∧
    (¬ refused →
      g.load l = .ok { opening s l with events := g.events ++ [.levelLoaded l.name] } ∧
      (opening s l).board.Consists s.operator (opening s l).rules.renames.follow (l.pieces s) ∧
      (opening s l).rules = Rulebook.ofBoard s.operator (opening s l).board ∧
      (opening s l).undoDepth = 0 ∧
      (opening s l).history.start = some (opening s l).board) := by
  intro g refused
  have hset : g.HasSettings s := (invariant_hasSettings s).serveAll (hasSettings_fresh s) rs
  have hc : g.IsCurrent := invariant_isCurrent.serveAll (isCurrent_fresh s) rs
  have hrefused : (∃ e, g.load l = .error e) ↔ refused := isError_load_iff.trans not_isShaped_iff
  refine ⟨hrefused, fun h => ?_, fun h => ?_⟩
  · obtain ⟨e, he⟩ := hrefused.mpr h
    rw [serve, he]
  · have hl : l.IsShaped := not_not.mp (mt not_isShaped_iff.mp h)
    exact ⟨load_of_isShaped hset hc hl, consists_opening hl, isCurrent_opening s l, rfl, rfl⟩

end WordTiles.Game
