import WordTiles.Play.Game
import WordTiles.Proofs.Movement.Steps
import WordTiles.Proofs.Rules.Reading

/-! A game as its host drives it: loading levels, which may be refused, acting, undoing, restarting and
fetching events, in any order. Whatever the host asks for, the rules in force are those that a reader
without a past reads off the board. -/

namespace WordTiles

/-- What a host can ask of a game. -/
inductive Request where
  | load (l : Level)
  | act (a : Action)
  | undo
  | restart
  | drain

/-- A request that goes on with the level in play. -/
def Request.isPlay : Request → Bool
  | load _ => false
  | _ => true

namespace Game

/-- A game before any level is loaded. -/
def fresh (s : Settings) : Game := { settings := s }

/-- The game after a request. A level that is refused, and an undo or a restart that has nothing to
go back to, leave it as it is. -/
def serve (g : Game) : Request → Game
  | .load l => match g.load l with
    | .ok g' => g'
    | .error _ => g
  | .act a => (g.act a).1
  | .undo => g.undo?.getD g
  | .restart => g.restart?.getD g
  | .drain => g.drain.2

def serveAll (g : Game) (rs : List Request) : Game := rs.foldl serve g

variable {g g' : Game} {l : Level} {d : Direction} {t : Turn}

/-! ### What a request can come to -/

theorem load_eq_ok (h : g.load l = .ok g') :
    g' = { g with
      board := (g.rules.update (layOut g.settings l)).rename (layOut g.settings l)
      rules := g.rules.update (layOut g.settings l)
      history := g.history.beginLevel
        ((g.rules.update (layOut g.settings l)).rename (layOut g.settings l))
      bounds := ⟨l.width, l.height⟩
      levelName := some l.name
      events := g.events ++ [.levelLoaded l.name] } := by
  rw [load] at h
  cases hv : l.validate with
  | error e => rw [hv] at h; cases h
  | ok _ =>
    rw [hv] at h
    exact (Except.ok.inj h).symm

theorem board_conclude : (g.conclude t).1.board =
    ((g.rules.update t.board).judge ((g.rules.update t.board).rename t.board)).board := rfl

theorem rules_conclude : (g.conclude t).1.rules = g.rules.update t.board := rfl

theorem settings_conclude : (g.conclude t).1.settings = g.settings := rfl

theorem history_conclude : (g.conclude t).1.history = g.history := rfl

theorem bounds_conclude : (g.conclude t).1.bounds = g.bounds := rfl

theorem levelName_conclude : (g.conclude t).1.levelName = g.levelName := rfl

/-- Opens a turn and closes it: the board is kept if something moves. -/
def keepTurn (g : Game) (moved : Bool) : Game :=
  { g with history := (g.history.openTurn g.board).closeTurn moved }

/-- A move finds nothing that is YOU, or moves nothing and leaves the board as it is, or moves
something and is concluded. -/
theorem move_cases (g : Game) (d : Direction) :
    g.move d = (g, .nothingMoved) ∨ g.move d = (g.keepTurn false, .nothingMoved) ∨
    g.move d = (g.keepTurn true).conclude (g.movement d) := by
  rw [move]
  split
  · exact .inl rfl
  · simp only
    split
    · rename_i hm
      have hb : g.movement d = { board := g.board } :=
        Turn.resolve_of_moved_nil (List.isEmpty_iff.mp hm)
      rw [hb]
      exact .inr (.inl rfl)
    · exact .inr (.inr rfl)

/-- Going back drops the latest turn of a history without an open one, or all turns. -/
theorem back_cases {h : History} {back : Board × History}
    (hb : h.undo? = some back ∨ h.restart? = some back) :
    (∃ past, h.past = back.1 :: past ∧ h.isOpen = false ∧ back.2 = { h with past }) ∨
      h.start = some back.1 ∧ back.2 = { h with past := [], isOpen := false } := by
  rcases hb with hb | hb
  · rw [History.undo?] at hb
    split at hb
    · cases hb
    · rename_i hopen
      split at hb
      · cases hb
      · rename_i b past hpast
        cases hb
        exact .inl ⟨past, hpast, Bool.eq_false_iff.mpr hopen, rfl⟩
  · rw [History.restart?] at hb
    obtain ⟨b, hs, rfl⟩ := Option.map_eq_some_iff.mp hb
    exact .inr ⟨hs, rfl⟩

/-! ### Invariants -/

/-- A property of games that every part of play keeps: opening and closing a turn, concluding a
movement, going back to a board of the history and fetching the events. -/
structure PlayInvariant (P : Game → Prop) : Prop where
  keepTurn : ∀ {g} moved, P g → P (g.keepTurn moved)
  conclude : ∀ {g} d, P g → P (g.conclude (g.movement d)).1
  resume : ∀ {g back}, P g → g.history.undo? = some back ∨ g.history.restart? = some back →
    P (g.resume back)
  drain : ∀ {g}, P g → P g.drain.2

/-- A property of games that loading a level keeps too. -/
structure Invariant (P : Game → Prop) : Prop extends PlayInvariant P where
  load : ∀ {g l g'}, P g → g.load l = .ok g' → P g'

namespace PlayInvariant

variable {P : Game → Prop}

theorem move (hP : PlayInvariant P) (h : P g) (d : Direction) : P (g.move d).1 := by
  rcases move_cases g d with he | he | he
  · rwa [he]
  · rw [he]
    exact hP.keepTurn false h
  · rw [he]
    exact hP.conclude d (hP.keepTurn true h)

theorem undo (hP : PlayInvariant P) (h : P g) : P (g.undo?.getD g) := by
  rw [undo?]
  cases hb : g.history.undo? with
  | none => exact h
  | some back => exact hP.resume h (.inl hb)

theorem restart (hP : PlayInvariant P) (h : P g) : P (g.restart?.getD g) := by
  rw [restart?]
  cases hb : g.history.restart? with
  | none => exact h
  | some back => exact hP.resume h (.inr hb)

theorem act (hP : PlayInvariant P) (h : P g) (a : Action) : P (g.act a).1 := by
  cases a with
  | move d => exact hP.move h d
  | undo => exact hP.undo h
  | restart => exact hP.restart h

theorem serve (hP : PlayInvariant P) (h : P g) {r : Request} (hr : r.isPlay) : P (g.serve r) := by
  cases r with
  | load l => cases hr
  | act a => exact hP.act h a
  | undo => exact hP.undo h
  | restart => exact hP.restart h
  | drain => exact hP.drain h

/-- What holds of a game and is kept by every part of play holds as long as no level is loaded. -/
theorem serveAll (hP : PlayInvariant P) (h : P g) {rs : List Request} (hrs : ∀ r ∈ rs, r.isPlay) :
    P (g.serveAll rs) := by
  induction rs generalizing g with
  | nil => exact h
  | cons r rs ih =>
    obtain ⟨hr, hrs⟩ := List.forall_mem_cons.mp hrs
    exact ih (hP.serve h hr) hrs

/-- Play that keeps each of a family of properties keeps it true that one of them holds. -/
theorem ofFamily {ι : Type} {P : ι → Game → Prop} (hP : ∀ i, PlayInvariant (P i)) :
    PlayInvariant fun g => ∃ i, P i g where
  keepTurn moved h := h.imp fun i h => (hP i).keepTurn moved h
  conclude d h := h.imp fun i h => (hP i).conclude d h
  resume h hb := h.imp fun i h => (hP i).resume h hb
  drain h := h.imp fun i h => (hP i).drain h

end PlayInvariant

namespace Invariant

variable {P : Game → Prop}

theorem serve (hP : Invariant P) (h : P g) (r : Request) : P (g.serve r) := by
  cases r with
  | load l =>
    rw [Game.serve]
    split
    · exact hP.load h ‹_›
    · exact h
  | act a => exact hP.toPlayInvariant.serve h (r := .act a) rfl
  | undo => exact hP.toPlayInvariant.serve h (r := .undo) rfl
  | restart => exact hP.toPlayInvariant.serve h (r := .restart) rfl
  | drain => exact hP.toPlayInvariant.serve h (r := .drain) rfl

/-- What holds of a game and is kept by every part of a request holds after any requests. -/
theorem serveAll (hP : Invariant P) (h : P g) (rs : List Request) : P (g.serveAll rs) := by
  induction rs generalizing g with
  | nil => exact h
  | cons r rs ih => exact ih (hP.serve h r)

end Invariant

/-! ### Settings stay -/

/-- The game has these settings, and its history has their limit. -/
structure HasSettings (s : Settings) (g : Game) : Prop where
  settings : g.settings = s
  limit : g.history.limit = s.historyLimit

theorem hasSettings_fresh (s : Settings) : (fresh s).HasSettings s := ⟨rfl, rfl⟩

theorem limit_of_back {h : History} {back : Board × History}
    (hb : h.undo? = some back ∨ h.restart? = some back) : back.2.limit = h.limit := by
  rcases back_cases hb with ⟨past, -, -, he⟩ | ⟨-, he⟩
  · rw [he]
  · rw [he]

theorem invariant_hasSettings (s : Settings) : Invariant (HasSettings s) where
  load h hl := by
    rw [load_eq_ok hl]
    exact ⟨h.settings, h.limit⟩
  keepTurn _ h := ⟨h.settings, h.limit⟩
  conclude _ h := ⟨settings_conclude.trans h.settings, by rw [history_conclude, h.limit]⟩
  resume h hb := ⟨h.settings, (limit_of_back hb).trans h.limit⟩
  drain h := ⟨h.settings, h.limit⟩

/-! ### The rules in force -/

/-- The rules in force are those that the board spells now. -/
def IsCurrent (g : Game) : Prop := g.rules = Rulebook.ofBoard g.settings.operator g.board

theorem isCurrent_fresh (s : Settings) : (fresh s).IsCurrent := Rulebook.ofBoard_empty.symm

namespace IsCurrent

theorem congr (h : g.IsCurrent) (hs : g'.settings = g.settings) (hb : g'.board = g.board)
    (hr : g'.rules = g.rules) : g'.IsCurrent := by
  rw [IsCurrent, hs, hb, hr]
  exact h

theorem operator_eq (h : g.IsCurrent) : g.rules.operator = g.settings.operator := by
  rw [show g.rules = _ from h]
  rfl

theorem update_eq (h : g.IsCurrent) (b : Board) :
    g.rules.update b = Rulebook.ofBoard g.settings.operator b := by
  rw [Rulebook.update, h.operator_eq]

theorem load (h : g.IsCurrent) (hl : g.load l = .ok g') : g'.IsCurrent := by
  rw [load_eq_ok hl, IsCurrent]
  simp only [h.update_eq]
  exact (Rulebook.ofBoard_of_sameWords (Rulebook.sameWords_rename _ _)).symm

theorem resume (h : g.IsCurrent) (back : Board × History) : (g.resume back).IsCurrent :=
  h.update_eq back.1

/-- The renaming and the verdict come after the rules have been read, and change no word. -/
theorem conclude (h : g.IsCurrent) (t : Turn) : (g.conclude t).1.IsCurrent := by
  rw [IsCurrent, rules_conclude, settings_conclude, board_conclude, h.update_eq]
  exact (Rulebook.ofBoard_of_sameWords
    ((Rulebook.sameWords_rename _ _).trans (Rulebook.sameWords_judge _ _))).symm

theorem keepTurn (h : g.IsCurrent) (moved : Bool) : (g.keepTurn moved).IsCurrent :=
  h.congr rfl rfl rfl

end IsCurrent

theorem invariant_isCurrent : Invariant IsCurrent where
  load h hl := h.load hl
  keepTurn moved h := h.keepTurn moved
  conclude _ h := h.conclude _
  resume h _ := h.resume _
  drain h := h

/-- Whatever a host has asked of a game, the rules in force are those that a reader with nothing but
the linking word reads off the board. -/
theorem rules_serveAll (s : Settings) (rs : List Request) :
    ((fresh s).serveAll rs).rules =
      ({ operator := s.operator } : Rulebook).update ((fresh s).serveAll rs).board := by
  have hset := (invariant_hasSettings s).serveAll (hasSettings_fresh s) rs
  have hrules := invariant_isCurrent.serveAll (isCurrent_fresh s) rs
  rw [IsCurrent, hset.settings] at hrules
  exact hrules

end Game

end WordTiles
