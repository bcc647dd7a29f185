import WordTiles.Proofs.Play.Layout
import WordTiles.Proofs.Play.Requests

/-! The boards that a game keeps: the current one, the one as the level began and those of its history.
Play makes new boards out of the current one by the changes of a turn, and otherwise only goes back to
a board it kept. So what the laying out of a level gives and those changes keep holds of all of them:
they are sound, no entity is ever added, and the word tiles are those of the level. -/

namespace WordTiles.Game

open Board

variable {β : Bounds} {P : Board → Prop} {g g' : Game} {l : Level} {s : Settings}

/-- The current board, the board as the level began, and those of the history. -/
def boards (g : Game) : List Board := g.board :: (g.history.start.toList ++ g.history.past)

/-- The game is played within these bounds, and every board that it keeps has the property. -/
structure AllBoards (β : Bounds) (P : Board → Prop) (g : Game) : Prop where
  bounds : g.bounds = β
  current : P g.board
  start : ∀ b, g.history.start = some b → P b
  past : ∀ b ∈ g.history.past, P b

theorem AllBoards.of_mem (h : g.AllBoards β P) : ∀ b ∈ g.boards, P b := by
  intro b hb
  simp only [boards, List.mem_cons, List.mem_append, Option.mem_toList] at hb
  rcases hb with rfl | hb | hb
  · exact h.current
  · exact h.start b hb
  · exact h.past b hb

/-! ### What the history keeps -/

/-- A turn that is opened and closed adds at most the current board. -/
theorem mem_past_keepTurn {moved : Bool} {b : Board}
    (hb : b ∈ (g.keepTurn moved).history.past) : b = g.board ∨ b ∈ g.history.past := by
  have hcommitted : ∀ b ∈ g.history.committed, b ∈ g.history.past := fun b hb => by
    rw [History.committed] at hb
    split at hb
    · exact List.mem_of_mem_tail hb
    · exact hb
  have htrim : ∀ past : List Board, ∀ b ∈ g.history.trim past, b ∈ past := fun past b hb => by
    rw [History.trim] at hb
    split at hb
    · exact List.mem_of_mem_take hb
    · exact hb
  have hmem : b ∈ g.board :: g.history.committed := by
    cases moved with
    | false => exact List.mem_cons_of_mem _ hb
    | true => exact htrim _ b hb
  exact (List.mem_cons.mp hmem).imp_right (hcommitted b)

theorem mem_of_back {h : History} {back : Board × History}
    (hb : h.undo? = some back ∨ h.restart? = some back) :
    (back.1 ∈ h.past ∨ h.start = some back.1) ∧ back.2.start = h.start ∧
      ∀ b ∈ back.2.past, b ∈ h.past := by
  rcases back_cases hb with ⟨past, hpast, -, he⟩ | ⟨hs, he⟩
  · rw [he, hpast]
    exact ⟨.inl List.mem_cons_self, rfl, fun b hb => List.mem_cons_of_mem _ hb⟩
  · rw [he]
    exact ⟨.inr hs, rfl, fun b hb => absurd hb List.not_mem_nil⟩

namespace AllBoards

theorem keepTurn (h : g.AllBoards β P) (moved : Bool) : (g.keepTurn moved).AllBoards β P where
  bounds := h.bounds
  current := h.current
  start := h.start
  past b hb := by
    rcases mem_past_keepTurn hb with rfl | hb
    · exact h.current
    · exact h.past b hb

/-- A movement that is concluded adds no board but the one that it leaves. -/
theorem conclude (h : g.AllBoards β P) {t : Turn} (ht : P (g.conclude t).1.board) :
    (g.conclude t).1.AllBoards β P where
  bounds := bounds_conclude.trans h.bounds
  current := ht
  start := by rw [history_conclude]; exact h.start
  past := by rw [history_conclude]; exact h.past

theorem resume (h : g.AllBoards β P) {back : Board × History}
    (hb : g.history.undo? = some back ∨ g.history.restart? = some back) :
    (g.resume back).AllBoards β P := by
  obtain ⟨hback, hstart, hpast⟩ := mem_of_back hb
  refine ⟨h.bounds, ?_, fun b hs => h.start b (hstart ▸ hs), fun b hm => h.past b (hpast b hm)⟩
  exact hback.elim (h.past _) (h.start _)

end AllBoards

/-- What the changes of a turn keep holds of all boards as long as no level is loaded. -/
theorem playInvariant_allBoards (hP : Board.Invariant β P) : PlayInvariant (AllBoards β P) where
  keepTurn moved h := h.keepTurn moved
  conclude := by
    intro g d h
    have hturn : P (g.movement d).board := by
      obtain ⟨rfl, hcurrent, -, -⟩ := h
      exact Board.Invariant.resolve (φ := g.settings.physics g.rules.properties g.bounds) hP hcurrent
    apply h.conclude
    rw [board_conclude]
    exact hP.judge _ (hP.rename _ hturn)
  resume h hb := h.resume hb
  drain h := ⟨h.bounds, h.current, h.start, h.past⟩

/-! ### Sound boards -/

theorem isShaped_of_load (h : g.load l = .ok g') : l.IsShaped := by
  rw [← Level.validate_eq_ok_iff]
  rw [load] at h
  cases hv : l.validate with
  | error e => rw [hv] at h; cases h
  | ok _ => rfl

/-- A level that has just been loaded is kept as it was laid out, with the things renamed. -/
theorem allBoards_load (hs : g.settings = s) (h : g.load l = .ok g') :
    g'.AllBoards l.bounds (SoundSince l.bounds s.operator (layOut s l)) := by
  have hlaid : SoundSince l.bounds s.operator (layOut s l) (layOut s l) :=
    ⟨sound_layOut (isShaped_of_load h), rfl, rfl⟩
  have hrenamed := (invariant_soundSince l.bounds s.operator (layOut s l)).rename
    (g.rules.update (layOut s l)) hlaid
  rw [load_eq_ok h, hs]
  exact ⟨rfl, hrenamed, fun b hb => Option.some.inj hb ▸ hrenamed,
    fun b hb => absurd hb List.not_mem_nil⟩

/-- All boards are sound, whatever was loaded last. -/
def HasSoundBoards (g : Game) : Prop :=
  ∃ β operator o, g.AllBoards β (SoundSince β operator o)

theorem hasSoundBoards_fresh (s : Settings) : (fresh s).HasSoundBoards :=
  ⟨⟨0, 0⟩, s.operator, ∅, {
    bounds := rfl
    current := ⟨sound_empty, rfl, rfl⟩
    start := fun b hb => by cases hb
    past := fun b hb => absurd hb List.not_mem_nil }⟩

theorem invariant_hasSoundBoards : Invariant HasSoundBoards where
  toPlayInvariant := .ofFamily fun β => .ofFamily fun operator => .ofFamily fun o =>
    playInvariant_allBoards (invariant_soundSince β operator o)
  load _ hl := ⟨_, _, _, allBoards_load rfl hl⟩

/-- From the loading of a level on, whatever came before it, every board that a game keeps is sound,
has no entity that the level did not bring, and has the word tiles of the level, unchanged. -/
theorem boards_soundSince (s : Settings) (rs : List Request) (l : Level) (g : Game)
    (hl : ((fresh s).serveAll rs).load l = .ok g) (qs : List Request)
    (hqs : ∀ r ∈ qs, r.isPlay) :
    (g.serveAll qs).bounds = ⟨l.width, l.height⟩ ∧ ∀ b ∈ (g.serveAll qs).boards,
      SoundSince ⟨l.width, l.height⟩ s.operator (layOut s l) b := by
  have hset := (invariant_hasSettings s).serveAll (hasSettings_fresh s) rs
  have hinv := invariant_soundSince l.bounds s.operator (layOut s l)
  have hall := (playInvariant_allBoards hinv).serveAll (allBoards_load hset.settings hl) hqs
  exact ⟨hall.bounds, hall.of_mem⟩

/-- A rock that is YOU beside water that sinks, with the words that say so below. -/
def pondLevel : Level := .ofRows "Pond" 3 3 [['r', 'a']] [[], ['R', 'I', 'Y'], ['A', 'I', 'N']]

def pondGame : Game := (fresh {}).serveAll [.load pondLevel]

/-- The rock drowns, comes back and drowns again. -/
theorem pond_boards_soundSince :
    let qs : List Request := [.act (.move .right), .drain, .undo, .act (.move .right)]
    (fresh {}).load pondLevel = .ok pondGame ∧ (∀ r ∈ qs, r.isPlay) ∧
      (pondGame.serveAll qs).boards.map (fun b => b.live.size) = [6, 8, 8] ∧
      ∀ b ∈ (pondGame.serveAll qs).boards,
        SoundSince ⟨3, 3⟩ "Is" (layOut {} pondLevel) b := by
  intro qs
  have hl : ((fresh {}).serveAll []).load pondLevel = .ok pondGame := rfl
  have hqs : ∀ r ∈ qs, r.isPlay := by simp [qs, Request.isPlay]
  exact ⟨hl, hqs, by decide +kernel, (boards_soundSince {} [] pondLevel pondGame hl qs hqs).2⟩

end WordTiles.Game
