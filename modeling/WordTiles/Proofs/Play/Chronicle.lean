import WordTiles.Proofs.Play.Requests

/-! Undo and restart against a machine that keeps whole scenes, a board together with its rules. The
history of a game keeps boards only, and reads the rules anew when it goes back to one; as the rules in
force are always those of the board, this gives back the very rules that were in force then. -/

namespace WordTiles

/-- A board and the rules in force on it. -/
structure Scene where
  board : Board
  rules : Rulebook

/-- Acts one after the other; the state in the end, and what each act came to. -/
def actAll {σ : Type} (act : σ → Action → σ × TurnResult) (s : σ) :
    List Action → σ × List TurnResult
  | [] => (s, [])
  | a :: as =>
    let next := act s a
    let rest := actAll act next.1 as
    (rest.1, next.2 :: rest.2)

/-- One undo for each turn that moved something. -/
def undosFor (results : List TurnResult) : List Action :=
  List.replicate (results.countP (· ≠ .nothingMoved)) .undo

theorem undosFor_nothingMoved {results : List TurnResult} :
    undosFor (.nothingMoved :: results) = undosFor results := rfl

theorem undosFor_of_ne {r : TurnResult} {results : List TurnResult} (h : r ≠ .nothingMoved) :
    undosFor (r :: results) = undosFor results ++ [.undo] := by
  rw [undosFor, undosFor, List.countP_cons_of_pos (by simpa using h), List.replicate_succ']

section

variable {σ : Type} {act : σ → Action → σ × TurnResult} {s : σ}

theorem actAll_cons {a : Action} {as : List Action} : actAll act s (a :: as) =
    ((actAll act (act s a).1 as).1, (act s a).2 :: (actAll act (act s a).1 as).2) := rfl

theorem actAll_append {as bs : List Action} :
    (actAll act s (as ++ bs)).1 = (actAll act (actAll act s as).1 bs).1 := by
  induction as generalizing s with
  | nil => rfl
  | cons a as ih => exact ih

end

def Game.scene (g : Game) : Scene := ⟨g.board, g.rules⟩

/-- A machine that plays a level and keeps the scenes before each turn, the latest first. -/
structure Chronicle where
  settings : Settings
  bounds : Bounds
  /-- The scene as the level began. -/
  start : Scene
  current : Scene
  past : List Scene := []

namespace Chronicle

/-- Begins with the scene of a game and nothing before it. -/
def ofGame (g : Game) : Chronicle :=
  { settings := g.settings, bounds := g.bounds, start := g.scene, current := g.scene }

/-- A game with the current scene that remembers nothing. -/
def game (k : Chronicle) : Game :=
  { settings := k.settings, board := k.current.board, rules := k.current.rules, bounds := k.bounds }

/-- Drops the oldest scenes until no more than `n` are left. -/
def dropOldest (n : Nat) (past : List Scene) : List Scene :=
  if past.length ≤ n then past else dropOldest n past.dropLast
termination_by past.length
decreasing_by rw [List.length_dropLast]; omega

/-- The scenes that are kept under a limit, if there is one. -/
def keep : Option Nat → List Scene → List Scene
  | none, past => past
  | some n, past => dropOldest n past

/-- A move that moves something keeps the scene before it; an undo makes the latest scene kept the
current one; a restart forgets them all. -/
def act (k : Chronicle) : Action → Chronicle × TurnResult
  | .move d =>
    let next := k.game.move d
    if next.2 = .nothingMoved then (k, next.2)
    else ({ k with
      current := next.1.scene
      past := keep k.settings.historyLimit (k.current :: k.past) }, next.2)
  | .undo => match k.past with
    | [] => (k, .carriedOn)
    | s :: past => ({ k with current := s, past }, .carriedOn)
  | .restart => ({ k with current := k.start, past := [] }, .carriedOn)

theorem act_move_of_eq {k : Chronicle} {d : Direction} (h : (k.game.move d).2 = .nothingMoved) :
    k.act (.move d) = (k, .nothingMoved) := by
  simp only [act, h, if_true]

theorem act_move_of_ne {k : Chronicle} {d : Direction} (h : (k.game.move d).2 ≠ .nothingMoved) :
    k.act (.move d) = ({ k with
      current := (k.game.move d).1.scene
      past := keep k.settings.historyLimit (k.current :: k.past) }, (k.game.move d).2) := by
  simp only [act, h, if_false]

theorem dropOldest_eq_take (n : Nat) (past : List Scene) : dropOldest n past = past.take n := by
  fun_induction dropOldest n past with
  | case1 past hle => exact (List.take_of_length_le hle).symm
  | case2 past hle ih =>
    rw [ih, List.dropLast_eq_take, List.take_take]
    congr 1
    omega

/-- With nothing dropped, as many undos as there were moves that moved something lead back. -/
theorem actAll_moves_undos (k : Chronicle) (hlimit : k.settings.historyLimit = none)
    (ds : List Direction) :
    (actAll act (actAll act k (ds.map .move)).1
      (undosFor (actAll act k (ds.map .move)).2)).1 = k := by
  induction ds generalizing k with
  | nil => rfl
  | cons d ds ih =>
    rw [List.map_cons, actAll_cons]
    by_cases hd : (k.game.move d).2 = .nothingMoved
    · rw [act_move_of_eq hd, undosFor_nothingMoved]
      exact ih k hlimit
    · rw [act_move_of_ne hd, undosFor_of_ne hd, actAll_append]
      dsimp only
      rw [ih _ (by exact hlimit), hlimit]
      -- The last undo takes back the first move.
      rfl

theorem mem_of_mem_keep {limit : Option Nat} {past : List Scene} {s : Scene}
    (h : s ∈ keep limit past) : s ∈ past := by
  cases limit with
  | none => exact h
  | some n =>
    rw [keep, dropOldest_eq_take] at h
    exact List.mem_of_mem_take h

end Chronicle

/-! ### The history of a turn that is closed -/

namespace History

variable {h : History} {b : Board}

theorem closeTurn_false_openTurn (hc : h.isOpen = false) : (h.openTurn b).closeTurn false = h := by
  cases h
  cases hc
  rfl

theorem closeTurn_true_openTurn (hc : h.isOpen = false) :
    (h.openTurn b).closeTurn true = { h with past := h.trim (b :: h.past) } := by
  cases h
  cases hc
  rfl

theorem depth_of_closed (hc : h.isOpen = false) : h.depth = h.past.length := by
  rw [depth, committed, hc]
  rfl

theorem undo?_of_closed (hc : h.isOpen = false) : h.undo? = match h.past with
    | [] => none
    | b :: past => some (b, { h with past }) := by
  rw [undo?, hc]
  rfl

end History

namespace Game

variable {g g' : Game} {k : Chronicle} {d : Direction} {t : Turn}

/-! ### What a move depends on -/

theorem result_conclude : (g.conclude t).2 =
    match ((g.rules.update t.board).judge ((g.rules.update t.board).rename t.board)).outcome with
    | .win => .won
    | .lose => .lost
    | .playing => .moved := by
  rw [conclude]
  cases ((g.rules.update t.board).judge ((g.rules.update t.board).rename t.board)).outcome <;> rfl

theorem result_conclude_ne : (g.conclude t).2 ≠ .nothingMoved := by
  rw [result_conclude]
  split <;> exact fun h => by cases h

/-- What a move comes to, and the scene after it, depend on the settings, the bounds and the scene
before it, and not on anything that a game remembers. -/
theorem move_of_scene (hs : g'.settings = g.settings) (hb : g'.bounds = g.bounds)
    (hscene : g'.scene = g.scene) :
    (g'.move d).2 = (g.move d).2 ∧ (g'.move d).1.scene = (g.move d).1.scene := by
  have hboard : g'.board = g.board := congrArg Scene.board hscene
  have hrules : g'.rules = g.rules := congrArg Scene.rules hscene
  have hyou : g'.youEntities = g.youEntities := by rw [youEntities, youEntities, hboard, hrules]
  have hturn : g'.movement d = g.movement d := by
    rw [movement, movement, hs, hb, hboard, hrules, hyou]
  simp only [move, hyou, hturn]
  split
  · exact ⟨rfl, hscene⟩
  · split
    · exact ⟨rfl, by simp only [scene, hrules]⟩
    · simp only [result_conclude, scene, board_conclude, rules_conclude, hrules, and_self]

/-- A turn that is concluded adds the board before it to a closed history. -/
theorem history_conclude_keepTurn (hc : g.history.isOpen = false) :
    ((g.keepTurn true).conclude t).1.history =
      { g.history with past := g.history.trim (g.board :: g.history.past) } := by
  rw [history_conclude, keepTurn, History.closeTurn_true_openTurn hc]

/-! ### The game and its chronicle -/

/-- The game stands where its chronicle does, and its history keeps the boards of the scenes. -/
structure Follows (g : Game) (k : Chronicle) : Prop where
  settings : g.settings = k.settings
  bounds : g.bounds = k.bounds
  scene : g.scene = k.current
  closed : g.history.isOpen = false
  limit : g.history.limit = k.settings.historyLimit
  start : g.history.start = some k.start.board
  past : g.history.past = k.past.map Scene.board
  /-- Every scene that is kept has the rules that its board spells. -/
  read : ∀ s ∈ k.start :: k.current :: k.past,
    s.rules = Rulebook.ofBoard k.settings.operator s.board

namespace Follows

theorem isCurrent (h : g.Follows k) : g.IsCurrent := by
  have hr := h.read k.current (by simp)
  rwa [← h.scene, ← h.settings] at hr

theorem depth (h : g.Follows k) : g.undoDepth = k.past.length := by
  rw [undoDepth, History.depth_of_closed h.closed, h.past, List.length_map]

theorem board (h : g.Follows k) : g.board = k.current.board := congrArg Scene.board h.scene

theorem trim (h : g.Follows k) : g.history.trim (g.board :: g.history.past) =
    (Chronicle.keep k.settings.historyLimit (k.current :: k.past)).map Scene.board := by
  rw [History.trim, h.limit, h.board, h.past, ← List.map_cons]
  cases k.settings.historyLimit with
  | none => rfl
  | some n =>
    rw [Chronicle.keep, Chronicle.dropOldest_eq_take, List.map_take]

theorem keepTurn_false (h : g.Follows k) : (g.keepTurn false).Follows k := by
  rw [keepTurn, History.closeTurn_false_openTurn h.closed]
  exact h

/-- A move that is concluded keeps the scene before it, in the game and in the chronicle. -/
theorem conclude (h : g.Follows k) {t : Turn} {s : Scene}
    (hs : ((g.keepTurn true).conclude t).1.scene = s) :
    ((g.keepTurn true).conclude t).1.Follows
      { k with
        current := s
        past := Chronicle.keep k.settings.historyLimit (k.current :: k.past) } where
  settings := h.settings
  bounds := h.bounds
  scene := hs
  closed := by
    rw [history_conclude_keepTurn h.closed]
    exact h.closed
  limit := by
    rw [history_conclude_keepTurn h.closed]
    exact h.limit
  start := by
    rw [history_conclude_keepTurn h.closed]
    exact h.start
  past := by
    rw [history_conclude_keepTurn h.closed]
    exact h.trim
  read x hx := by
    simp only [List.mem_cons] at hx
    rcases hx with rfl | rfl | hx
    · exact h.read _ (by simp)
    · have hr := (h.isCurrent.keepTurn true).conclude t
      rw [IsCurrent, settings_conclude, keepTurn, h.settings] at hr
      rw [← hs]
      exact hr
    · exact h.read x (List.mem_cons_of_mem _ (Chronicle.mem_of_mem_keep hx))

theorem move (h : g.Follows k) (d : Direction) :
    (g.move d).2 = (k.act (.move d)).2 ∧ (g.move d).1.Follows (k.act (.move d)).1 := by
  obtain ⟨hres, hscene⟩ := move_of_scene (g := k.game) (d := d) h.settings h.bounds h.scene
  rcases move_cases g d with he | he | he
  · rw [he] at hres ⊢
    rw [Chronicle.act_move_of_eq hres.symm]
    exact ⟨rfl, h⟩
  · rw [he] at hres ⊢
    rw [Chronicle.act_move_of_eq hres.symm]
    exact ⟨rfl, h.keepTurn_false⟩
  · rw [he] at hres hscene ⊢
    rw [Chronicle.act_move_of_ne (hres ▸ result_conclude_ne)]
    exact ⟨hres, h.conclude hscene⟩

theorem resume (h : g.Follows k) {s : Scene} {past : List Scene}
    (hs : s ∈ k.start :: k.current :: k.past) (hpast : ∀ x ∈ past, x ∈ k.past) :
    (g.resume (s.board, { g.history with past := past.map Scene.board, isOpen := false })).Follows
      { k with current := s, past } where
  settings := h.settings
  bounds := h.bounds
  scene := by
    have hr := h.isCurrent.update_eq s.board
    rw [h.settings, ← h.read s hs] at hr
    rw [Game.scene, Game.resume, hr]
  closed := rfl
  limit := h.limit
  start := h.start
  past := rfl
  read x hx := by
    simp only [List.mem_cons] at hx
    rcases hx with rfl | rfl | hx
    · exact h.read _ (by simp)
    · exact h.read _ hs
    · exact h.read x (by simp [hpast x hx])

theorem undo (h : g.Follows k) :
    (g.act .undo).2 = (k.act .undo).2 ∧ (g.act .undo).1.Follows (k.act .undo).1 := by
  rw [Game.act, Game.undo?, History.undo?_of_closed h.closed, Chronicle.act, h.past]
  cases hp : k.past with
  | nil => exact ⟨rfl, h⟩
  | cons s past =>
    have hs : s ∈ k.start :: k.current :: k.past := by simp [hp]
    have hpast : ∀ x ∈ past, x ∈ k.past := fun x hx => hp ▸ List.mem_cons_of_mem s hx
    have hr := h.resume hs hpast
    rw [← h.closed] at hr
    exact ⟨rfl, hr⟩

theorem restart (h : g.Follows k) :
    (g.act .restart).2 = (k.act .restart).2 ∧ (g.act .restart).1.Follows (k.act .restart).1 := by
  have hback : g.history.restart? =
      some (k.start.board, { g.history with past := [], isOpen := false }) := by
    simp only [History.restart?, h.start, Option.map_some]
  rw [Game.act, Game.restart?, hback]
  have hnone : ∀ x ∈ ([] : List Scene), x ∈ k.past := fun x hx => absurd hx List.not_mem_nil
  exact ⟨rfl, h.resume List.mem_cons_self hnone⟩

theorem act (h : g.Follows k) (a : Action) :
    (g.act a).2 = (k.act a).2 ∧ (g.act a).1.Follows (k.act a).1 := by
  cases a with
  | move d => exact h.move d
  | undo => exact h.undo
  | restart => exact h.restart

/-- A game and its chronicle stay in step, whatever is done, and report the same. -/
theorem actAll (h : g.Follows k) (as : List Action) :
    (actAll Game.act g as).2 = (actAll Chronicle.act k as).2 ∧
    (actAll Game.act g as).1.Follows (actAll Chronicle.act k as).1 := by
  induction as generalizing g k with
  | nil => exact ⟨rfl, h⟩
  | cons a as ih =>
    obtain ⟨hres, hstep⟩ := h.act a
    obtain ⟨hrest, hend⟩ := ih hstep
    exact ⟨congrArg₂ List.cons hres hrest, hend⟩

/-- A game that has just loaded a level stands at the beginning of a chronicle. -/
theorem of_load {l : Level} {s : Settings} (hc : g.IsCurrent) (hset : g.HasSettings s)
    (hl : g.load l = .ok g') : g'.Follows (.ofGame g') where
  settings := rfl
  bounds := rfl
  scene := rfl
  closed := by rw [load_eq_ok hl]; rfl
  limit := by rw [load_eq_ok hl]; exact hset.limit.trans (hset.settings ▸ rfl)
  start := by rw [load_eq_ok hl]; rfl
  past := by rw [load_eq_ok hl]; rfl
  read s hs := by
    simp only [Chronicle.ofGame, List.mem_cons, List.not_mem_nil, or_false, or_self] at hs
    rw [hs]
    exact hc.load hl

end Follows

/-- From the loading of a level on, whatever came before it, a game reports and shows what its
chronicle does, and can take back as many turns as the chronicle has scenes. Where nothing is dropped,
taking back every turn of a sequence of moves gives back the very scene it began with. -/
theorem acts_follow_chronicle (s : Settings) (rs : List Request) (l : Level) (g : Game)
    (hl : ((fresh s).serveAll rs).load l = .ok g) :
    (∀ as, (actAll act g as).2 = (actAll Chronicle.act (.ofGame g) as).2 ∧
      (actAll act g as).1.undoDepth = (actAll Chronicle.act (.ofGame g) as).1.past.length ∧
      (actAll act g as).1.scene = (actAll Chronicle.act (.ofGame g) as).1.current) ∧
    (s.historyLimit = none → ∀ ds : List Direction,
      (actAll act (actAll act g (ds.map .move)).1
        (undosFor (actAll act g (ds.map .move)).2)).1.scene = g.scene) := by
  have hset := (invariant_hasSettings s).serveAll (hasSettings_fresh s) rs
  have hrules := invariant_isCurrent.serveAll (isCurrent_fresh s) rs
  have hfollows : g.Follows (.ofGame g) := .of_load hrules hset hl
  refine ⟨fun as => ?_, fun hlimit ds => ?_⟩
  · obtain ⟨hres, hend⟩ := hfollows.actAll as
    exact ⟨hres, hend.depth, hend.scene⟩
  · have hg : g.settings.historyLimit = none := by rw [load_eq_ok hl, hset.settings, hlimit]
    obtain ⟨hres, hmoved⟩ := hfollows.actAll (ds.map .move)
    rw [hres]
    exact (hmoved.actAll _).2.scene.trans
      (congrArg Chronicle.current ((Chronicle.ofGame g).actAll_moves_undos hg ds))

/-- A rock that is YOU, above the words that say so. -/
def rockLevel : Level := .ofRows "Rock" 3 2 [['r']] [[], ['R', 'I', 'Y']]

/-- The rock has gone right once, and the level has been loaded again. -/
def rockGame : Game :=
  (fresh {}).serveAll [.load rockLevel, .act (.move .right), .load rockLevel]

/-- The rock goes right twice and comes back. -/
theorem rock_follows_chronicle :
    ((fresh {}).serveAll [.load rockLevel, .act (.move .right)]).load rockLevel = .ok rockGame ∧
    (actAll act rockGame [.move .right, .move .right]).2 = [.moved, .moved] ∧
    (actAll act rockGame [.move .right, .move .right]).1.scene =
      (actAll Chronicle.act (.ofGame rockGame) [.move .right, .move .right]).1.current ∧
    (actAll act (actAll act rockGame [.move .right, .move .right]).1 [.undo, .undo]).1.scene =
      rockGame.scene := by
  have hl : ((fresh {}).serveAll [.load rockLevel, .act (.move .right)]).load rockLevel =
      .ok rockGame := rfl
  have hmoved : (actAll act rockGame [.move .right, .move .right]).2 = [.moved, .moved] := by
    decide +kernel
  obtain ⟨hall, hback⟩ := acts_follow_chronicle _ _ _ _ hl
  have hundone := hback rfl [.right, .right]
  rw [List.map_cons, List.map_cons, List.map_nil, hmoved] at hundone
  exact ⟨hl, hmoved, (hall _).2.2, hundone⟩

end Game

end WordTiles
