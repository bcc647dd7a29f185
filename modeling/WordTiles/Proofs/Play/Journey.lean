import WordTiles.Play.Campaign
import WordTiles.Proofs.Level.Memory
import WordTiles.Proofs.Play.Loading

/-! Campaigns as their hosts drive them: acting, going to levels, and asking the game for anything but
another level, in any order. Whatever was asked for, the campaign plays one of its levels, and a level
that begins, by a win, a loss or a choice, begins as if nothing had been played before. A campaign ends by
a win of its last level and stays so until a level is chosen. -/

namespace WordTiles

/-- What a host can ask of a campaign. Of the game it asks for nothing that loads another level. -/
inductive CampaignRequest where
  | act (a : Action)
  | select (index : Nat)
  | host (r : Request) (h : r.isPlay)

/-! ### The level in play -/

namespace Game

variable {g : Game} {s : Settings} {l : Level}

/-- The game plays this level, and can begin it again. -/
structure Plays (s : Settings) (l : Level) (g : Game) : Prop where
  settings : g.HasSettings s
  current : g.IsCurrent
  levelName : g.levelName = some l.name
  bounds : g.bounds = l.bounds
  start : g.history.start = some (opening s l).board

theorem playInvariant_plays (s : Settings) (l : Level) : PlayInvariant (Plays s l) where
  keepTurn moved h := {
    settings := (invariant_hasSettings s).keepTurn moved h.settings
    current := h.current.keepTurn moved
    levelName := h.levelName
    bounds := h.bounds
    start := h.start }
  conclude d h := {
    settings := (invariant_hasSettings s).conclude d h.settings
    current := h.current.conclude _
    levelName := levelName_conclude.trans h.levelName
    bounds := bounds_conclude.trans h.bounds
    start := (congrArg History.start history_conclude).trans h.start }
  resume h hb := {
    settings := (invariant_hasSettings s).resume h.settings hb
    current := h.current.resume _
    levelName := h.levelName
    bounds := h.bounds
    start := (mem_of_back hb).2.1.trans h.start }
  drain h := {
    settings := (invariant_hasSettings s).drain h.settings
    current := h.current
    levelName := h.levelName
    bounds := h.bounds
    start := h.start }

theorem plays_opening (s : Settings) (l : Level) (events : List Event) :
    { opening s l with events }.Plays s l :=
  ⟨⟨rfl, rfl⟩, isCurrent_opening s l, rfl, rfl, rfl⟩

theorem Plays.load (h : g.Plays s l) {next : Level} (hnext : next.IsShaped) :
    g.load next = .ok { opening s next with events := g.events ++ [.levelLoaded next.name] } :=
  load_of_isShaped h.settings h.current hnext

/-- A level that is begun again is the one that was loaded. -/
theorem Plays.restart? (h : g.Plays s l) :
    g.restart? = some { opening s l with events := g.events } := by
  obtain ⟨⟨rfl, hlimit⟩, hc, hname, hbounds, hstart⟩ := h
  have hrules : Rulebook.ofBoard g.settings.operator (opening g.settings l).board =
      (opening g.settings l).rules := (isCurrent_opening g.settings l).symm
  simp only [Game.restart?, History.restart?, hstart, Option.map_some, resume, hc.update_eq, hrules,
    hlimit, hname, hbounds]
  rfl

end Game

namespace Campaign

open Game

variable {s : Settings} {ls : List Level} {c c' c₀ : Campaign} {q : CampaignRequest}
  {qs : List CampaignRequest} {a : Action} {step : CampaignStep} {l : Level} {i n : Nat}

/-- The campaign after a request. A level that there is not is refused and changes nothing. -/
def serve (c : Campaign) : CampaignRequest → Campaign
  | .act a => (c.act a).2
  | .select index => match c.select index with
    | .ok c' => c'
    | .error _ => c
  | .host r _ => { c with game := c.game.serve r }

def serveAll (c : Campaign) (qs : List CampaignRequest) : Campaign := qs.foldl serve c

/-! ### What an action comes to -/

/-- The campaign plays one of these levels, all of which can be loaded. -/
structure Runs (s : Settings) (ls : List Level) (c : Campaign) : Prop where
  shaped : ∀ l ∈ ls, l.IsShaped
  levels : c.levels = ls
  playing : ∃ l, ls[c.current]? = some l ∧ c.game.Plays s l

/-- What an action comes to, and the campaign after it. -/
inductive Acts (s : Settings) (ls : List Level) (c : Campaign) (a : Action) :
    CampaignStep → Campaign → Prop where
  | finished : c.completed = true → Acts s ls c a .completed c
  | advanced {l : Level} : c.completed = false → (c.game.act a).2 = .won →
      ls[c.current + 1]? = some l →
      Acts s ls c a (.advanced (c.current + 1)) { c with
        game := { opening s l with events := (c.game.act a).1.events ++ [.levelLoaded l.name] }
        current := c.current + 1
        completed := false }
  | completed : c.completed = false → (c.game.act a).2 = .won → c.current + 1 = ls.length →
      Acts s ls c a .completed { c with game := (c.game.act a).1, completed := true }
  | restarted {l : Level} : c.completed = false → (c.game.act a).2 = .lost →
      ls[c.current]? = some l →
      Acts s ls c a .restarted { c with
        game := { opening s l with events := (c.game.act a).1.events } }
  | turn {r : TurnResult} : c.completed = false → (c.game.act a).2 = r → r ≠ .won → r ≠ .lost →
      Acts s ls c a (.turn r) { c with game := (c.game.act a).1 }

theorem Runs.lt_length (h : c.Runs s ls) : c.current < ls.length := by
  obtain ⟨l, hl, -⟩ := h.playing
  exact (List.getElem?_eq_some_iff.mp hl).1

theorem Runs.select_of_getElem? (h : c.Runs s ls) (hl : ls[i]? = some l) : c.select i = .ok { c with
    game := { opening s l with events := c.game.events ++ [.levelLoaded l.name] }
    current := i
    completed := false } := by
  obtain ⟨_, -, hplays⟩ := h.playing
  have hload := hplays.load (h.shaped l (List.mem_of_getElem? hl))
  simp only [select, h.levels, hl, hload]
  rfl

theorem Runs.select_of_le (h : c.Runs s ls) (hi : ls.length ≤ i) :
    c.select i = .error (.noSuchLevel i ls.length) := by
  simp only [select, h.levels, List.getElem?_eq_none hi]

/-- The game after an action is that of a campaign at the same level. -/
theorem Runs.actGame (h : c.Runs s ls) (a : Action) :
    { c with game := (c.game.act a).1 }.Runs s ls where
  shaped := h.shaped
  levels := h.levels
  playing := h.playing.imp fun l hl => ⟨hl.1, (playInvariant_plays s l).act hl.2 a⟩

theorem Runs.advance_of_getElem? (h : c.Runs s ls) (hl : ls[c.current + 1]? = some l) :
    c.advance = (.ok (.advanced (c.current + 1)), { c with
      game := { opening s l with events := c.game.events ++ [.levelLoaded l.name] }
      current := c.current + 1
      completed := false }) := by
  have hnext : c.current + 1 < c.levels.length := by
    rw [h.levels]
    exact (List.getElem?_eq_some_iff.mp hl).1
  simp only [advance, if_pos hnext, h.select_of_getElem? hl]

theorem Runs.advance_of_last (h : c.Runs s ls) (hlast : c.current + 1 = ls.length) :
    c.advance = (.ok .completed, { c with completed := true }) := by
  have hnext : ¬ c.current + 1 < c.levels.length := by
    rw [h.levels]
    omega
  simp only [advance, if_neg hnext]

theorem act_of_completed (hc : c.completed = true) (a : Action) : c.act a = (.ok .completed, c) := by
  rw [act, if_pos hc]

/-- While the campaign goes on, what the action comes to in the game decides. -/
theorem act_of_not_completed (hc : c.completed = false) (a : Action) : c.act a =
    match (c.game.act a).2 with
    | .won => advance { c with game := (c.game.act a).1 }
    | .lost => (.ok .restarted, { c with
        game := (c.game.act a).1.restart?.getD (c.game.act a).1 })
    | r => (.ok (.turn r), { c with game := (c.game.act a).1 }) := by
  rcases hact : c.game.act a with ⟨game, r⟩
  cases r <;> simp only [act, hc, hact, Bool.false_eq_true, if_false]

theorem Runs.acts (h : c.Runs s ls) (a : Action) :
    ∃ step c', c.act a = (.ok step, c') ∧ c.Acts s ls a step c' := by
  by_cases hc : c.completed = true
  · exact ⟨_, _, act_of_completed hc a, .finished hc⟩
  rw [Bool.not_eq_true] at hc
  have hgame := h.actGame a
  rw [act_of_not_completed hc]
  cases hr : (c.game.act a).2 with
  | won =>
    rcases Nat.lt_or_ge (c.current + 1) ls.length with hnext | hlast
    · have hl := List.getElem?_eq_getElem hnext
      exact ⟨_, _, hgame.advance_of_getElem? hl, .advanced hc hr hl⟩
    · have hlast : c.current + 1 = ls.length := Nat.le_antisymm h.lt_length hlast
      exact ⟨_, _, hgame.advance_of_last hlast, .completed hc hr hlast⟩
  | lost =>
    obtain ⟨l, hl, hplays⟩ := hgame.playing
    refine ⟨_, _, ?_, .restarted hc hr hl⟩
    rw [hplays.restart?]
    rfl
  | carriedOn => exact ⟨_, _, rfl, .turn hc hr (by decide) (by decide)⟩
  | moved => exact ⟨_, _, rfl, .turn hc hr (by decide) (by decide)⟩
  | nothingMoved => exact ⟨_, _, rfl, .turn hc hr (by decide) (by decide)⟩

/-! ### Every request -/

theorem Runs.serve (h : c.Runs s ls) (q : CampaignRequest) : (c.serve q).Runs s ls := by
  cases q with
  | act a =>
    obtain ⟨step, c', he, hacts⟩ := h.acts a
    rw [Campaign.serve, he]
    cases hacts with
    | finished => exact h
    | advanced _ _ hl => exact ⟨h.shaped, h.levels, _, hl, plays_opening s _ _⟩
    | completed => exact ⟨h.shaped, h.levels, (h.actGame a).playing⟩
    | restarted _ _ hl => exact ⟨h.shaped, h.levels, _, hl, plays_opening s _ _⟩
    | turn => exact h.actGame a
  | select i =>
    rcases Nat.lt_or_ge i ls.length with hi | hi
    · have hl := List.getElem?_eq_getElem hi
      rw [Campaign.serve, h.select_of_getElem? hl]
      exact ⟨h.shaped, h.levels, _, hl, plays_opening s _ _⟩
    · rw [Campaign.serve, h.select_of_le hi]
      exact h
  | host r hr =>
    exact ⟨h.shaped, h.levels, h.playing.imp fun l hl =>
      ⟨hl.1, (playInvariant_plays s l).serve hl.2 hr⟩⟩

theorem Runs.serveAll (h : c.Runs s ls) (qs : List CampaignRequest) : (c.serveAll qs).Runs s ls := by
  induction qs generalizing c with
  | nil => exact h
  | cons q qs ih => exact ih (h.serve q)

theorem forM_validate_eq_ok_iff :
    ls.forM Level.validate = .ok () ↔ ∀ l ∈ ls, l.IsShaped := by
  induction ls with
  | nil => exact iff_of_true rfl fun _ => (absurd · List.not_mem_nil)
  | cons l ls ih =>
    have hcons : (l :: ls).forM Level.validate = l.validate >>= fun _ => ls.forM Level.validate := rfl
    rw [List.forall_mem_cons, ← ih, ← Level.validate_eq_ok_iff, hcons]
    cases l.validate with
    | error e => exact iff_of_false (fun h => by cases h) fun h => by cases h.1
    | ok _ => exact (and_iff_right rfl).symm

/-- A campaign begins with its first level, if it has one and all its levels pass their check. -/
theorem runs_of_start (h : start s ls = .ok c) : c.Runs s ls ∧ c.completed = false := by
  cases ls with
  | nil => cases h
  | cons first rest =>
    cases hvalid : (first :: rest).forM Level.validate with
    | error e =>
      rw [start, hvalid] at h
      cases h
    | ok _ =>
      have hshaped := forM_validate_eq_ok_iff.mp hvalid
      have hload := load_of_isShaped (hasSettings_fresh s) (isCurrent_fresh s)
        (hshaped first List.mem_cons_self)
      rw [start, hvalid] at h
      dsimp only [bind, Except.bind] at h
      rw [← fresh, hload] at h
      cases h
      exact ⟨⟨hshaped, rfl, first, rfl, plays_opening s first _⟩, rfl⟩

/-! ### Completion -/

/-- The request goes to one of the first `n` levels. -/
def Selects (n : Nat) (q : CampaignRequest) : Prop := ∃ i < n, q = .select i

/-- Among these requests to a campaign of `n` levels an action was answered with completion, and no level
has been gone to since. -/
def HasCompleted (c : Campaign) (n : Nat) (qs : List CampaignRequest) : Prop :=
  ∃ before a after, qs = before ++ .act a :: after ∧
    ((c.serveAll before).act a).1 = .ok .completed ∧ ∀ q ∈ after, ¬ Selects n q

theorem hasCompleted_append_singleton : HasCompleted c n (qs ++ [q]) ↔
    (∃ a, q = .act a ∧ ((c.serveAll qs).act a).1 = .ok .completed) ∨
      HasCompleted c n qs ∧ ¬ Selects n q := by
  constructor
  · rintro ⟨before, a, after, he, hact, hafter⟩
    rcases List.eq_nil_or_concat after with rfl | ⟨after, last, rfl⟩
    · obtain ⟨rfl, hq⟩ := List.append_inj' he rfl
      exact .inl ⟨a, (List.cons.inj hq).1, hact⟩
    · rw [List.concat_eq_append, ← List.cons_append, ← List.append_assoc] at he
      obtain ⟨rfl, hq⟩ := List.append_inj' he rfl
      obtain rfl := (List.cons.inj hq).1
      simp only [List.concat_eq_append, List.forall_mem_append, List.forall_mem_singleton] at hafter
      exact .inr ⟨⟨before, a, after, rfl, hact, hafter.1⟩, hafter.2⟩
  · rintro (⟨a, rfl, hact⟩ | ⟨⟨before, a, after, rfl, hact, hafter⟩, hq⟩)
    · exact ⟨qs, a, [], rfl, hact, fun _ => (absurd · List.not_mem_nil)⟩
    · refine ⟨before, a, after ++ [q], by rw [List.append_assoc, List.cons_append], hact, ?_⟩
      rw [List.forall_mem_append, List.forall_mem_singleton]
      exact ⟨hafter, hq⟩

theorem Runs.act_eq_completed_iff (h : c.Runs s ls) (hc : c.completed = false) :
    (c.act a).1 = .ok .completed ↔ (c.game.act a).2 = .won ∧ c.current + 1 = ls.length := by
  obtain ⟨step, c', he, hacts⟩ := h.acts a
  rw [he]
  cases hacts with
  | finished hc' => rw [hc] at hc'; cases hc'
  | advanced _ _ hl =>
    have hnext := (List.getElem?_eq_some_iff.mp hl).1
    exact iff_of_false (fun he => by cases he) fun hlast => by omega
  | completed _ hwon hlast => exact iff_of_true rfl ⟨hwon, hlast⟩
  | restarted _ hlost => exact iff_of_false (fun he => by cases he) fun hwon => by simp_all
  | turn _ hr hwon => exact iff_of_false (fun he => by cases he) fun h => hwon (hr.symm.trans h.1)

theorem Runs.completed_act_iff (h : c.Runs s ls) :
    (c.act a).2.completed = true ↔ (c.act a).1 = .ok .completed := by
  obtain ⟨step, c', he, hacts⟩ := h.acts a
  rw [he]
  cases hacts with
  | finished hc => exact iff_of_true hc rfl
  | advanced => exact iff_of_false Bool.false_ne_true fun he => by cases he
  | completed => exact iff_of_true rfl rfl
  | restarted hc => exact iff_of_false (Bool.eq_false_iff.mp hc) fun he => by cases he
  | turn hc => exact iff_of_false (Bool.eq_false_iff.mp hc) fun he => by cases he

theorem Runs.completed_serve_iff (h : c.Runs s ls) : (c.serve q).completed = true ↔
    (∃ a, q = .act a ∧ (c.act a).1 = .ok .completed) ∨
      c.completed = true ∧ ¬ Selects ls.length q := by
  cases q with
  | act a =>
    have hstill : c.completed = true → (c.act a).1 = .ok .completed := fun hc => by
      rw [act_of_completed hc]
    rw [Campaign.serve, h.completed_act_iff]
    constructor
    · exact fun hact => .inl ⟨a, rfl, hact⟩
    · rintro (⟨_, hq, hact⟩ | ⟨hc, -⟩)
      · cases hq
        exact hact
      · exact hstill hc
  | select i =>
    rcases Nat.lt_or_ge i ls.length with hi | hi
    · rw [Campaign.serve, h.select_of_getElem? (List.getElem?_eq_getElem hi)]
      refine iff_of_false Bool.false_ne_true ?_
      rintro (⟨_, hq, -⟩ | ⟨-, hq⟩)
      · cases hq
      · exact hq ⟨i, hi, rfl⟩
    · have hq : ¬ Selects ls.length (.select i) := by
        rintro ⟨_, hlt, he⟩
        cases he
        omega
      rw [Campaign.serve, h.select_of_le hi]
      simp [hq]
  | host r hr =>
    have hq : ¬ Selects ls.length (.host r hr) := by
      rintro ⟨_, -, he⟩
      cases he
    simp [Campaign.serve, hq]

theorem Runs.completed_serveAll_iff (h : c.Runs s ls) (hc : c.completed = false)
    (qs : List CampaignRequest) :
    (c.serveAll qs).completed = true ↔ HasCompleted c ls.length qs := by
  induction qs using List.reverseRecOn with
  | nil =>
    refine iff_of_false (Bool.eq_false_iff.mp hc) ?_
    rintro ⟨before, a, after, he, -⟩
    simp at he
  | append_singleton qs q ih =>
    rw [hasCompleted_append_singleton, ← ih, ← (h.serveAll qs).completed_serve_iff,
      Campaign.serveAll, List.foldl_append]
    rfl

/-! ### What a campaign keeps to -/

/-- The campaign stands at the beginning of level `i`: its game is that of a host who has loaded this
level and nothing before, but for the events that wait. -/
structure AtStart (s : Settings) (ls : List Level) (i : Nat) (c : Campaign) : Prop where
  current : c.current = i
  game : ∃ l g, ls[i]? = some l ∧ (fresh s).load l = .ok g ∧ c.game.drain.2 = g.drain.2
  undoDepth : c.game.undoDepth = 0

theorem atStart_opening {events : List Event} (hl : ls[i]? = some l) (hshaped : l.IsShaped)
    (hcurrent : c.current = i) (hgame : c.game = { opening s l with events }) : c.AtStart s ls i where
  current := hcurrent
  game := ⟨l, _, hl, load_of_isShaped (hasSettings_fresh s) (isCurrent_fresh s) hshaped,
    by rw [hgame]; rfl⟩
  undoDepth := by rw [hgame]; rfl

/-- What a campaign of these levels keeps to, where `done` says whether it has been completed. -/
structure Reliable (s : Settings) (ls : List Level) (done : Prop) (c : Campaign) : Prop where
  /-- No action fails. -/
  act_ok : ∀ a, ∃ step, (c.act a).1 = .ok step
  /-- A level is refused exactly if there is none of this index, and then nothing changes. -/
  select_error : ∀ i, ((∃ e, c.select i = .error e) ↔ ls.length ≤ i) ∧
    (ls.length ≤ i → c.serve (.select i) = c)
  /-- The level in play is that of the current index. -/
  level : c.levels = ls ∧ ∃ l, ls[c.current]? = some l ∧
    c.game.levelName = some l.name ∧ c.game.bounds = l.bounds
  advanced : ∀ a i, (c.act a).1 = .ok (.advanced i) →
    i = c.current + 1 ∧ (c.act a).2.AtStart s ls i
  restarted : ∀ a, (c.act a).1 = .ok .restarted → (c.act a).2.AtStart s ls c.current
  selected : ∀ i c', c.select i = .ok c' → c'.AtStart s ls i
  /-- Completion comes first of all by a win of the last level. -/
  completes : ¬ done → ∀ a, (c.act a).1 = .ok .completed ↔
    (c.game.act a).2 = .won ∧ c.current + 1 = ls.length
  /-- A completed campaign takes no more actions. -/
  finished : done → ∀ a, c.act a = (.ok .completed, c)

theorem Runs.reliable (h : c.Runs s ls) : c.Reliable s ls (c.completed = true) where
  act_ok a := by
    obtain ⟨step, c', he, -⟩ := h.acts a
    exact ⟨step, by rw [he]⟩
  select_error i := by
    rcases Nat.lt_or_ge i ls.length with hi | hi
    · rw [h.select_of_getElem? (List.getElem?_eq_getElem hi)]
      exact ⟨iff_of_false (fun ⟨e, he⟩ => by cases he) (by omega), fun hle => by omega⟩
    · rw [Campaign.serve, h.select_of_le hi]
      exact ⟨iff_of_true ⟨_, rfl⟩ hi, fun _ => rfl⟩
  level := ⟨h.levels, h.playing.imp fun l hl => ⟨hl.1, hl.2.levelName, hl.2.bounds⟩⟩
  advanced a i hi := by
    obtain ⟨step, c', he, hacts⟩ := h.acts a
    rw [he] at hi ⊢
    cases hi
    cases hacts with
    | advanced _ _ hl => exact ⟨rfl, atStart_opening hl (h.shaped _ (List.mem_of_getElem? hl)) rfl rfl⟩
  restarted a ha := by
    obtain ⟨step, c', he, hacts⟩ := h.acts a
    rw [he] at ha ⊢
    cases ha
    cases hacts with
    | restarted _ _ hl => exact atStart_opening hl (h.shaped _ (List.mem_of_getElem? hl)) rfl rfl
  selected i c' hi := by
    rcases Nat.lt_or_ge i ls.length with hlt | hle
    · have hl := List.getElem?_eq_getElem hlt
      rw [h.select_of_getElem? hl] at hi
      cases hi
      exact atStart_opening hl (h.shaped _ (List.mem_of_getElem? hl)) rfl rfl
    · rw [h.select_of_le hle] at hi
      cases hi
  completes hc a := h.act_eq_completed_iff (Bool.eq_false_iff.mpr hc)
  finished hc a := act_of_completed hc a

/-- The campaign has been begun with these levels, given as they are or as a text. -/
def BeginsWith (s : Settings) (ls : List Level) (c : Campaign) : Prop :=
  start s ls = .ok c ∨ ∃ text, Level.parse text = .ok ls ∧ ofText s text = .ok c

theorem BeginsWith.start_eq (h : BeginsWith s ls c) : start s ls = .ok c := by
  rcases h with h | ⟨text, hparse, h⟩
  · exact h
  · rwa [ofText, hparse] at h

theorem exists_beginsWith_of_ofText? {text : String} (h : ofText? s text = some (.ok c)) :
    ∃ ls, BeginsWith s ls c := by
  obtain ⟨r, hparse, hstart⟩ := Option.map_eq_some_iff.mp h
  have hendless := Level.parse_of_parse? hparse
  cases r with
  | error e => cases hstart
  | ok ls => exact ⟨ls, .inr ⟨text, hendless, by rw [ofText, hendless]; exact hstart⟩⟩

/-- Whatever a host has asked of a campaign and of its game, but for loading another level into the game,
the campaign keeps to its levels. -/
theorem reliable_serveAll (h : BeginsWith s ls c) (qs : List CampaignRequest) :
    (c.serveAll qs).Reliable s ls (HasCompleted c ls.length qs) := by
  obtain ⟨hruns, hc⟩ := runs_of_start h.start_eq
  rw [← hruns.completed_serveAll_iff hc]
  exact (hruns.serveAll qs).reliable

/-- A level that is won by one step, and one that is lost by one step. -/
def stepLevels : List Level :=
  [.ofRows "Step" 3 3 [['b', 'f']] [[], ['B', 'I', 'Y'], ['F', 'I', 'X']], pondLevel]

def stepCampaign : Campaign :=
  { levels := stepLevels, game := (fresh {}).serve (.load stepLevels[0]) }

/-- The first level is won, and the second one lost after an undo and a refused choice. -/
theorem step_campaign_reliable :
    let qs : List CampaignRequest := [.act (.move .right), .host .undo rfl, .select 7]
    BeginsWith {} stepLevels stepCampaign ∧
      ((stepCampaign.serveAll qs).act (.move .right)).1 = .ok .restarted ∧
      ((stepCampaign.serveAll qs).act (.move .right)).2.AtStart {} stepLevels 1 := by
  intro qs
  have hbegins : BeginsWith {} stepLevels stepCampaign := .inl (by decide +kernel)
  have hlost : ((stepCampaign.serveAll qs).act (.move .right)).1 = .ok .restarted := by
    decide +kernel
  have hcurrent : (stepCampaign.serveAll qs).current = 1 := by decide +kernel
  have hstart := (reliable_serveAll hbegins qs).restarted _ hlost
  rw [hcurrent] at hstart
  exact ⟨hbegins, hlost, hstart⟩

end Campaign

end WordTiles
