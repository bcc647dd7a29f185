import WordTiles.Proofs.Play.Standstill
import WordTiles.Proofs.Rules.Judgement

/-! How turns end, as a host sees it. A turn in which something moved ends by the verdict, and what it came
to can be read off the game it leaves, whose board and rules are those of the verdict. The host is told
of a win or a loss after all other news of the turn. -/

namespace WordTiles

/-- What an outcome makes of a turn in which something moved. -/
def Outcome.result : Outcome → TurnResult
  | .win => .won
  | .lose => .lost
  | .playing => .moved

/-- What a host is told last about a turn. -/
def TurnResult.ending : TurnResult → List Event
  | .won => [.victory]
  | .lost => [.defeat]
  | _ => []

theorem Outcome.result_inj {o o' : Outcome} : o.result = o'.result ↔ o = o' := by
  cases o <;> cases o' <;> decide

namespace Game

variable {g : Game} {t : Turn} {d : Direction} {id : EntityId} {e : Event}

/-! ### The news of a turn -/

/-- What a host is told of a movement before the ending: what sank, what has become YOU, what has become
WIN, and what was killed. -/
def news (g : Game) (t : Turn) : List Event :=
  let rules := g.rules.update t.board
  let renamed := rules.rename t.board
  t.destroyed.map (fun (id, c) => .destroyed id c) ++
    newcomers .becameYou renamed (g.rules.youEntities t.board) (rules.youEntities renamed) ++
    newcomers .becameWin renamed (g.rules.winEntities t.board) (rules.winEntities renamed) ++
    (rules.judge renamed).destroyed.map (fun (id, c) => .destroyed id c)

theorem events_conclude :
    (g.conclude t).1.events = g.events ++ g.news t ++ (g.conclude t).2.ending := by
  rw [conclude]
  cases ((g.rules.update t.board).judge ((g.rules.update t.board).rename t.board)).outcome <;> rfl

/-- All news is of something in its cell; an ending is not. -/
theorem cell?_of_mem_news (he : e ∈ g.news t) : ∃ c, e.cell? = some c := by
  have hdestroyed : ∀ ds : List (EntityId × Cell), e ∈ ds.map (fun (id, c) => .destroyed id c) →
      ∃ c, e.cell? = some c := fun ds he => by
    obtain ⟨⟨id, c⟩, -, rfl⟩ := List.mem_map.mp he
    exact ⟨c, rfl⟩
  have hnewcomers : ∀ event : EntityId → Cell → Event, (∀ id c, (event id c).cell? = some c) →
      ∀ b before after, e ∈ newcomers event b before after → ∃ c, e.cell? = some c :=
    fun event hevent b before after he => by
      obtain ⟨id, -, hid⟩ := List.mem_filterMap.mp he
      obtain ⟨c, -, rfl⟩ := Option.map_eq_some_iff.mp hid
      exact ⟨c, hevent id c⟩
  simp only [news, List.mem_append] at he
  rcases he with ((he | he) | he) | he
  · exact hdestroyed _ he
  · exact hnewcomers _ (fun _ _ => rfl) _ _ _ he
  · exact hnewcomers _ (fun _ _ => rfl) _ _ _ he
  · exact hdestroyed _ he

theorem not_mem_news (he : e.cell? = none) : e ∉ g.news t := fun h => by
  obtain ⟨c, hc⟩ := cell?_of_mem_news h
  rw [he] at hc
  cases hc

/-! ### What a turn comes to -/

/-- A move that moves something is concluded. -/
theorem move_eq_conclude (h : (g.move d).2 ≠ .nothingMoved) :
    g.move d = (g.keepTurn true).conclude (g.movement d) := by
  rcases move_cases g d with he | he | he
  · exact absurd (congrArg Prod.snd he) h
  · exact absurd (congrArg Prod.snd he) h
  · exact he

theorem result_conclude_eq : (g.conclude t).2 =
    ((g.rules.update t.board).judge ((g.rules.update t.board).rename t.board)).outcome.result := by
  rw [result_conclude]
  cases ((g.rules.update t.board).judge ((g.rules.update t.board).rename t.board)).outcome <;> rfl

/-- What a turn came to is what the board that it leaves comes to. -/
theorem result_conclude_eq_iff {o : Outcome} : (g.conclude t).2 = o.result ↔
    (g.conclude t).1.rules.ComesTo (g.conclude t).1.board o := by
  rw [result_conclude_eq, Outcome.result_inj]
  exact (Rulebook.judges_judge _ _).outcome o

/-- Nothing is doomed on the board that a turn leaves, if that is sound. -/
theorem not_isDoomed_conclude (h : (g.conclude t).1.HasSoundBoards) :
    ¬ (g.conclude t).1.rules.IsDoomed (g.conclude t).1.board id := fun hd =>
  (Rulebook.judges_judge _ _).spared id (stands_of_mem_youEntities h hd.1).1 hd

/-- The verdict on any board by any rules, and the end of every turn in which something moved, whatever
a host had asked of the game before: what the turn came to is what the board comes to that it leaves,
nothing is doomed there, and the host is told of a win or a loss once, after everything else. -/
theorem turns_judged :
    (∀ (r : Rulebook) (b : Board), r.Judges b (r.judge b)) ∧
    ∀ (s : Settings) (rs : List Request) (d : Direction),
      let g := (fresh s).serveAll rs
      let after := (g.act (.move d)).1
      let result := (g.act (.move d)).2
      result ≠ .nothingMoved →
        (∀ o, result = Outcome.result o ↔ after.rules.ComesTo after.board o) ∧
        (∀ id, ¬ after.rules.IsDoomed after.board id) ∧
        ∃ told, after.events = g.events ++ told ++ result.ending ∧
          .victory ∉ told ∧ .defeat ∉ told := by
  refine ⟨Rulebook.judges_judge, fun s rs d => ?_⟩
  intro g after result hmoved
  have hsound : after.HasSoundBoards := invariant_hasSoundBoards.toPlayInvariant.act
    (invariant_hasSoundBoards.serveAll (hasSoundBoards_fresh s) rs) (.move d)
  have hafter : g.act (.move d) = (g.keepTurn true).conclude (g.movement d) :=
    move_eq_conclude hmoved
  simp only [after, result, hafter] at hsound ⊢
  exact ⟨fun o => result_conclude_eq_iff, fun id => not_isDoomed_conclude hsound, _, events_conclude,
    not_mem_news rfl, not_mem_news rfl⟩

/-- Two rocks in one cell, with words that make them both YOU and KILL. -/
def twinLevel : Level := .ofRows "Twins" 3 3 [['r']] [['r'], ['R', 'I', 'Y'], ['R', 'I', 'K']]

def twinGame : Game := (fresh {}).serveAll [.load twinLevel]

/-- The rocks go right together, destroy each other, and the level is lost. -/
theorem turns_judged_twins :
    (twinGame.act (.move .right)).2 = .lost ∧ (twinGame.act (.move .right)).1.youEntities = [] ∧
      (∃ told, (twinGame.act (.move .right)).1.events = twinGame.events ++ told ++ [.defeat]) ∧
      (twinGame.rules.judge (twinGame.movement .right).board).destroyed =
        [(0, ⟨1, 0⟩), (1, ⟨1, 0⟩)] := by
  have hlost : (twinGame.act (.move .right)).2 = .lost := by decide +kernel
  have hmoved : (twinGame.act (.move .right)).2 ≠ .nothingMoved := by rw [hlost]; decide
  obtain ⟨houtcome, -, told, hevents, -⟩ := turns_judged.2 {} [.load twinLevel] .right hmoved
  rw [← twinGame] at houtcome hevents
  rw [hlost] at hevents
  have hlose := (houtcome .lose).mp hlost
  exact ⟨hlost, hlose, ⟨told, hevents⟩, by decide +kernel⟩

end Game

end WordTiles
