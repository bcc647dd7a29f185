import WordTiles.Proofs.Movement.Sinking
import WordTiles.Proofs.Play.Endings

/-! What a host is told of a turn, against what the turn did. Things vanish at two times, in the water while
the turn moves and by the verdict after it has moved; between these they are renamed, which makes nothing
vanish. So the news tells of each thing that vanished once, and of nothing else. Who was YOU or WIN is asked
after the movement, when some of those that were are gone; but movement leaves the others what they are, so
this tells the same newcomers as the board before it would. -/

namespace WordTiles

open Board

variable {b b' b'' : Board} {r : Rulebook} {id : EntityId} {c : Cell} {ids ids' : List EntityId}

/-! ### What vanishes from a board -/

/-- From the first board to the second exactly these entities vanish, and no other appears. They were no
word tiles, and what is left is a word tile if it was one. -/
structure Board.Loses (b b' : Board) (ids : List EntityId) : Prop where
  once : ids.Nodup
  mem_iff : ∀ id, id ∈ ids ↔ id ∈ b.live ∧ id ∉ b'.live
  live : ∀ id ∈ b'.live, id ∈ b.live
  notWord : ∀ id ∈ ids, ¬ b.isWord id
  isWord : ∀ id ∈ b'.live, b'.isWord id = b.isWord id
  nextId : b'.nextId = b.nextId

namespace Board.Loses

theorem of_gone (once : ids.Nodup) (gone : ∀ id ∈ ids, ¬ b.isWord id ∧ Gone b b' id)
    (kept : ∀ id, id ∉ ids → Kept b b' id) (nextId : b'.nextId = b.nextId) : b.Loses b' ids := by
  have hleft : ∀ id ∈ b'.live, id ∉ ids := fun id hl hid => (gone id hid).2.dead hl
  refine ⟨once, fun id => ⟨fun hid => ?_, fun ⟨hl, hdead⟩ => ?_⟩, fun id hl => ?_, fun id hid => ?_,
    fun id hl => ?_, nextId⟩
  · exact ⟨(gone id hid).2.live, (gone id hid).2.dead⟩
  · by_contra hid
    exact hdead ((kept id hid).live.mpr hl)
  · exact (kept id (hleft id hl)).live.mp hl
  · exact (gone id hid).1
  · exact (kept id (hleft id hl)).isWord

theorem refl (b : Board) : b.Loses b [] :=
  of_gone List.nodup_nil (fun _ hid => absurd hid List.not_mem_nil) (fun id _ => .refl b id) rfl

theorem trans (h : b.Loses b' ids) (h' : b'.Loses b'' ids') : b.Loses b'' (ids ++ ids') where
  once := by
    refine List.nodup_append.mpr ⟨h.once, h'.once, ?_⟩
    rintro id hid _ hid' rfl
    exact ((h.mem_iff id).mp hid).2 ((h'.mem_iff id).mp hid').1
  mem_iff id := by
    rw [List.mem_append, h.mem_iff, h'.mem_iff]
    constructor
    · rintro (⟨hl, hdead⟩ | ⟨hl, hdead⟩)
      · exact ⟨hl, fun hl' => hdead (h'.live id hl')⟩
      · exact ⟨h.live id hl, hdead⟩
    · rintro ⟨hl, hdead⟩
      by_cases hl' : id ∈ b'.live
      · exact .inr ⟨hl', hdead⟩
      · exact .inl ⟨hl, hl'⟩
  live id hl := h.live id (h'.live id hl)
  notWord id hid := by
    rcases List.mem_append.mp hid with hid | hid
    · exact h.notWord id hid
    · rw [← h.isWord id ((h'.mem_iff id).mp hid).1]
      exact h'.notWord id hid
  isWord id hl := (h'.isWord id hl).trans (h.isWord id (h'.live id hl))
  nextId := h'.nextId.trans h.nextId

end Board.Loses

theorem Turn.Accounts.loses {t : Turn} (h : t.Accounts b) :
    b.Loses t.board (t.destroyed.map Prod.fst) := .of_gone h.once h.gone h.kept h.nextId

theorem Rulebook.loses_rename (r : Rulebook) (b : Board) : b.Loses (r.rename b) [] :=
  { Board.Loses.refl b with }

theorem Rulebook.loses_judge (r : Rulebook) (b : Board) :
    b.Loses (r.judge b).board ((r.judge b).destroyed.map Prod.fst) := by
  have h := r.judges_judge b
  refine .of_gone (h.ascending.imp Nat.ne_of_lt) (fun id hid => ⟨?_, h.gone id hid⟩)
    (fun id hid => (h.stays id hid).toKept) h.nextId
  obtain ⟨-, hyou, -⟩ := mem_map_destroyed_judge.mp hid
  exact (PropertyTable.mem_ofEntity.mp (PropertyTable.mem_entitiesWith.mp hyou)).1

/-! ### What events tell -/

/-- What an event tells to have been destroyed, with its cell. -/
def Event.casualty? : Event → Option (EntityId × Cell)
  | destroyed id c => some (id, c)
  | _ => none

/-- What events tell to have been destroyed, one after the other. -/
def casualties (es : List Event) : List (EntityId × Cell) := es.filterMap Event.casualty?

theorem casualties_append {es es' : List Event} :
    casualties (es ++ es') = casualties es ++ casualties es' := List.filterMap_append

theorem casualties_destroyed (ds : List (EntityId × Cell)) :
    casualties (ds.map fun (id, c) => .destroyed id c) = ds := by
  rw [casualties, List.filterMap_map]
  exact List.filterMap_some

theorem casualties_ending (result : TurnResult) : casualties result.ending = [] := by
  cases result <;> rfl

namespace Game

variable {g : Game} {d : Direction} {t : Turn} {p : Property}

/-- The rules that are read after the movement in a direction. -/
def newRules (g : Game) (d : Direction) : Rulebook := g.rules.update (g.movement d).board

/-- The board on which the verdict is made: things have moved and have been renamed. -/
def judgedBoard (g : Game) (d : Direction) : Board := (g.newRules d).rename (g.movement d).board

/-- The newcomers that are reported, with their cells. -/
def arrivals (b : Board) (before after : List EntityId) : List (EntityId × Cell) :=
  (after.filter (· ∉ before)).filterMap fun id => (b.cell? id).map (id, ·)

theorem newcomers_eq_map (event : EntityId → Cell → Event) (b : Board)
    (before after : List EntityId) :
    newcomers event b before after = (arrivals b before after).map fun (id, c) => event id c := by
  rw [newcomers, arrivals, List.map_filterMap]
  simp only [Option.map_map]
  rfl

theorem mem_arrivals {before after : List EntityId} : (id, c) ∈ arrivals b before after ↔
    id ∈ after ∧ id ∉ before ∧ b.cell? id = some c := by
  simp only [arrivals, List.mem_filterMap, List.mem_filter, decide_eq_true_eq,
    Option.map_eq_some_iff, Prod.mk.injEq]
  constructor
  · rintro ⟨_, ⟨hafter, hbefore⟩, _, hc, rfl, rfl⟩
    exact ⟨hafter, hbefore, hc⟩
  · rintro ⟨hafter, hbefore, hc⟩
    exact ⟨id, ⟨hafter, hbefore⟩, c, hc, rfl, rfl⟩

theorem arrivals_ascending {before after : List EntityId} (h : after.Pairwise (· < ·)) :
    ((arrivals b before after).map Prod.fst).Pairwise (· < ·) := by
  refine List.pairwise_map.mpr (List.pairwise_filterMap.mpr ?_)
  refine (h.filter _).imp fun hlt x hx y hy => ?_
  obtain ⟨_, -, rfl⟩ := Option.map_eq_some_iff.mp hx
  obtain ⟨_, -, rfl⟩ := Option.map_eq_some_iff.mp hy
  exact hlt

theorem casualties_newcomers {event : EntityId → Cell → Event}
    (hevent : ∀ id c, (event id c).casualty? = none) {before after : List EntityId} :
    casualties (newcomers event b before after) = [] := by
  rw [newcomers_eq_map, casualties, List.filterMap_map]
  exact List.filterMap_eq_nil_iff.mpr fun a _ => hevent a.1 a.2

/-- The news tells of those that sank and then of those that were killed. -/
theorem casualties_news : casualties (g.news t) = t.destroyed ++
    ((g.rules.update t.board).judge ((g.rules.update t.board).rename t.board)).destroyed := by
  simp only [news, casualties_append, casualties_destroyed]
  rw [casualties_newcomers fun _ _ => rfl, casualties_newcomers fun _ _ => rfl,
    List.append_nil, List.append_nil]

theorem events_move (h : (g.move d).2 ≠ .nothingMoved) :
    (g.move d).1.events = g.events ++ (g.news (g.movement d) ++ (g.move d).2.ending) := by
  rw [move_eq_conclude h, ← List.append_assoc]
  exact events_conclude

/-! ### Things that vanish -/

theorem accounts_movement (g : Game) (d : Direction) : (g.movement d).Accounts g.board :=
  Turn.Accounts.of_replay? (Turn.replay?_moved g.physics d g.youEntities g.board)

/-- In the movement the thing drowns when something arrives in its cell. -/
def SinksIn (g : Game) (d : Direction) (id : EntityId) (c : Cell) : Prop :=
  ∃ t₀ m, ({ board := g.board } : Turn).Enters g.physics d (g.movement d).moved t₀ m c ∧
    g.physics.Drowns (t₀.board.relocate m c) c m id

/-- The thing is doomed in the cell in which it stands after the movement. -/
def IsKilledIn (g : Game) (d : Direction) (id : EntityId) (c : Cell) : Prop :=
  id ∈ (g.movement d).board.live ∧ (g.movement d).board.cell? id = some c ∧
    (g.newRules d).IsDoomed (g.judgedBoard d) id

theorem loses_move (h : (g.move d).2 ≠ .nothingMoved) :
    g.board.Loses (g.move d).1.board ((casualties (g.news (g.movement d))).map Prod.fst) := by
  have hmoved := (g.accounts_movement d).loses
  -- the renaming comes between the two and loses nothing
  have hrenamed := hmoved.trans ((g.newRules d).loses_rename (g.movement d).board)
  rw [List.append_nil] at hrenamed
  rw [casualties_news, List.map_append, move_eq_conclude h]
  exact hrenamed.trans ((g.newRules d).loses_judge (g.judgedBoard d))

theorem mem_casualties_news : (id, c) ∈ casualties (g.news (g.movement d)) ↔
    g.SinksIn d id c ∨ g.IsKilledIn d id c := by
  rw [casualties_news, List.mem_append]
  refine or_congr ?_ Rulebook.mem_destroyed_judge
  exact Turn.mem_destroyed_iff rfl (Turn.replay?_moved g.physics d g.youEntities g.board)

/-! ### Events wait until they are fetched -/

theorem events_undo (g : Game) : (g.undo?.getD g).events = g.events := by
  rw [undo?]
  cases g.history.undo? <;> rfl

theorem events_restart (g : Game) : (g.restart?.getD g).events = g.events := by
  rw [restart?]
  cases g.history.restart? <;> rfl

/-- A move that moves nothing changes the history at most. -/
theorem exists_history_of_nothingMoved (h : (g.move d).2 = .nothingMoved) :
    ∃ history, (g.move d).1 = { g with history } := by
  rcases move_cases g d with he | he | he
  · exact ⟨g.history, by rw [he]⟩
  · exact ⟨_, by rw [he]; rfl⟩
  · rw [he] at h
    exact absurd h result_conclude_ne

theorem events_of_nothingMoved (h : (g.move d).2 = .nothingMoved) :
    (g.move d).1.events = g.events := by
  obtain ⟨history, he⟩ := exists_history_of_nothingMoved h
  rw [he]

theorem board_of_nothingMoved (h : (g.move d).2 = .nothingMoved) :
    (g.move d).1.board = g.board := by
  obtain ⟨history, he⟩ := exists_history_of_nothingMoved h
  rw [he]

theorem events_prefix_move (g : Game) (d : Direction) : g.events <+: (g.move d).1.events := by
  by_cases h : (g.move d).2 = .nothingMoved
  · exact (events_of_nothingMoved h).symm ▸ List.prefix_refl g.events
  · rw [events_move h]
    exact List.prefix_append _ _

theorem events_prefix_act (g : Game) (a : Action) : g.events <+: (g.act a).1.events := by
  cases a with
  | move d => exact events_prefix_move g d
  | undo => exact (events_undo g).symm ▸ List.prefix_refl g.events
  | restart => exact (events_restart g).symm ▸ List.prefix_refl g.events

theorem events_prefix_serve {q : Request} (hq : q ≠ .drain) :
    g.events <+: (g.serve q).events := by
  cases q with
  | load l =>
    rw [serve]
    split
    · rename_i g' hl
      rw [load_eq_ok hl]
      exact List.prefix_append _ _
    · exact List.prefix_refl _
  | act a => exact events_prefix_act g a
  | undo => exact (events_undo g).symm ▸ List.prefix_refl g.events
  | restart => exact (events_restart g).symm ▸ List.prefix_refl g.events
  | drain => exact absurd rfl hq

/-- Whatever has been asked of a game before: what a move adds to the events tells of each entity that
vanishes once and of no other, in the cell in which it drowned or was killed, and what vanishes is no word
tile. No entity appears. A move that moves nothing, an undo and a restart tell nothing, and no request but
that for the events takes any of them away. -/
theorem disappearances_reported (g : Game) :
    (∀ d, ∃ told, (g.act (.move d)).1.events = g.events ++ told ∧
      g.board.Loses (g.act (.move d)).1.board ((casualties told).map Prod.fst) ∧
      ((g.act (.move d)).2 ≠ .nothingMoved →
        ∀ id c, (id, c) ∈ casualties told ↔ g.SinksIn d id c ∨ g.IsKilledIn d id c)) ∧
    (∀ a, (g.act a).2 = .nothingMoved → (g.act a).1.events = g.events) ∧
    (∀ q ∈ [Request.undo, .restart, .act .undo, .act .restart], (g.serve q).events = g.events) ∧
    ∀ q, q ≠ .drain → g.events <+: (g.serve q).events := by
  refine ⟨fun d => ?_, fun a ha => ?_, fun q hq => ?_, fun q hq => events_prefix_serve hq⟩
  · by_cases h : (g.move d).2 = .nothingMoved
    · refine ⟨[], ?_, ?_, fun hmoved => absurd h hmoved⟩
      · rw [act, events_of_nothingMoved h, List.append_nil]
      · rw [act, board_of_nothingMoved h]
        exact .refl g.board
    · have hcasualties : casualties (g.news (g.movement d) ++ (g.move d).2.ending) =
          casualties (g.news (g.movement d)) := by
        rw [casualties_append, casualties_ending, List.append_nil]
      refine ⟨_, events_move h, ?_, fun _ id c => ?_⟩
      · rw [hcasualties]
        exact loses_move h
      · rw [hcasualties]
        exact mem_casualties_news
  · cases a with
    | move d => exact events_of_nothingMoved ha
    | undo => cases ha
    | restart => cases ha
  · simp only [List.mem_cons, List.not_mem_nil, or_false] at hq
    rcases hq with rfl | rfl | rfl | rfl
    · exact events_undo g
    · exact events_restart g
    · exact events_undo g
    · exact events_restart g

/-- The rock drowns with the water that it enters, and the level is lost. -/
theorem disappearances_reported_pond : ∃ told,
    (pondGame.act (.move .right)).1.events = pondGame.events ++ told ∧
      told = [.destroyed 0 ⟨1, 0⟩, .destroyed 1 ⟨1, 0⟩, .defeat] ∧
      pondGame.board.Loses (pondGame.act (.move .right)).1.board [0, 1] ∧
      pondGame.SinksIn .right 1 ⟨1, 0⟩ := by
  obtain ⟨told, hevents, hloses, hplaces⟩ := (disappearances_reported pondGame).1 .right
  have hnews : (pondGame.act (.move .right)).1.events = pondGame.events ++
      [.destroyed 0 ⟨1, 0⟩, .destroyed 1 ⟨1, 0⟩, .defeat] := by decide +kernel
  rw [hevents] at hnews
  obtain rfl := List.append_cancel_left hnews
  refine ⟨_, hevents, rfl, hloses, ?_⟩
  have hplace := (hplaces (by decide +kernel) 1 ⟨1, 0⟩).mp (by decide)
  -- after the movement the water is not there to be killed
  exact hplace.resolve_right fun hkilled => absurd hkilled.1 (by decide +kernel)

/-! ### Newcomers -/

/-- What has a name before the verdict was not destroyed in the movement. -/
theorem kept_movement {name : String} (hn : (g.judgedBoard d).name? id = some name) :
    Kept g.board (g.movement d).board id := by
  rw [judgedBoard, Rulebook.name?_rename] at hn
  obtain ⟨name', hn', -⟩ := Option.map_eq_some_iff.mp hn
  refine (g.accounts_movement d).kept id fun hid => ?_
  rw [((g.accounts_movement d).gone id hid).2.name] at hn'
  cases hn'

/-- The newcomers with a property that a turn reports, with their cells. -/
def recruits (g : Game) (d : Direction) (p : Property) : List (EntityId × Cell) :=
  arrivals (g.judgedBoard d) (g.rules.properties.entitiesWith (g.movement d).board p)
    ((g.newRules d).properties.entitiesWith (g.judgedBoard d) p)

/-- To have had the property after the movement is to have had it before. -/
theorem mem_recruits : (id, c) ∈ g.recruits d p ↔
    id ∈ (g.newRules d).properties.entitiesWith (g.judgedBoard d) p ∧
      id ∉ g.rules.properties.entitiesWith g.board p ∧ (g.judgedBoard d).cell? id = some c := by
  rw [recruits, mem_arrivals]
  refine and_congr_right fun hafter => and_congr_left' (not_congr ?_)
  obtain ⟨-, name, hn, -⟩ := PropertyTable.mem_ofEntity.mp (PropertyTable.mem_entitiesWith.mp hafter)
  rw [PropertyTable.mem_entitiesWith, PropertyTable.mem_entitiesWith,
    PropertyTable.ofEntity_of_kept (kept_movement hn)]

theorem news_movement (g : Game) (d : Direction) : g.news (g.movement d) =
    (g.movement d).destroyed.map (fun (id, c) => .destroyed id c) ++
    (g.recruits d .you).map (fun (id, c) => .becameYou id c) ++
    (g.recruits d .win).map (fun (id, c) => .becameWin id c) ++
    ((g.newRules d).judge (g.judgedBoard d)).destroyed.map (fun (id, c) => .destroyed id c) := by
  rw [news]
  simp only [newcomers_eq_map]
  rfl

/-- What is told last is not told of any cell. -/
theorem cell?_of_mem_ending {e : Event} {result : TurnResult} (he : e ∈ result.ending) :
    e.cell? = none := by
  cases result with
  | won | lost =>
    rw [List.mem_singleton.mp he]
    rfl
  | carriedOn | moved | nothingMoved => cases he

theorem not_mem_ending {e : Event} {result : TurnResult} (he : e.cell? = some c) :
    e ∉ result.ending := fun h => by
  rw [cell?_of_mem_ending h] at he
  cases he

theorem mem_news_iff {result : TurnResult} :
    (.becameYou id c ∈ g.news (g.movement d) ++ result.ending ↔ (id, c) ∈ g.recruits d .you) ∧
    (.becameWin id c ∈ g.news (g.movement d) ++ result.ending ↔ (id, c) ∈ g.recruits d .win) := by
  rw [List.mem_append, List.mem_append, or_iff_left (not_mem_ending rfl),
    or_iff_left (not_mem_ending rfl), news_movement]
  simp

/-- A move that moves something tells first what sank, then what has become YOU, then what has become WIN,
then what was killed, and last how the turn ended; the newcomers in ascending order and each of them once.
Told as YOU, or as WIN, are those that are it by the new rules before the verdict, each in its cell, and
were not before the move. -/
theorem newcomers_reported (g : Game) (d : Direction)
    (hmoved : (g.act (.move d)).2 ≠ .nothingMoved) :
    ∃ (told : List Event) (yous wins : List (EntityId × Cell)),
      (g.act (.move d)).1.events = g.events ++ told ∧
      told = (g.movement d).destroyed.map (fun (id, c) => .destroyed id c) ++
        yous.map (fun (id, c) => .becameYou id c) ++ wins.map (fun (id, c) => .becameWin id c) ++
        ((g.newRules d).judge (g.judgedBoard d)).destroyed.map (fun (id, c) => .destroyed id c) ++
        (g.act (.move d)).2.ending ∧
      (yous.map Prod.fst).Pairwise (· < ·) ∧ (wins.map Prod.fst).Pairwise (· < ·) ∧
      (∀ id c, .becameYou id c ∈ told ↔ id ∈ (g.newRules d).youEntities (g.judgedBoard d) ∧
        id ∉ g.youEntities ∧ (g.judgedBoard d).cell? id = some c) ∧
      (∀ id c, .becameWin id c ∈ told ↔ id ∈ (g.newRules d).winEntities (g.judgedBoard d) ∧
        id ∉ g.winEntities ∧ (g.judgedBoard d).cell? id = some c) := by
  refine ⟨_, g.recruits d .you, g.recruits d .win, events_move hmoved, ?_, ?_, ?_, ?_, ?_⟩
  · rw [news_movement]
    rfl
  · exact arrivals_ascending (PropertyTable.entitiesWith_ascending _ _ _)
  · exact arrivals_ascending (PropertyTable.entitiesWith_ascending _ _ _)
  · exact fun id c => mem_news_iff.1.trans mem_recruits
  · exact fun id c => mem_news_iff.2.trans mem_recruits

/-- A thing that is YOU beside a word that it can push under two others, so that rocks are YOU too. -/
def promotionLevel : Level :=
  .ofRows "Promotion" 5 4 [[' ', ' ', ' ', ' ', 'r'], [], ['b']]
    [[' ', ' ', 'R'], [' ', ' ', 'I'], [' ', 'Y'], ['B', 'I', 'Y']]

def promotionGame : Game := (fresh {}).serveAll [.load promotionLevel]

/-- The word is pushed, and the rock is told to have become YOU where it stands. -/
theorem newcomers_reported_promotion :
    (promotionGame.act (.move .right)).2 ≠ .nothingMoved ∧ ∃ told,
      (promotionGame.act (.move .right)).1.events = promotionGame.events ++ told ∧
        .becameYou 1 ⟨4, 0⟩ ∈ told ∧ .becameYou 3 ⟨1, 2⟩ ∉ told := by
  have hmoved : (promotionGame.act (.move .right)).2 ≠ .nothingMoved := by decide +kernel
  obtain ⟨told, -, -, hevents, -, -, -, hyou, -⟩ := newcomers_reported promotionGame .right hmoved
  refine ⟨hmoved, told, hevents, (hyou 1 ⟨4, 0⟩).mpr (by decide +kernel), fun h => ?_⟩
  exact absurd ((hyou 3 ⟨1, 2⟩).mp h).2.1 (by decide +kernel)

end Game

end WordTiles
