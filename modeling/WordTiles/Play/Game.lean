import WordTiles.History
import WordTiles.Movement.Resolution
import WordTiles.Play.Action
import WordTiles.Play.Event
import WordTiles.Play.Settings
import WordTiles.Verdict

/-! One level in play. A move goes through movement, the new rules, the renaming and the verdict, in
this order; each part reports to the host by events, which wait in a queue. -/

namespace WordTiles

/-- What an action came to. -/
inductive TurnResult where
  | carriedOn | moved | nothingMoved | won | lost
deriving DecidableEq, Repr, Inhabited

/-- Whether the level is over. -/
def TurnResult.isTerminal : TurnResult → Bool
  | won => true
  | lost => true
  | _ => false

/-- What a host draws for an entity that stands somewhere. -/
structure Sprite where
  id : EntityId
  cell : Cell
  name : String
  isWord : Bool
deriving DecidableEq, Repr

structure Game where
  settings : Settings
  board : Board := ∅
  rules : Rulebook := { operator := settings.operator }
  history : History := { limit := settings.historyLimit }
  bounds : Bounds := ⟨0, 0⟩
  levelName : Option String := none
  /-- The events that have not been fetched yet, the earliest first. -/
  events : List Event := []
deriving DecidableEq

namespace Game

/-! ### Loading -/

/-- Puts what a character stands for onto a cell. The blank stands for nothing, whatever the legend
says, and neither does a character that is not in the legend. -/
def place (s : Settings) (cell : Cell) (c : Char) (b : Board) : Board :=
  if c = blankTile then b
  else match s.legend[c]? with
    | none => b
    | some blueprint =>
      let id := b.nextId
      let thing := (b.spawn.attach .cell id cell).attach .name id blueprint.name
      if blueprint.isWord then
        thing.attach .word id ⟨blueprint.name, .classify blueprint.name s.operator⟩
      else thing

/-- The board of a level before any rule is read. -/
def layOut (s : Settings) (l : Level) : Board :=
  l.cells.foldl (fun b (cell, thing, word) => place s cell word (place s cell thing b)) ∅

/-- Loads a level; the game before is forgotten but for its events. The bounds have the size of the level
as it is; from 2 ^ 31 on it would be cut down to 32 bits, which is left out here as it is in the cells. -/
def load (g : Game) (l : Level) : Except LevelError Game := do
  l.validate
  let laidOut := layOut g.settings l
  let rules := g.rules.update laidOut
  let board := rules.rename laidOut
  return { g with
    board
    rules
    history := g.history.beginLevel board
    bounds := ⟨l.width, l.height⟩
    levelName := some l.name
    events := g.events ++ [.levelLoaded l.name] }

/-! ### Turns -/

def youEntities (g : Game) : List EntityId := g.rules.youEntities g.board

def winEntities (g : Game) : List EntityId := g.rules.winEntities g.board

/-- Reports each of the entities that was not among those before, and stands somewhere. -/
def newcomers (event : EntityId → Cell → Event) (b : Board) (before after : List EntityId) :
    List Event :=
  (after.filter (· ∉ before)).filterMap fun id => (b.cell? id).map (event id)

/-- Moves every YOU thing; the turn that results, whether or not anything moved. -/
def movement (g : Game) (d : Direction) : Turn :=
  Turn.resolve (g.settings.physics g.rules.properties g.bounds) d g.youEntities { board := g.board }

/-- What follows on a movement: the rules are read anew, things are renamed, and the turn is judged.
What was YOU or WIN before is judged by the old rules, but after the movement. -/
def conclude (g : Game) (t : Turn) : Game × TurnResult :=
  let before : Game := { g with board := t.board }
  let rules := g.rules.update t.board
  let renamed := rules.rename t.board
  let verdict := rules.judge renamed
  let events :=
    t.destroyed.map (fun (id, c) => .destroyed id c) ++
    newcomers .becameYou renamed before.youEntities (rules.youEntities renamed) ++
    newcomers .becameWin renamed before.winEntities (rules.winEntities renamed) ++
    verdict.destroyed.map (fun (id, c) => .destroyed id c)
  let (last, result) := match verdict.outcome with
    | .win => ([.victory], TurnResult.won)
    | .lose => ([.defeat], TurnResult.lost)
    | .playing => ([], TurnResult.moved)
  ({ g with board := verdict.board, rules, events := g.events ++ events ++ last }, result)

/-- One turn in a direction. Where nothing moved the turn leaves nothing in the history. -/
def move (g : Game) (d : Direction) : Game × TurnResult :=
  if g.youEntities.isEmpty then (g, .nothingMoved)
  else
    let turn := g.movement d
    let opened := g.history.openTurn g.board
    if turn.moved.isEmpty then
      ({ g with board := turn.board, history := opened.closeTurn false }, .nothingMoved)
    else conclude { g with history := opened.closeTurn true } turn

/-- Goes back to a board of the history and reads the rules there. -/
def resume (g : Game) (back : Board × History) : Game :=
  { g with board := back.1, history := back.2, rules := g.rules.update back.1 }

/-- The game one turn earlier; nothing if no turn can be taken back. -/
def undo? (g : Game) : Option Game := g.history.undo?.map g.resume

/-- The game as the level began; nothing if no level has been loaded. -/
def restart? (g : Game) : Option Game := g.history.restart?.map g.resume

def act (g : Game) : Action → Game × TurnResult
  | .move d => g.move d
  | .undo => (g.undo?.getD g, .carriedOn)
  | .restart => (g.restart?.getD g, .carriedOn)

/-! ### What a host sees -/

/-- How many turns can be taken back. -/
def undoDepth (g : Game) : Nat := g.history.depth

/-- The events that wait, and the game without them. -/
def drain (g : Game) : List Event × Game := (g.events, { g with events := [] })

/-- What to draw, in ascending order of entities. The text of a word tile stands in for a missing
name. -/
def sprites (g : Game) : List Sprite :=
  g.board.cells.toList.map fun (id, cell) =>
    let word := g.board.word? id
    { id, cell
      name := ((g.board.name? id).or (word.map WordTile.text)).getD ""
      isWord := word.isSome }

end Game

end WordTiles
