import WordTiles.Level.Text
import WordTiles.Play.Game

/-! A list of levels played one after the other. A level that is won leads to the next, one that is
lost begins again. -/

namespace WordTiles

structure Campaign where
  levels : List Level
  current : Nat := 0
  completed : Bool := false
  game : Game
deriving DecidableEq

/-- What an action came to in a campaign. -/
inductive CampaignStep where
  | turn (result : TurnResult)
  | advanced (index : Nat)
  | restarted
  | completed
deriving DecidableEq, Repr

namespace Campaign

/-- Begins a campaign; all its levels are checked first. -/
def start (s : Settings) (levels : List Level) : Except LevelError Campaign :=
  match levels with
  | [] => .error .noLevels
  | first :: _ => do
    levels.forM Level.validate
    let game ← Game.load { settings := s } first
    return { levels, game }

/-- Begins a campaign with the levels of a text as it is read where memory never runs out. -/
def ofText (s : Settings) (text : String) : Except LevelError Campaign :=
  Level.parse text >>= start s

/-- Begins a campaign with the levels of a text. Nothing comes of a text that cannot be read for want of
memory. -/
def ofText? (s : Settings) (text : String) : Option (Except LevelError Campaign) :=
  (Level.parse? text).map (· >>= start s)

/-- Goes to a level of the campaign. -/
def select (c : Campaign) (index : Nat) : Except LevelError Campaign :=
  match c.levels[index]? with
  | none => .error (.noSuchLevel index c.levels.length)
  | some level => do
    let game ← c.game.load level
    return { c with game, current := index, completed := false }

/-- The level in play. -/
def level? (c : Campaign) : Option Level := c.levels[c.current]?

/-- What follows when the level in play has been won. -/
def advance (c : Campaign) : Except LevelError CampaignStep × Campaign :=
  let next := c.current + 1
  if next < c.levels.length then
    match c.select next with
    | .ok c' => (.ok (.advanced next), c')
    | .error e => (.error e, c)
  else (.ok .completed, { c with completed := true })

/-- Acts on the level in play. A completed campaign takes no more actions. -/
def act (c : Campaign) (a : Action) : Except LevelError CampaignStep × Campaign :=
  if c.completed then (.ok .completed, c)
  else
    let (game, result) := c.game.act a
    match result with
    | .won => advance { c with game }
    | .lost => (.ok .restarted, { c with game := game.restart?.getD game })
    | result => (.ok (.turn result), { c with game })

end Campaign

end WordTiles
