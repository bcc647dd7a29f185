import WordTiles.Board.Basic

/-! What a game tells its host. -/

namespace WordTiles

inductive Event where
  | levelLoaded (name : String)
  | destroyed (id : EntityId) (cell : Cell)
  | becameYou (id : EntityId) (cell : Cell)
  | becameWin (id : EntityId) (cell : Cell)
  | victory
  | defeat
deriving DecidableEq, Repr

namespace Event

/-- Where the event took place. -/
def cell? : Event → Option Cell
  | levelLoaded _ => none
  | destroyed _ c => some c
  | becameYou _ c => some c
  | becameWin _ c => some c
  | victory => none
  | defeat => none

private def about (what : String) (id : EntityId) (c : Cell) : String :=
  what ++ "(" ++ EntityId.text id ++ " at " ++ c.text ++ ")"

/-- The event as it is shown to a host. -/
def text : Event → String
  | levelLoaded name => "LevelLoaded(" ++ name ++ ")"
  | destroyed id c => about "EntityDestroyed" id c
  | becameYou id c => about "BecameYou" id c
  | becameWin id c => about "BecameWin" id c
  | victory => "Victory"
  | defeat => "Defeat"

end Event

end WordTiles
