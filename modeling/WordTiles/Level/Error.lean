/-! What can be wrong with a level or with a request for one. -/

namespace WordTiles

/-- The two layers of a level. -/
inductive Layer where
  | things | words
deriving DecidableEq, Repr, Inhabited

def Layer.text : Layer → String
  | things => "gameplay"
  | words => "rule"

inductive LevelError where
  /-- The line after the name of a level does not give its size. -/
  | badSize (level line : String)
  /-- The text ends after the name of a level. -/
  | noSize (level : String)
  /-- A layer has another number of rows than the level is high. -/
  | shortLayer (level : String) (layer : Layer) (expected found : Nat)
  /-- The width or the height is zero. -/
  | emptyGrid (level : String) (width height : Nat)
  /-- A row has another number of cells than the level is wide. -/
  | raggedRow (level : String) (layer : Layer) (row expected found : Nat)
  /-- There are no levels to play. -/
  | noLevels
  /-- There is no level of this index. -/
  | noSuchLevel (index count : Nat)
deriving DecidableEq, Repr

namespace LevelError

private def inLevel (level rest : String) : String := "level `" ++ level ++ "`: " ++ rest

/-- The error as it is shown to a player. -/
def message : LevelError → String
  | badSize level line =>
    inLevel level ("bad dimension line `" ++ line ++ "` (expected `W x H`)")
  | noSize level => inLevel level "missing dimension line"
  | shortLayer level layer expected found =>
    inLevel level (layer.text ++ " layer has " ++ toString found ++ " of " ++ toString expected
      ++ " rows")
  | emptyGrid level width height =>
    inLevel level ("grid is " ++ toString width ++ " x " ++ toString height)
  | raggedRow level layer row expected found =>
    inLevel level (layer.text ++ " row " ++ toString row ++ " has " ++ toString found
      ++ " cells, expected " ++ toString expected)
  | noLevels => "no levels to play"
  | noSuchLevel index count =>
    "level " ++ toString index ++ " requested, but there are only " ++ toString count

end LevelError

end WordTiles
