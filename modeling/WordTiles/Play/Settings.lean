import WordTiles.Level.Legend
import WordTiles.Movement.Physics
import WordTiles.Rules.Rulebook

/-! What a host chooses once: the names that always block, the linking word, how many turns can be
taken back, and the legend of its levels. -/

namespace WordTiles

@[ext] structure Settings where
  blockers : List String := ["Hedge"]
  operator : String := "Is"
  historyLimit : Option Nat := none
  legend : Legend := Legend.standard
deriving DecidableEq

namespace Settings

/-- Makes a name block; a name is listed once. -/
def addBlocker (s : Settings) (name : String) : Settings :=
  if name ∈ s.blockers then s else { s with blockers := s.blockers ++ [name] }

/-- The physics of a board under these settings. -/
def physics (s : Settings) (properties : PropertyTable) (bounds : Bounds) : Physics :=
  { properties, blockers := s.blockers, bounds }

end Settings

end WordTiles
