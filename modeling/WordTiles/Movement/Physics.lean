import WordTiles.Grid.Bounds
import WordTiles.Rules.PropertyTable

/-! What movement asks about the occupant of a cell: does it walk by itself, can it be pushed, does
it block, does it sink. Word tiles can always be pushed and never block, walk or sink. -/

namespace WordTiles

/-- The properties in force, the names that block whatever the rules say, and the edge of the board. -/
structure Physics where
  properties : PropertyTable
  blockers : List String
  bounds : Bounds

namespace Physics

def isYou (φ : Physics) (b : Board) (id : EntityId) : Bool :=
  .you ∈ φ.properties.ofEntity b id

def isPushable (φ : Physics) (b : Board) (id : EntityId) : Bool :=
  b.isWord id ∨ .push ∈ φ.properties.ofEntity b id

def isSink (φ : Physics) (b : Board) (id : EntityId) : Bool :=
  .sink ∈ φ.properties.ofEntity b id

/-- Whether the name of an entity is one that always blocks. -/
def isBlocker (φ : Physics) (b : Board) (id : EntityId) : Bool :=
  (b.name? id).any φ.blockers.contains

/-- An entity that is not a word tile blocks by its name, or if it stops and cannot be pushed. -/
def blocks (φ : Physics) (b : Board) (id : EntityId) : Bool :=
  ¬ b.isWord id ∧ (φ.isBlocker b id ∨
    .stop ∈ φ.properties.ofEntity b id ∧ ¬ .push ∈ φ.properties.ofEntity b id)

/-- What drowns when `mover` has just arrived in a cell. It takes at least two occupants, one of
them a sinking one, and then every occupant drowns but the word tiles and a mover that sinks. -/
def drowned (φ : Physics) (b : Board) (c : Cell) (mover : EntityId) : List EntityId :=
  let here := b.occupants c
  if 2 ≤ here.length ∧ here.any (φ.isSink b) then
    here.filter fun id => ¬ b.isWord id ∧ ¬ (id = mover ∧ φ.isSink b mover)
  else []

end Physics

end WordTiles
