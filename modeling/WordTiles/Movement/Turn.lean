import WordTiles.Movement.Physics

/-! The movement part of a turn as it goes on, and the one change it is made of: an entity arrives
in a cell, and what drowns there is destroyed at once. -/

namespace WordTiles

/-- The board, the entities that moved so far in the order of their moves, and the entities that
were destroyed with their cells. -/
@[ext] structure Turn where
  board : Board
  moved : List EntityId := []
  destroyed : List (EntityId × Cell) := []
deriving DecidableEq

namespace Turn

/-- Destroys what drowns in a cell in which `mover` has just arrived. Only what was live is
reported. -/
def sink (φ : Physics) (c : Cell) (mover : EntityId) (t : Turn) : Turn :=
  let drowned := φ.drowned t.board c mover
  { t with
    board := t.board.destroyAll drowned
    destroyed := t.destroyed ++ (drowned.filter (· ∈ t.board.live)).map (·, c) }

/-- Moves an entity onto a cell. -/
def arrive (φ : Physics) (id : EntityId) (c : Cell) (t : Turn) : Turn :=
  sink φ c id { t with board := t.board.relocate id c, moved := t.moved ++ [id] }

end Turn

end WordTiles
