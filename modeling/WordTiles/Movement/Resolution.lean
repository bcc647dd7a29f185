import WordTiles.Movement.Clearing

/-! Moving one entity, and moving all that set out in a turn. A move that fails leaves the turn as it
was, however much of it had been tried. -/

namespace WordTiles

open Std

namespace Turn

/-- Moves an entity one step; fails if it stands nowhere or the next cell cannot be cleared. -/
def move? (φ : Physics) (d : Direction) (id : EntityId) (t : Turn) : Option Turn :=
  (t.board.cell? id).bind fun c =>
    match Attempt.clear φ d (c.step d) { t with } with
    | .ok a => some (a.toTurn.arrive φ id (c.step d))
    | .error _ => none

/-- Gives an entity its move unless it has already moved or is no longer live. -/
def advance (φ : Physics) (d : Direction) (t : Turn) (id : EntityId) : Turn :=
  if id ∈ t.moved ∨ ¬ id ∈ t.board.live then t else (t.move? φ d id).getD t

/-- Gives every mover its move, in ascending order and each of them once. -/
def resolve (φ : Physics) (d : Direction) (movers : List EntityId) (t : Turn) : Turn :=
  (ExtTreeSet.ofList movers).toList.foldl (advance φ d) t

end Turn

end WordTiles
