import WordTiles.Movement.Turn

/-! Clearing a cell, so that something can move into it. What blocks cannot be cleared. An occupant
that is YOU and has not moved yet walks on by itself, then whatever can be pushed is pushed; each of
them steps into the next cell, which has to be cleared first. A cell off the board cannot be cleared,
so nothing is pushed past the edge. -/

namespace WordTiles

open Std

/-- A turn in the middle of a move: the cells that are being cleared and those that are clear. -/
@[ext] structure Attempt extends Turn where
  line : ExtTreeSet Cell := ∅
  cleared : ExtTreeSet Cell := ∅
deriving DecidableEq

namespace Attempt

def arrive (φ : Physics) (id : EntityId) (c : Cell) (a : Attempt) : Attempt :=
  { a with toTurn := a.toTurn.arrive φ id c }

/-- An occupant walks if it is still there, is YOU and has not moved this turn. -/
def walks (φ : Physics) (c : Cell) (a : Attempt) (id : EntityId) : Bool :=
  a.board.cell? id = some c ∧ ¬ id ∈ a.moved ∧ φ.isYou a.board id

/-- An occupant is pushed if it is still there and can be pushed, whether it has moved or not. -/
def isPushed (φ : Physics) (c : Cell) (a : Attempt) (id : EntityId) : Bool :=
  a.board.cell? id = some c ∧ φ.isPushable a.board id

/-- Makes those of the entities `go` that are chosen when their turn comes. -/
def sweep (chosen : Attempt → EntityId → Bool) (go : EntityId → Attempt → Except Attempt Attempt)
    (ids : List EntityId) (a : Attempt) : Except Attempt Attempt :=
  ids.foldlM (fun a id => if chosen a id then go id a else .ok a) a

/-- Empties a cell of all that walks and all that is pushed, by a way to make one entity leave. -/
def vacate (φ : Physics) (c : Cell) (go : EntityId → Attempt → Except Attempt Attempt)
    (a : Attempt) : Except Attempt Attempt :=
  let here := a.board.occupants c
  if here.any (φ.blocks a.board) then .error a
  else (sweep (walks φ c) go here a).bind (sweep (isPushed φ c) go here)

/-- Notes that a cell is being cleared. -/
def enter (c : Cell) (a : Attempt) : Attempt := { a with line := a.line.insert c }

/-- Notes that a cell is not being cleared any more. -/
def leave (c : Cell) (a : Attempt) : Attempt := { a with line := a.line.erase c }

/-- Notes that a cell has been cleared. -/
def settle (c : Cell) (a : Attempt) : Attempt := { a with cleared := a.cleared.insert c }

/-- Clears a cell by making what stands there leave in direction `d`. An attempt that fails is given
back as an error. A cell that is already clear stays so for the rest of the attempt, and a cell that
is being cleared is not entered a second time. Each step leaves less room ahead, so this ends. -/
def clear (φ : Physics) (d : Direction) (c : Cell) (a : Attempt) : Except Attempt Attempt :=
  if φ.bounds.contains c then
    if c ∈ a.cleared then .ok a
    else if c ∈ a.line then .error a
    else
      let go id a := (clear φ d (c.step d) a).map (arrive φ id (c.step d))
      match vacate φ c go (a.enter c) with
      | .ok a => .ok ((a.leave c).settle c)
      | .error a => .error (a.leave c)
  else .error a
termination_by φ.bounds.room c d
decreasing_by exact Bounds.room_step_lt ‹_› d

end Attempt

end WordTiles
