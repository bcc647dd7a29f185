import WordTiles.Board.Basic

/-! The boards to come back to. A turn is opened before anything moves, which keeps the board, and is
closed when it is known whether something moved; a turn without movement leaves nothing behind. -/

namespace WordTiles

structure History where
  /-- The kept boards, the latest first. An open turn has kept the first of them. -/
  past : List Board := []
  isOpen : Bool := false
  /-- The board as the level began. -/
  start : Option Board := none
  /-- How many turns are kept at most. -/
  limit : Option Nat := none
deriving DecidableEq, Inhabited

namespace History

/-- The kept boards without that of an open turn. -/
def committed (h : History) : List Board := if h.isOpen then h.past.tail else h.past

/-- How many turns can be taken back. -/
def depth (h : History) : Nat := h.committed.length

/-- Forgets all turns; the level begins with this board. -/
def beginLevel (h : History) (b : Board) : History :=
  { h with past := [], isOpen := false, start := some b }

/-- Opens a turn. One that is still open is taken for a turn without movement. -/
def openTurn (h : History) (b : Board) : History :=
  { h with past := b :: h.committed, isOpen := true }

/-- The latest boards, as many as are kept. -/
def trim (h : History) (past : List Board) : List Board :=
  match h.limit with
  | some n => past.take n
  | none => past

/-- Closes the open turn, if there is one. -/
def closeTurn (h : History) (moved : Bool) : History :=
  if h.isOpen then
    { h with past := if moved then h.trim h.past else h.past.tail, isOpen := false }
  else h

/-- The board before the last turn, and the history without it; nothing while a turn is open. -/
def undo? (h : History) : Option (Board × History) :=
  if h.isOpen then none
  else match h.past with
    | [] => none
    | b :: past => some (b, { h with past })

/-- The board as the level began, and the history without any turn. -/
def restart? (h : History) : Option (Board × History) :=
  h.start.map fun b => (b, { h with past := [], isOpen := false })

end History

end WordTiles
