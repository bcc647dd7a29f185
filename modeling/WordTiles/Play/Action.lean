import WordTiles.Grid.Direction
import WordTiles.Text.Blank

/-! What a player can do, and the words for it. -/

namespace WordTiles

inductive Action where
  | move (d : Direction)
  | undo
  | restart
deriving DecidableEq, Repr, Inhabited

namespace Action

/-- The direction of a move. -/
def direction? : Action → Option Direction
  | move d => some d
  | undo => none
  | restart => none

/-- The word for an action. -/
def word : Action → String
  | move .up => "up"
  | move .down => "down"
  | move .left => "left"
  | move .right => "right"
  | undo => "undo"
  | restart => "restart"

def all : List Action := Direction.all.map move ++ [undo, restart]

/-- The action that a text names. Blanks around the word do not count, nor does the case of the
letters A to Z. -/
def parse? (text : String) : Option Action :=
  let word := String.ofList ((Text.trim text.toList).map Char.toLower)
  all.find? fun a => a.word = word

/-- What a player is told about a text that names no action; the text is quoted as it came. -/
def unknownMessage (text : String) : String := "unknown action `" ++ text ++ "`"

@[simp] theorem mem_all (a : Action) : a ∈ all := by
  cases a with
  | move d => cases d <;> decide
  | undo => decide
  | restart => decide

end Action

end WordTiles
