/-! The lines of a text. A line ends at a line feed, and one carriage return right before the line
feed belongs to the line end. What follows the last line feed is a line only if it is not empty, and
it keeps its carriage return. -/

namespace WordTiles.Text

def lines : List Char → List (List Char)
  | [] => []
  | '\n' :: cs => [] :: lines cs
  | '\r' :: '\n' :: cs => [] :: lines cs
  | c :: cs =>
    match lines cs with
    | [] => [[c]]
    | l :: ls => (c :: l) :: ls

end WordTiles.Text
