/-! The parts of a text between separators. -/

namespace WordTiles.Text

/-- Cuts a text at each separator; there is one more part than there are separators. -/
def split (sep : Char) : List Char → List (List Char)
  | [] => [[]]
  | c :: cs =>
    if c = sep then [] :: split sep cs
    else match split sep cs with
      | [] => [[c]]
      | part :: parts => (c :: part) :: parts

end WordTiles.Text
