import WordTiles.Board.Basic

/-! Which words stand where. Of several tiles with one text in one cell the tile with the highest
number decides the part that the word plays there. -/

namespace WordTiles

open Std

/-- For each cell with word tiles, the words there and the parts they play. -/
abbrev WordMap := ExtTreeMap Cell (ExtTreeMap String Role)

namespace WordMap

/-- The words in a cell. -/
def wordsAt (m : WordMap) (c : Cell) : ExtTreeMap String Role := m.getD c ∅

/-- Puts a tile onto a cell, over any with the same text. -/
def place (m : WordMap) (c : Cell) (w : WordTile) : WordMap :=
  m.insert c ((m.wordsAt c).insert w.text w.role)

/-- The words of a board; a word tile that stands nowhere does not count. -/
def ofBoard (b : Board) : WordMap :=
  b.words.foldl (fun m id w => match b.cell? id with
    | some c => m.place c w
    | none => m) ∅

/-- The part that a word plays in a cell. -/
def role? (m : WordMap) (c : Cell) (word : String) : Option Role := (m.wordsAt c)[word]?

/-- The words that play a part in a cell, in ascending order. -/
def wordsWith (m : WordMap) (c : Cell) (r : Role) : List String :=
  ((m.wordsAt c).filter fun _ r' => r' = r).keys

/-- The cells with words, column after column. -/
def byColumns (m : WordMap) : List Cell := m.keys

/-- The cells with words, row after row. -/
def byRows (m : WordMap) : List Cell :=
  (ExtTreeSet.ofList (m.keys.map Cell.transpose)).toList.map Cell.transpose

end WordMap

end WordTiles
