import WordTiles.Grid.Cell
import WordTiles.Level.Error

/-! Levels: a name, a size, and two layers of characters of that size, one for things and one for
words. -/

namespace WordTiles

/-- The character of an empty cell. -/
def blankTile : Char := ' '

abbrev Row := List Char

/-- A layer should have `height` rows of `width` characters each; `validate` says whether it has. -/
@[ext] structure Level where
  name : String
  width : Nat
  height : Nat
  things : List Row
  words : List Row
deriving DecidableEq, Repr

namespace Level

/-- A list cut off or filled up to a length. Only a reader of texts asks whether there is memory for it. -/
def fit {α : Type} (n : Nat) (filling : α) (as : List α) : List α :=
  as.take n ++ List.replicate (n - as.length) filling

/-- Rows cut off or filled up with blanks to a size. -/
def fitRows (width height : Nat) (rows : List Row) : List Row :=
  (fit height [] rows).map (fit width blankTile)

/-- A level of the given size made from any rows. -/
def ofRows (name : String) (width height : Nat) (things words : List Row) : Level where
  name := name
  width := width
  height := height
  things := fitRows width height things
  words := fitRows width height words

def blank (name : String) (width height : Nat) : Level := ofRows name width height [] []

def layer (l : Level) : Layer → List Row
  | .things => l.things
  | .words => l.words

/-- The first fault of a layer: a wrong number of rows, or a row of the wrong length. -/
def layerFault? (l : Level) (layer : Layer) : Option LevelError :=
  let rows := l.layer layer
  if rows.length ≠ l.height then
    some (.shortLayer l.name layer l.height rows.length)
  else
    (rows.zipIdx.find? fun (row, _) => row.length ≠ l.width).map fun (row, y) =>
      .raggedRow l.name layer y l.width row.length

/-- The first fault of a level. -/
def fault? (l : Level) : Option LevelError :=
  if l.width = 0 ∨ l.height = 0 then some (.emptyGrid l.name l.width l.height)
  else (l.layerFault? .things).or (l.layerFault? .words)

/-- Checks that the grid is not empty and that both layers have its size. -/
def validate (l : Level) : Except LevelError Unit :=
  match l.fault? with
  | some e => .error e
  | none => .ok ()

/-- Changes one character of a layer; outside the layer nothing changes. -/
def set (l : Level) (layer : Layer) (x y : Nat) (c : Char) : Level :=
  match layer with
  | .things => { l with things := l.things.modify y (·.set x c) }
  | .words => { l with words := l.words.modify y (·.set x c) }

/-- The cells row by row, with their characters in both layers. The numbers of columns and rows are their
coordinates as they are; from 2 ^ 31 on they would be cut down to 32 bits, which is left out here. -/
def cells (l : Level) : List (Cell × Char × Char) :=
  (l.things.zip l.words).zipIdx.flatMap fun ((things, words), y) =>
    (things.zip words).zipIdx.map fun ((thing, word), x) => (⟨x, y⟩, thing, word)

end Level

end WordTiles
