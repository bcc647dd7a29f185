import WordTiles.Rules.WordMap

/-! Sentences: a subject, the linking word and a complement in three cells in a row, read from left
to right or from top to bottom. Several words may share a cell, and then each subject of the first
cell makes a sentence with each complement of the third. -/

namespace WordTiles

inductive Axis where
  | horizontal | vertical
deriving DecidableEq, Repr, Inhabited

/-- The direction in which the words along an axis are read. -/
def Axis.direction : Axis → Direction
  | .horizontal => .right
  | .vertical => .down

/-- What a sentence says of its subject: properties that it gets, or what it turns into. -/
inductive Complement where
  | properties (ps : PropertySet)
  | noun (name : String)
deriving DecidableEq, Repr

@[ext] structure Sentence where
  subject : String
  complement : Complement
  axis : Axis
  /-- The cell of the subject. -/
  origin : Cell
deriving DecidableEq, Repr

/-- The sentence as it is shown to a player; the linking word is always shown as `IS`. -/
def Sentence.text (s : Sentence) : String :=
  s.subject ++ " IS " ++ match s.complement with
    | .properties ps => ps.text
    | .noun name => name

namespace WordMap

/-- The complements that a cell offers, properties before nouns. A tile may play the part of a
property without naming one; it offers nothing. -/
def complements (m : WordMap) (c : Cell) : List Complement :=
  ((m.wordsWith c .property).filterMap fun w =>
    (Property.ofWord? w).map fun p => .properties {p}) ++
  (m.wordsWith c .subject).map .noun

/-- The sentences that begin in a cell. -/
def sentencesAt (m : WordMap) (operator : String) (axis : Axis) (origin : Cell) : List Sentence :=
  if m.role? (origin.onward axis.direction 1) operator = some .operator then
    (m.wordsWith origin .subject).flatMap fun subject =>
      (m.complements (origin.onward axis.direction 2)).map fun complement =>
        { subject, complement, axis, origin }
  else []

/-- All sentences: the horizontal ones row by row, then the vertical ones column by column. -/
def sentences (m : WordMap) (operator : String) : List Sentence :=
  m.byRows.flatMap (m.sentencesAt operator .horizontal) ++
  m.byColumns.flatMap (m.sentencesAt operator .vertical)

end WordMap

end WordTiles
