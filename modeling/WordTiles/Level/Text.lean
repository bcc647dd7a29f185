import WordTiles.Level.Basic
import WordTiles.Text.Line
import WordTiles.Text.Decimal

/-! The text form of levels. A text holds levels one after the other: a line with the name, a line
with the size, then the rows of both layers. Blank lines count only inside a level. -/

namespace WordTiles

open Text

namespace Level

/-! ### Writing -/

def rowText (row : Row) : List Char := row ++ ['\n']

def sizeText (width height : Nat) : List Char :=
  (toString width ++ " x " ++ toString height).toList

/-- The characters of the text form. -/
def chars (l : Level) : List Char :=
  rowText l.name.toList ++ rowText (sizeText l.width l.height) ++ (l.things ++ l.words).flatMap rowText

def text (l : Level) : String := String.ofList l.chars

/-! ### Reading -/

/-- How a reader asks for memory: for the rows of a layer all at once, and then for the cells of each row.
Where it is not granted the reading does not go on. -/
structure Memory (m : Type → Type) where
  rows : Nat → m Unit
  cells : Nat → m Unit

section Reader

variable {m : Type → Type} [Monad m] [MonadExcept LevelError m]

/-- Takes the rows of a layer off the lines, each cut off or filled up to the width. -/
def readLayer (memory : Memory m) (name : String) (layer : Layer) (width height : Nat)
    (lines : List Row) : m (List Row) := do
  memory.rows height
  let rows ← (lines.take height).mapM fun line => do
    memory.cells width
    return fit width blankTile line
  if rows.length < height then throw (.shortLayer name layer height rows.length) else return rows

/-- Reads the level of this name from the lines that follow its name. -/
def readBlock (memory : Memory m) (name : String) (lines : List Row) : m Level :=
  match lines with
  | [] => throw (.noSize name)
  | line :: rows =>
    match readSizes? line with
    | none => throw (.badSize name (String.ofList line))
    | some (width, height) => do
      let things ← readLayer memory name .things width height rows
      let words ← readLayer memory name .words width height (rows.drop height)
      let level : Level := { name, width, height, things, words }
      MonadExcept.ofExcept level.validate
      return level

/-- How many lines a level takes up after its name. -/
def blockLength (l : Level) : Nat := 1 + 2 * l.height

/-- Reads the levels of a list of lines; the first fault ends the reading. -/
def readLines (memory : Memory m) (lines : List Row) : m (List Level) :=
  match lines with
  | [] => return []
  | line :: rest =>
    if (trim line).isEmpty then readLines memory rest
    else do
      let level ← readBlock memory (String.ofList (trim line)) rest
      let levels ← readLines memory (rest.drop level.blockLength)
      return level :: levels
termination_by lines.length
decreasing_by all_goals simp only [List.length_cons, List.length_drop]; omega

end Reader

namespace Memory

/-- Memory that never runs out. -/
def endless : Memory (Except LevelError) where
  rows _ := return ()
  cells _ := return ()

/-- Memory of which no more than so many bytes can be asked for at once. A row takes 24 of them besides its
cells, and a cell takes four. Whoever asks for more gets no answer. -/
def upTo (bytes : Nat) : Memory (ExceptT LevelError Option) where
  rows n := liftM (guard (24 * n ≤ bytes) : Option Unit)
  cells n := liftM (guard (4 * n ≤ bytes) : Option Unit)

end Memory

/-- Reads the levels of a text as it is read where memory never runs out. -/
def parse (text : String) : Except LevelError (List Level) :=
  readLines .endless (lines text.toList)

/-- The most bytes that can be asked for at once: sizes in memory are signed numbers of 64 bits. A machine
that has less than what is asked for is left out. -/
def mostBytes : Nat := 0x7fffffffffffffff

/-- Reads the levels of a text. Nothing comes of a text that asks for more memory than there can be: the
program stops there. -/
def parse? (text : String) : Option (Except LevelError (List Level)) :=
  (readLines (.upTo mostBytes) (lines text.toList)).run

end Level

end WordTiles
