import WordTiles.Text.Decimal
import WordTiles.Text.Split
import WordTiles.Word.Property

/-! The saved text of a set of properties: the names of its properties in capital letters with bars
between them, and after them, in hexadecimal, the bits that have no name. -/

namespace WordTiles

/-- The name of a property in saved text. -/
def Property.flag : Property → String
  | you => "YOU"
  | win => "WIN"
  | stop => "STOP"
  | push => "PUSH"
  | sink => "SINK"
  | kill => "KILL"

def Property.ofFlag? (s : String) : Option Property := all.find? fun p => p.flag == s

namespace PropertySet

/-- The bits that have no name. -/
def unnamed (s : PropertySet) : BitVec 8 := s.bits &&& 0xC0#8

/-- The saved text of the bits that have no name, if there are any. -/
def unnamedFlag (s : PropertySet) : List String :=
  if s.unnamed = 0 then []
  else ["0x" ++ String.ofList (Nat.toDigits 16 s.unnamed.toNat)]

def flagText (s : PropertySet) : String :=
  " | ".intercalate (s.toList.map Property.flag ++ s.unnamedFlag)

/-- Reads one part of a saved text: the exact name of a property, or bits in hexadecimal. -/
def ofFlag? (cs : List Char) : Option PropertySet :=
  match cs with
  | '0' :: 'x' :: hex => (Text.readHexByte? hex).map fun n => ⟨BitVec.ofNat 8 n⟩
  | _ => (Property.ofFlag? (String.ofList cs)).map fun p => {p}

/-- Reads a saved text. The parts may come in any order and more than once, with blanks around them;
a blank text is the empty set, but a blank part among others is a fault. -/
def ofFlagText? (s : String) : Option PropertySet :=
  if (Text.trim s.toList).isEmpty then some ∅
  else ((Text.split '|' s.toList).mapM fun part => ofFlag? (Text.trim part)).map
    (·.foldl (· ∪ ·) ∅)

end PropertySet

end WordTiles
