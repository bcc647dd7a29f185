import WordTiles.Text.Blank

/-! Natural numbers written in decimal, and sizes of levels. -/

namespace WordTiles.Text

/-- The value of a digit `0` to `9`; other characters, digits of other scripts too, have none. -/
def digitValue? (c : Char) : Option Nat :=
  if c.isDigit then some (c.toNat - '0'.toNat) else none

/-- The number that digits stand for, the most significant first. -/
def ofDigits (base : Nat) (digits : List Nat) : Nat := digits.foldl (fun n d => base * n + d) 0

/-- Reads at least one digit, by a way to read a digit. -/
def readDigits? (base : Nat) (digit? : Char → Option Nat) (cs : List Char) : Option Nat :=
  if cs.isEmpty then none else (cs.mapM digit?).map (ofDigits base)

/-- Leaves out a plus sign at the front. -/
def dropPlus : List Char → List Char
  | '+' :: cs => cs
  | cs => cs

/-- Sizes have 64 bits. -/
def sizeBound : Nat := 0x10000000000000000

/-- Reads a size: decimal digits, perhaps with a plus sign before them. -/
def readSize? (cs : List Char) : Option Nat :=
  (readDigits? 10 digitValue? (dropPlus cs)).filter (· < sizeBound)

/-- Reads two sizes on both sides of the first `x`; blanks around them do not count. -/
def readSizes? (cs : List Char) : Option (Nat × Nat) :=
  match cs.span (· ≠ 'x') with
  | (w, _ :: h) => do return (← readSize? (trim w), ← readSize? (trim h))
  | (_, []) => none

/-- The value of a hexadecimal digit in either case. -/
def hexValue? (c : Char) : Option Nat :=
  if c.isDigit then some (c.toNat - '0'.toNat)
  else if 'a' ≤ c ∧ c ≤ 'f' then some (c.toNat - 'a'.toNat + 10)
  else if 'A' ≤ c ∧ c ≤ 'F' then some (c.toNat - 'A'.toNat + 10)
  else none

/-- Reads a byte: hexadecimal digits, perhaps with a plus sign before them. -/
def readHexByte? (cs : List Char) : Option Nat :=
  (readDigits? 16 hexValue? (dropPlus cs)).filter (· < 256)

end WordTiles.Text
