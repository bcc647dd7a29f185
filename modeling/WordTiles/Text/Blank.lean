/-! Blank characters, and text without the blanks at its ends. -/

namespace WordTiles.Text

/-- The characters that Unicode lists as white space. -/
def isBlank (c : Char) : Bool :=
  let n := c.toNat
  0x09 ≤ n ∧ n ≤ 0x0D ∨ n = 0x20 ∨ n = 0x85 ∨ n = 0xA0 ∨ n = 0x1680 ∨
  0x2000 ≤ n ∧ n ≤ 0x200A ∨ n = 0x2028 ∨ n = 0x2029 ∨ n = 0x202F ∨ n = 0x205F ∨ n = 0x3000

/-- A text without the blanks before its first and after its last other character. -/
def trim (cs : List Char) : List Char :=
  ((cs.dropWhile isBlank).reverse.dropWhile isBlank).reverse

end WordTiles.Text
