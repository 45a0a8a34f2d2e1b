import StubManager.Text.Ranges

/-!
# White space

The characters that are white space in any script (`isBlank`), and texts without the white space at
their ends (`trim`).
-/

namespace StubManager.Text

/-- The white space of all scripts. -/
def blankRanges : Ranges :=
  [(0x9, 0xD), (0x20, 0x20), (0x85, 0x85), (0xA0, 0xA0), (0x1680, 0x1680), (0x2000, 0x200A),
   (0x2028, 0x2029), (0x202F, 0x202F), (0x205F, 0x205F), (0x3000, 0x3000)]

/-- Whether a character is white space. -/
def isBlank (c : Char) : Bool := blankRanges.has c

/-- A text without the white space in front. -/
def trimStart (text : List Char) : List Char := text.dropWhile isBlank

/-- A text without the white space at both ends. -/
def trim (text : List Char) : List Char :=
  ((trimStart text).reverse.dropWhile isBlank).reverse

end StubManager.Text
