/-!
# Blank characters and trimming

A character is blank when it is white space or a line terminator of the Unicode standard, the
byte order mark included. Trimming removes blank characters from the ends of a text.
-/

namespace LolMarkup.Text

/-- The blank code points as closed ranges, in ascending order. -/
def blankRanges : List (Nat × Nat) :=
  [(0x0009, 0x000D), (0x0020, 0x0020), (0x00A0, 0x00A0), (0x1680, 0x1680), (0x2000, 0x200A),
   (0x2028, 0x2029), (0x202F, 0x202F), (0x205F, 0x205F), (0x3000, 0x3000), (0xFEFF, 0xFEFF)]

/-- Whether a character lies in one of the blank ranges. -/
def isBlank (c : Char) : Bool :=
  blankRanges.any fun range => range.1 ≤ c.toNat && c.toNat ≤ range.2

/-- The characters without the blank ones at their end. -/
def trimEnd (cs : List Char) : List Char :=
  (cs.reverse.dropWhile isBlank).reverse

/-- The characters without the blank ones at either end. -/
def trim (cs : List Char) : List Char :=
  trimEnd (cs.dropWhile isBlank)

/-- The text without the blank characters at either end. -/
def trimmed (s : String) : String :=
  String.ofList (trim s.toList)

end LolMarkup.Text
