/-!
# Blank characters

The characters of the Unicode property White_Space. They separate tokens, and they are dropped
from the end of a source line that is shown in a report.
-/

namespace Pins.Text

/-- The property White_Space. -/
def isBlank (c : Char) : Bool :=
  let code := c.toNat
  (0x9 ≤ code && code ≤ 0xd) || code == 0x20 || code == 0x85 || code == 0xa0 || code == 0x1680 ||
    (0x2000 ≤ code && code ≤ 0x200a) || code == 0x2028 || code == 0x2029 || code == 0x202f ||
    code == 0x205f || code == 0x3000

/-- Spaces and tabs: the characters that indent a line. -/
def isIndent (c : Char) : Bool := c == ' ' || c == '\t'

/-- A text without the longest run of such characters at its end. -/
def trimEnd (drop : Char → Bool) (text : List Char) : List Char :=
  (text.reverse.dropWhile drop).reverse

end Pins.Text
