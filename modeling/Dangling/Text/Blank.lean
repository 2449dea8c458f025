/-!
# Text — Blank

White space, and texts without it at their ends.
-/

namespace Dangling.Text

/-- White space: the ASCII controls U+0009 to U+000D and U+001C to U+001F, next line, and the
separators of every width. -/
def isBlank (c : Char) : Bool :=
  let n := c.toNat
  (decide (0x09 ≤ n) && decide (n ≤ 0x0D)) || (decide (0x1C ≤ n) && decide (n ≤ 0x20)) ||
    n == 0x85 || n == 0xA0 || n == 0x1680 || (decide (0x2000 ≤ n) && decide (n ≤ 0x200A)) ||
    n == 0x2028 || n == 0x2029 || n == 0x202F || n == 0x205F || n == 0x3000

/-- `cs` without the characters of class `p` at its front. -/
def trimStart (p : Char → Bool) (cs : List Char) : List Char := cs.dropWhile p

/-- `cs` without the characters of class `p` at its end. -/
def trimEnd (p : Char → Bool) (cs : List Char) : List Char := (cs.reverse.dropWhile p).reverse

/-- `cs` without the characters of class `p` at either end. -/
def trim (p : Char → Bool) (cs : List Char) : List Char := trimEnd p (trimStart p cs)

/-- A text without the white space at its ends. -/
def strip (s : String) : String := String.ofList (trim isBlank s.toList)

end Dangling.Text
