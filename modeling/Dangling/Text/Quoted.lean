import Dangling.Text.Visible

/-!
# Text — Quoted

A text between quotes, so that every character of it can be told from the page.  Single quotes are
used, and double ones when the text holds a single quote and no double one.  The backslash and the
quote are escaped, and so is every character that does not show.
-/

namespace Dangling.Text

/-- The lower-case hexadecimal digit of value `n`. -/
def hexDigit (n : Nat) : Char := Nat.digitChar (n % 16)

/-- `n` in hexadecimal, the last `width` digits of it. -/
def hex : (width : Nat) → (n : Nat) → List Char
  | 0, _ => []
  | width + 1, n => hex width (n / 16) ++ [hexDigit n]

/-- The quote that `cs` is written in. -/
def quoteFor (cs : List Char) : Char :=
  if cs.contains '\x27' && !cs.contains '\x22' then '\x22' else '\x27'

/-- One character between quotes `q`. -/
def quoteChar (q c : Char) : List Char :=
  if c == q || c == '\\' then ['\\', c]
  else if c == '\t' then ['\\', 't']
  else if c == '\n' then ['\\', 'n']
  else if c == '\r' then ['\\', 'r']
  else if isVisible c then [c]
  else if c.toNat ≤ 0xFF then '\\' :: 'x' :: hex 2 c.toNat
  else if c.toNat ≤ 0xFFFF then '\\' :: 'u' :: hex 4 c.toNat
  else '\\' :: 'U' :: hex 8 c.toNat

/-- The text `s` between quotes. -/
def quoted (s : String) : String :=
  let q := quoteFor s.toList
  String.ofList (q :: s.toList.flatMap (quoteChar q) ++ [q])

end Dangling.Text
