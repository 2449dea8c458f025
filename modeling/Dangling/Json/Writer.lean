import Dangling.Json.Value

/-!
# Json — Writer

Writing documents in ASCII: what lies beyond is written as code units, two of them above U+FFFF.
`line` puts a document on one line; `page` gives each item its own line, indented by two blanks a
level.
-/

namespace Dangling.Json

namespace Writer

/-- The escape of a code unit. -/
def unit (n : Nat) : List Char := '\\' :: 'u' :: Text.hex 4 n

/-- One character of a string. -/
def char (c : Char) : List Char :=
  if c == '\x22' then ['\\', '\x22']
  else if c == '\\' then ['\\', '\\']
  else if c == '\n' then ['\\', 'n']
  else if c == '\r' then ['\\', 'r']
  else if c == '\t' then ['\\', 't']
  else if c == '\x08' then ['\\', 'b']
  else if c == '\x0c' then ['\\', 'f']
  else if 0x20 ≤ c.toNat && c.toNat < 0x7F then [c]
  else if c.toNat ≤ 0xFFFF then unit c.toNat
  else
    let n := c.toNat - 0x10000
    unit (0xD800 + n / 0x400) ++ unit (0xDC00 + n % 0x400)

/-- A string between double quotes. -/
def string (s : String) : String :=
  String.ofList ('\x22' :: s.toList.flatMap char ++ ['\x22'])

/-- A decimal number; what is none has a name. -/
def float (x : Binary64) : String :=
  match x with
  | .nan => "NaN"
  | .infinite negative => if negative then "-Infinity" else "Infinity"
  | x => x.text

/-- How a list is laid out: the text after its opening bracket, between two items, and before its
closing bracket. -/
structure Layout where
  opening : String
  between : String
  closing : String

/-- Everything on one line. -/
def oneLine : Nat → Layout := fun _ => ⟨"", ", ", ""⟩

/-- Every item on a line of its own, two blanks deeper than the list at level `n`. -/
def indented : Nat → Layout := fun n =>
  let outer := "\n" ++ String.ofList (List.replicate (2 * n) ' ')
  let inner := outer ++ "  "
  ⟨inner, "," ++ inner, outer⟩

/-- Items in brackets. -/
def enclose (l : Layout) (opener closer : String) (items : List String) : String :=
  if items.isEmpty then opener ++ closer
  else opener ++ l.opening ++ l.between.intercalate items ++ l.closing ++ closer

mutual

/-- A value at nesting level `n`. -/
def value (layout : Nat → Layout) (n : Nat) : Value → String
  | .null => "null"
  | .bool b => if b then "true" else "false"
  | .int i => toString i
  | .float x => float x
  | .str s => string s
  | .arr vs => enclose (layout n) "[" "]" (items layout (n + 1) vs)
  | .obj ms => enclose (layout n) "\x7b" "\x7d" (members layout (n + 1) ms)

/-- The items of a list at level `n`. -/
def items (layout : Nat → Layout) (n : Nat) : List Value → List String
  | [] => []
  | v :: rest => value layout n v :: items layout n rest

/-- The members of an object at level `n`. -/
def members (layout : Nat → Layout) (n : Nat) : List (String × Value) → List String
  | [] => []
  | (k, v) :: rest => (string k ++ ": " ++ value layout n v) :: members layout n rest

end

end Writer

/-- A document on one line. -/
def Value.line (v : Value) : String := Writer.value Writer.oneLine 0 v

/-- A document with every item on a line of its own. -/
def Value.page (v : Value) : String := Writer.value Writer.indented 0 v

end Dangling.Json
