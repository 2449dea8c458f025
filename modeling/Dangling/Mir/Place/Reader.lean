import Dangling.Mir.Place
import Dangling.Json.Value
import Dangling.Text.Blank
import Dangling.Text.Numeral

/-!
# Mir — Place — Reader

Reading places.  A dereference is `(*p)` around a place or `*p` before one, which then binds looser
than the fields after it; an index in brackets counts as one field for all indices.
-/

namespace Dangling

/-- Why a place is refused. -/
inductive PlaceFault where
  /-- The place is given by something that is no text. -/
  | notText (got : Json.Value)
  /-- Something follows the place. -/
  | trailing (text rest : String)
  /-- The parenthesis of a dereference is never closed. -/
  | unclosed (text : String)
  /-- The bracket of an index is never closed. -/
  | unclosedIndex (text : String)
  /-- No local stands where the place should start. -/
  | invalid (text : String)
  deriving Repr

/-- The wording of a refusal. -/
def PlaceFault.message : PlaceFault → String
  | .notText got => "Place must be a string, got " ++ got.quoted
  | .trailing text rest => s!"Unexpected text in place {Text.quoted text}: {Text.quoted rest}"
  | .unclosed text => s!"Unbalanced parentheses in place {Text.quoted text}"
  | .unclosedIndex text => s!"Unbalanced index in place {Text.quoted text}"
  | .invalid text => s!"Invalid place {Text.quoted text}"

namespace Place.Reader

/-- Splits `cs` at the parenthesis that closes the one at its front: what stands before it, with
`acc` reversed in front, and what follows. -/
def splitParens (acc : List Char) : (depth : Nat) → List Char → Option (List Char × List Char)
  | _, [] => none
  | depth, '(' :: rest => splitParens ('(' :: acc) (depth + 1) rest
  | 1, ')' :: rest => some (acc.reverse, rest)
  | depth, ')' :: rest => splitParens (')' :: acc) (depth - 1) rest
  | depth, c :: rest => splitParens (c :: acc) depth rest

/-- A character of a field name. -/
def isFieldChar (c : Char) : Bool := c.isAlphanum || c == '_'

/-- The fields and indices at the front of `cs`, added to `p`, and what follows them.  `whole` is the
text that a refusal shows. -/
def suffixes (whole : List Char) : (fuel : Nat) → Place → List Char →
    Except PlaceFault (Place × List Char)
  | 0, p, cs => .ok (p, cs)
  | fuel + 1, p, cs =>
    match cs with
    | '.' :: rest =>
      let name := rest.takeWhile isFieldChar
      if name.isEmpty then .ok (p, cs)
      else suffixes whole fuel (p.field (String.ofList name)) (rest.dropWhile isFieldChar)
    | '[' :: rest =>
      match rest.dropWhile (· != ']') with
      | [] => .error (.unclosedIndex (String.ofList whole))
      | _ :: rest => suffixes whole fuel (p.field "[]") rest
    | _ => .ok (p, cs)

/-- The digits at the front of `cs` as the number of a local. -/
def number? (cs : List Char) : Option (Nat × List Char) :=
  let ds := cs.takeWhile Text.isDecimal
  if ds.isEmpty then none else some (Text.decimalValue 0 ds, cs.dropWhile Text.isDecimal)

/-- The text without the blanks at its ends. -/
def strip (cs : List Char) : List Char := Text.trim Text.isBlank cs

mutual

/-- A place at the front of the text, and what follows it. -/
def start : (fuel : Nat) → List Char → Except PlaceFault (Place × List Char)
  | 0, cs => .error (.invalid (String.ofList cs))
  | fuel + 1, cs =>
    match cs with
    | '(' :: '*' :: _ =>
      match splitParens [] 0 cs with
      | none => .error (.unclosed (String.ofList cs))
      | some (inner, rest) => do
        let p ← whole fuel (inner.drop 2)
        suffixes cs rest.length p.deref rest
    | '*' :: rest => do
      let (p, rest) ← start fuel (strip rest)
      .ok (p.deref, rest)
    | '_' :: rest =>
      match number? rest with
      | some (n, rest) => suffixes cs rest.length { base := n } rest
      | none => .error (.invalid (String.ofList cs))
    | _ => .error (.invalid (String.ofList cs))

/-- A whole text as a place. -/
def whole : (fuel : Nat) → List Char → Except PlaceFault Place
  | 0, cs => .error (.invalid (String.ofList cs))
  | fuel + 1, cs => do
    let (p, rest) ← start fuel (strip cs)
    if (strip rest).isEmpty then .ok p
    else .error (.trailing (String.ofList cs) (String.ofList rest))

end

end Place.Reader

/-- Reads a place from its text.  Two calls pass at most between one character and the next. -/
def Place.ofText (text : String) : Except PlaceFault Place :=
  Place.Reader.whole (2 * text.length + 2) text.toList

/-- Reads a place that a document gives. -/
def Place.read : Json.Value → Except PlaceFault Place
  | .str text => Place.ofText text
  | v => .error (.notText v)

end Dangling
