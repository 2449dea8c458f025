import Dangling.Mir.Operand
import Dangling.Mir.Place.Reader

/-!
# Mir — Operand — Reader

Reading operands.  A constant is a truth value, the unit value, a number with an optional type
suffix, or a text that is carried as it is.
-/

namespace Dangling

/-- Why an operand is refused. -/
inductive OperandFault where
  | place (fault : PlaceFault)
  /-- The operand is given by something that is neither a text nor a scalar. -/
  | notText (got : Json.Value)
  /-- The text starts like no operand. -/
  | invalid (got : String)
  deriving Repr

/-- The wording of a refusal. -/
def OperandFault.message : OperandFault → String
  | .place fault => fault.message
  | .notText got => "Operand must be a string, got " ++ got.quoted
  | .invalid got => "Invalid operand " ++ Text.quoted got

namespace Operand.Reader

/-- The suffixes that name the type of a number. -/
def widths : List String := ["8", "16", "32", "64", "128", "size"]

/-- A type suffix of a number: an optional underscore, `i` or `u`, and a width. -/
def isSuffix (cs : List Char) : Bool :=
  let cs := match cs with
    | '_' :: rest => rest
    | cs => cs
  match cs with
  | c :: rest => (c == 'i' || c == 'u') && widths.contains (String.ofList rest)
  | [] => false

/-- The number of a constant, if digits and a suffix are all there is. -/
def number? (cs : List Char) : Option Int :=
  let (negative, cs) := match cs with
    | '-' :: rest => (true, rest)
    | cs => (false, cs)
  let ds := cs.takeWhile Text.isDecimal
  let rest := cs.dropWhile Text.isDecimal
  if !ds.isEmpty && (rest.isEmpty || isSuffix rest) then
    let n : Int := Text.decimalValue 0 ds
    some (if negative then -n else n)
  else none

/-- The text after `word`, if the text starts with it. -/
def after? (word : String) (cs : List Char) : Option (List Char) :=
  if word.toList.isPrefixOf cs then some (cs.drop word.length) else none

end Operand.Reader

open Operand.Reader in
/-- The constant that a text writes. -/
def Operand.constantOfText (text : String) : Operand :=
  let text := Text.strip text
  if text = "true" then .constant (.bool true) Ty.bool
  else if text = "false" then .constant (.bool false) Ty.bool
  else if text = "()" then .constant .null Ty.unit
  else
    match number? text.toList with
    | some i => .constant (.int i) Ty.int32
    | none => .constant (.str text) Ty.unknown

/-- The constant that a document gives, as a scalar or by its text. -/
def Operand.constantOf : Json.Value → Operand
  | .bool b => .constant (.bool b) Ty.bool
  | .int i => .constant (.int i) Ty.int32
  | .null => .constant .null Ty.unit
  | v => Operand.constantOfText v.text

open Operand.Reader in
/-- Reads an operand from its text. -/
def Operand.ofText (given : String) : Except OperandFault Operand :=
  let cs := Text.trim Text.isBlank given.toList
  let place (cs : List Char) : Except OperandFault Place :=
    (Place.ofText (String.ofList cs)).mapError .place
  match after? "move " cs with
  | some rest => (place rest).map .move
  | none =>
  match after? "copy " cs with
  | some rest => (place rest).map .copy
  | none =>
  match after? "const " cs with
  | some rest => .ok (Operand.constantOfText (String.ofList rest))
  | none =>
  match cs with
  | '_' :: _ | '(' :: _ => (place cs).map .copy
  | _ => .error (.invalid given)

/-- Reads an operand that a document gives. -/
def Operand.read : Json.Value → Except OperandFault Operand
  | .str text => Operand.ofText text
  | .bool b => .ok (Operand.constantOf (.bool b))
  | .int i => .ok (Operand.constantOf (.int i))
  | .null => .ok (Operand.constantOf .null)
  | v => .error (.notText v)

end Dangling
