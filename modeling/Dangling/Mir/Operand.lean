import Dangling.Json.Value
import Dangling.Mir.Place
import Dangling.Mir.Ty

/-!
# Mir — Operand

What an instruction reads: a place, moved or copied, or a constant.
-/

namespace Dangling

/-- A whole number or a truth value: the constants that a path can know. -/
inductive Scalar where
  | int (i : Int)
  | bool (b : Bool)
  deriving DecidableEq, Repr, Inhabited

namespace Scalar

/-- The whole number of a scalar; true counts as one. -/
def toInt : Scalar → Int
  | .int i => i
  | .bool b => if b then 1 else 0

/-- The truth of a scalar; every number but zero is true. -/
def toBool : Scalar → Bool
  | .int i => i != 0
  | .bool b => b

/-- A scalar as a document. -/
def toJson : Scalar → Json.Value
  | .int i => .int i
  | .bool b => .bool b

/-- The scalar that a document holds. -/
def ofJson? : Json.Value → Option Scalar
  | .int i => some (.int i)
  | .bool b => some (.bool b)
  | _ => none

end Scalar

/-- An operand. -/
inductive Operand where
  /-- Takes the value out of the place: ownership goes with it. -/
  | move (place : Place)
  /-- Reads the bits of the place. -/
  | copy (place : Place)
  /-- A constant; only numbers and truth values are looked into. -/
  | constant (value : Json.Value) (ty : Ty)
  deriving Repr, Inhabited

namespace Operand

/-- The place that the operand reads. -/
def place? : Operand → Option Place
  | .move p | .copy p => some p
  | .constant _ _ => none

/-- The operand takes its place's value out. -/
def isMove : Operand → Bool
  | .move _ => true
  | _ => false

/-- The number or truth value that a constant operand is. -/
def scalar? : Operand → Option Scalar
  | .constant v _ => Scalar.ofJson? v
  | _ => none

/-- The constant of a value that a document holds. -/
def ofValue : Json.Value → Operand
  | .bool b => .constant (.bool b) Ty.bool
  | .int i => .constant (.int i) Ty.int32
  | v => .constant v Ty.unknown

/-- The text of a constant. -/
def constantText : Json.Value → String
  | .bool b => if b then "true" else "false"
  | .null => "()"
  | v => v.text

/-- The text of an operand. -/
def text : Operand → String
  | .move p => "move " ++ p.text
  | .copy p => "copy " ++ p.text
  | .constant v _ => "const " ++ constantText v

end Operand

end Dangling
