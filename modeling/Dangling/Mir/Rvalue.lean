import Dangling.Mir.Operand

/-!
# Mir — Rvalue

The right-hand side of an assignment.
-/

namespace Dangling

/-- Binary operators. -/
inductive BinOp where
  | add | sub | mul | div | rem | bitAnd | bitOr | bitXor | shl | shr
  | eq | ne | lt | le | gt | ge | offset
  | addUnchecked | subUnchecked | mulUnchecked
  | addWithOverflow | subWithOverflow | mulWithOverflow
  deriving DecidableEq, Repr, Inhabited

namespace BinOp

/-- The name of an operator. -/
def name : BinOp → String
  | add => "Add"
  | sub => "Sub"
  | mul => "Mul"
  | div => "Div"
  | rem => "Rem"
  | bitAnd => "BitAnd"
  | bitOr => "BitOr"
  | bitXor => "BitXor"
  | shl => "Shl"
  | shr => "Shr"
  | eq => "Eq"
  | ne => "Ne"
  | lt => "Lt"
  | le => "Le"
  | gt => "Gt"
  | ge => "Ge"
  | offset => "Offset"
  | addUnchecked => "AddUnchecked"
  | subUnchecked => "SubUnchecked"
  | mulUnchecked => "MulUnchecked"
  | addWithOverflow => "AddWithOverflow"
  | subWithOverflow => "SubWithOverflow"
  | mulWithOverflow => "MulWithOverflow"

/-- Every operator. -/
def all : List BinOp :=
  [add, sub, mul, div, rem, bitAnd, bitOr, bitXor, shl, shr, eq, ne, lt, le, gt, ge, offset,
    addUnchecked, subUnchecked, mulUnchecked, addWithOverflow, subWithOverflow, mulWithOverflow]

/-- The operator of a name. -/
def ofName? (name : String) : Option BinOp := all.find? fun op => op.name == name

end BinOp

/-- Unary operators. -/
inductive UnOp where
  | not | neg | ptrMetadata
  deriving DecidableEq, Repr, Inhabited

namespace UnOp

/-- The name of an operator. -/
def name : UnOp → String
  | not => "Not"
  | neg => "Neg"
  | ptrMetadata => "PtrMetadata"

/-- The operator of a name. -/
def ofName? (name : String) : Option UnOp :=
  [not, neg, ptrMetadata].find? fun op => op.name == name

end UnOp

/-- A property of a place that is read without moving its value. -/
inductive Inspection where
  | discriminant | len
  deriving DecidableEq, Repr, Inhabited

/-- The name of an inspection. -/
def Inspection.name : Inspection → String
  | discriminant => "discriminant"
  | len => "len"

/-- The right-hand side of an assignment. -/
inductive Rvalue where
  | use (operand : Operand)
  /-- A borrow. -/
  | ref (mutable : Bool) (target : Place)
  /-- The raw address of a place. -/
  | addressOf (mutable : Bool) (target : Place)
  /-- A tuple, struct or array of its parts in order. -/
  | aggregate (items : List Operand) (name : Option String)
  | binary (op : BinOp) (left right : Operand)
  | unary (op : UnOp) (operand : Operand)
  | cast (operand : Operand) (ty : Ty)
  | inspect (what : Inspection) (target : Place)
  deriving Repr, Inhabited

namespace Rvalue

/-- The operands of a right-hand side. -/
def operands : Rvalue → List Operand
  | .use o | .unary _ o | .cast o _ => [o]
  | .aggregate items _ => items
  | .binary _ l r => [l, r]
  | .ref _ _ | .addressOf _ _ | .inspect _ _ => []

/-- The place that a borrow, an address or an inspection is of. -/
def target? : Rvalue → Option Place
  | .ref _ p | .addressOf _ p | .inspect _ p => some p
  | _ => none

/-- The text of a right-hand side. -/
def text : Rvalue → String
  | .use o => o.text
  | .ref true p => "&mut " ++ p.text
  | .ref false p => "&" ++ p.text
  | .addressOf true p => "&raw mut " ++ p.text
  | .addressOf false p => "&raw const " ++ p.text
  | .aggregate items name =>
    let inner := ", ".intercalate (items.map (·.text))
    match name with
    | some n => n ++ " \x7b " ++ inner ++ " \x7d"
    | none => "(" ++ inner ++ ")"
  | .binary op l r => op.name ++ "(" ++ l.text ++ ", " ++ r.text ++ ")"
  | .unary op o => op.name ++ "(" ++ o.text ++ ")"
  | .cast o t => o.text ++ " as " ++ t.text
  | .inspect what p => what.name ++ "(" ++ p.text ++ ")"

end Rvalue

end Dangling
