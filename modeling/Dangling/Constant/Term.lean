import Dangling.Constant.Simplify

/-!
# Constant — Term

Folding of operators.  A term is a value or a symbol for an unknown one; equal symbols stand for equal
values.  The expression of an operator on terms is simplified, and if a literal is left, that is the
value of the operation.

* `Term.binary`, `Term.unary`: the value of an operation, if the simplifier finds it.
-/

namespace Dangling

/-- A value or a symbol for one. -/
inductive Term where
  | lit (value : Scalar)
  /-- A symbol of this name for a truth value or a number. -/
  | sym (name : String) (isBool : Bool)
  deriving DecidableEq, Repr, Inhabited

namespace Term

/-- The expression of a term. -/
def formula : Term → Formula
  | .lit v => .ofScalar v
  | .sym name true => .bool (.truth name)
  | .sym name false => .int (.number name)

/-- The value that a simplifier finds for an expression. -/
def evaluate (simplify : Simplifier) (f : Option Formula) : Option Scalar :=
  f.bind fun f => (simplify f).literal?

/-- The value of a binary operation. -/
def binary (op : BinOp) (l r : Term) (simplify : Simplifier := Formula.simplify) : Option Scalar :=
  evaluate simplify (Formula.binary op l.formula r.formula)

/-- The value of a unary operation. -/
def unary (op : UnOp) (x : Term) (simplify : Simplifier := Formula.simplify) : Option Scalar :=
  evaluate simplify (Formula.unary op x.formula)

end Term

end Dangling
