import Dangling.Mir.Rvalue

/-!
# Constant — Expr

Expressions over whole numbers, truth values and words of sixty-four bits, and the expressions that
operators build.  Arithmetic is exact, and division rounds so that what is left is not negative; bit
operations are on words.  A truth value among numbers counts as zero or one.

* `Expr`: expressions, by what they are about.
* `Formula`: an expression about a number or a truth value, the two that a place can hold.
* `Formula.binary`, `Formula.unary`: the expression of an operator.
* `Formula.literal?`: the value of an expression that is a literal.
-/

namespace Dangling

/-- What an expression is about. -/
inductive Domain where
  | int | bool | word
  deriving DecidableEq, Repr

/-- The values of a domain. -/
@[reducible] def Domain.Value : Domain → Type
  | .int => Int
  | .bool => Bool
  | .word => BitVec 64

/-! ### Operators of expressions -/

/-- Operators on numbers. -/
inductive Arith where
  | add | sub | mul | div
  deriving DecidableEq, Repr

/-- The value of an operator on numbers; nothing is said of a division by zero. -/
def Arith.eval? : Arith → Int → Int → Option Int
  | .add, x, y => some (x + y)
  | .sub, x, y => some (x - y)
  | .mul, x, y => some (x * y)
  | .div, x, y => if y = 0 then none else some (x / y)

/-- Comparisons of numbers. -/
inductive Comparison where
  | eq | ne | lt | le | gt | ge
  deriving DecidableEq, Repr

def Comparison.eval : Comparison → Int → Int → Bool
  | .eq, x, y => decide (x = y)
  | .ne, x, y => decide (x ≠ y)
  | .lt, x, y => decide (x < y)
  | .le, x, y => decide (x ≤ y)
  | .gt, x, y => decide (y < x)
  | .ge, x, y => decide (y ≤ x)

/-- Operators on truth values. -/
inductive Logic where
  | and | or | xor | eq | ne
  deriving DecidableEq, Repr

def Logic.eval : Logic → Bool → Bool → Bool
  | .and, x, y => x && y
  | .or, x, y => x || y
  | .xor, x, y | .ne, x, y => x ^^ y
  | .eq, x, y => x == y

/-- Operators on words. -/
inductive Bits where
  | and | or | xor | shl | shr
  deriving DecidableEq, Repr

/-- The value of an operator on words.  The amount of a shift has no sign; a shift to the right is
filled with the sign.  A shift by a word's length or more leaves nothing, or the sign. -/
def Bits.eval : Bits → BitVec 64 → BitVec 64 → BitVec 64
  | .and, x, y => x &&& y
  | .or, x, y => x ||| y
  | .xor, x, y => x ^^^ y
  | .shl, x, y => if 64 ≤ y.toNat then 0 else x <<< y.toNat
  | .shr, x, y => x.sshiftRight (min y.toNat 63)

/-! ### Expressions -/

inductive Expr : Domain → Type where
  | int (value : Int) : Expr .int
  | bool (value : Bool) : Expr .bool
  /-- A symbol for a number. -/
  | number (name : String) : Expr .int
  /-- A symbol for a truth value. -/
  | truth (name : String) : Expr .bool
  | ite (cond : Expr .bool) (yes no : Expr .int) : Expr .int
  | arith (op : Arith) (a b : Expr .int) : Expr .int
  | neg (a : Expr .int) : Expr .int
  | compare (op : Comparison) (a b : Expr .int) : Expr .bool
  | logic (op : Logic) (a b : Expr .bool) : Expr .bool
  | not (a : Expr .bool) : Expr .bool
  /-- The lowest bits of a number. -/
  | toWord (a : Expr .int) : Expr .word
  | bits (op : Bits) (a b : Expr .word) : Expr .word
  | complement (a : Expr .word) : Expr .word
  /-- A word, read as a signed number. -/
  | ofWord (a : Expr .word) : Expr .int
  deriving DecidableEq, Repr

namespace Expr

/-- A truth value, counted as zero or one. -/
def ofBool (c : Expr .bool) : Expr .int := .ite c (.int 1) (.int 0)

def abs (a : Expr .int) : Expr .int := .ite (.compare .ge a (.int 0)) a (.neg a)

/-- The quotient, rounded toward zero. -/
def quotient (a b : Expr .int) : Expr .int :=
  .ite (.logic .eq (.compare .ge a (.int 0)) (.compare .ge b (.int 0))) (.arith .div a.abs b.abs)
    (.neg (.arith .div a.abs b.abs))

/-- What the quotient leaves. -/
def remainder (a b : Expr .int) : Expr .int := .arith .sub a (.arith .mul b (quotient a b))

end Expr

/-- An expression about what a place can hold. -/
inductive Formula where
  | int (e : Expr .int)
  | bool (e : Expr .bool)
  deriving DecidableEq, Repr

/-! ### The expressions of operators -/

/-- What an operator makes of two numbers. -/
inductive Builder where
  | arith (op : Arith)
  | quotient
  | remainder
  | compare (op : Comparison)
  | bits (op : Bits)
  deriving DecidableEq, Repr

def Builder.build (a b : Expr .int) : Builder → Formula
  | .arith op => .int (.arith op a b)
  | .quotient => .int (a.quotient b)
  | .remainder => .int (a.remainder b)
  | .compare op => .bool (.compare op a b)
  | .bits op => .int (.ofWord (.bits op (.toWord a) (.toWord b)))

namespace BinOp

/-- What the operator makes of two numbers, if it computes on numbers at all.  Overflow has no part
in it. -/
def builder? : BinOp → Option Builder
  | add | addUnchecked | addWithOverflow => some (.arith .add)
  | sub | subUnchecked | subWithOverflow => some (.arith .sub)
  | mul | mulUnchecked | mulWithOverflow => some (.arith .mul)
  | div => some .quotient
  | rem => some .remainder
  | eq => some (.compare .eq)
  | ne => some (.compare .ne)
  | lt => some (.compare .lt)
  | le => some (.compare .le)
  | gt => some (.compare .gt)
  | ge => some (.compare .ge)
  | bitAnd => some (.bits .and)
  | bitOr => some (.bits .or)
  | bitXor => some (.bits .xor)
  | shl => some (.bits .shl)
  | shr => some (.bits .shr)
  | _ => none

/-- What the operator makes of two truth values, if it does not take them for numbers. -/
def logic? : BinOp → Option Logic
  | eq => some .eq
  | ne => some .ne
  | bitAnd => some .and
  | bitOr => some .or
  | bitXor => some .xor
  | _ => none

end BinOp

namespace Formula

/-- The expression of a value. -/
def ofScalar : Scalar → Formula
  | .int a => .int (.int a)
  | .bool b => .bool (.bool b)

/-- The expression as one about a number. -/
def toInt : Formula → Expr .int
  | .int e => e
  | .bool c => .ofBool c

/-- The expression of a binary operation on numbers. -/
def onInts (op : BinOp) (l r : Formula) : Option Formula :=
  op.builder?.map fun b => b.build l.toInt r.toInt

/-- The expression of a binary operation. -/
def binary (op : BinOp) : Formula → Formula → Option Formula
  | .bool a, .bool b =>
    match op.logic? with
    | some c => some (.bool (.logic c a b))
    | none => onInts op (.bool a) (.bool b)
  | l, r => onInts op l r

/-- The expression of a unary operation. -/
def unary : UnOp → Formula → Option Formula
  | .not, .bool a => some (.bool (.not a))
  | .not, .int a => some (.int (.ofWord (.complement (.toWord a))))
  | .neg, f => some (.int (.neg f.toInt))
  | .ptrMetadata, _ => none

/-- The value of a literal. -/
def literal? : Formula → Option Scalar
  | .int (.int a) => some (.int a)
  | .bool (.bool b) => some (.bool b)
  | _ => none

end Formula

end Dangling
