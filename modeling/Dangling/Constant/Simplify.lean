import Dangling.Constant.Expr

/-!
# Constant — Simplify

Simplification of expressions.  What folding relies on is stated of any simplifier; the one here is
what the program runs with.  It replaces an expression by a literal, or leaves it as it is: an
expression has a value if its parts have, and without that

* if zero, or a word of zeros or ones, absorbs the other part;
* if a word is shifted by its length or more;
* if an expression is subtracted from itself, or compared with itself;
* if zero and one, which a truth value may count as, compare alike with a number.

Nothing is known of a symbol for a number but that it is equal to itself.
-/

namespace Dangling

/-- A simplifier of expressions. -/
abbrev Simplifier := Formula → Formula

/-- A truth value that is counted as zero or one. -/
def Expr.isFlag : Expr .int → Bool
  | .ite _ yes no => yes = .int 1 ∧ no = .int 0
  | _ => false

/-- One or minus one, which leave no remainder. -/
def Expr.isUnit (e : Expr .int) : Bool := e = .int 1 ∨ e = .int (-1) ∨ e = ofBool (.bool true)

/-- What is subtracted from `a` is the multiple of a unit that `a` is. -/
def Expr.isUnitMultiple (a : Expr .int) : Expr .int → Bool
  | .arith op b q => op = .mul ∧ b.isUnit ∧ q = a.quotient b
  | _ => false

/-- The value of an operation on numbers, from the values of its parts. -/
def Arith.fold? (op : Arith) (a b : Expr .int) (x y : Option Int) : Option Int :=
  match x, y with
  | some x, some y => op.eval? x y
  | x, y =>
    match op with
    | .sub => if a = b ∨ a.isFlag ∧ a.isUnitMultiple b then some 0 else none
    | .mul => if x = some 0 ∨ y = some 0 then some 0 else none
    | _ => none

/-- Zero and one compare alike with the value `k` of `b`. -/
def Comparison.ignoresLeft (b : Expr .int) (k : Int) : Comparison → Bool
  | .eq | .ne => k ≠ 0 ∧ k ≠ 1
  | .gt => k ≠ 0
  -- a number is not compared with the bound that the truth values have
  | .le => b = .ofBool (.bool true)
  | .ge => b = .ofBool (.bool false)
  | .lt => false

/-- The value `k` compares alike with zero and one. -/
def Comparison.ignoresRight (k : Int) : Comparison → Bool
  | .eq | .ne => k ≠ 0 ∧ k ≠ 1
  | .lt => k ≠ 0
  | _ => false

/-- The value of a comparison, from the values of its parts. -/
def Comparison.fold? (op : Comparison) (a b : Expr .int) (x y : Option Int) : Option Bool :=
  match x, y with
  | some x, some y => some (op.eval x y)
  | none, some k => if a.isFlag ∧ op.ignoresLeft b k then some (op.eval 0 k) else none
  | some k, none => if b.isFlag ∧ op.ignoresRight k then some (op.eval k 0) else none
  | none, none => if a = b then some (op.eval 0 0) else none

/-- The value of an operation on a truth value and itself. -/
def Logic.same? : Logic → Option Bool
  | .eq => some true
  | .xor | .ne => some false
  | .and | .or => none

/-- The value of an operation on truth values, from the values of its parts. -/
def Logic.fold? (op : Logic) (a b : Expr .bool) (x y : Option Bool) : Option Bool :=
  match x, y with
  | some x, some y => some (op.eval x y)
  | x, y =>
    if op = .and ∧ (x = some false ∨ y = some false) then some false
    else if op = .or ∧ (x = some true ∨ y = some true) then some true
    else if a = b then op.same?
    else none

/-- The value of an operation on words, from the values of its parts. -/
def Bits.fold? (op : Bits) (a b : Expr .word) (x y : Option (BitVec 64)) : Option (BitVec 64) :=
  match x, y with
  | some x, some y => some (op.eval x y)
  | x, y =>
    match op with
    | .and => if x = some 0 ∨ y = some 0 then some 0 else none
    | .or => if x = some (.allOnes 64) ∨ y = some (.allOnes 64) then some (.allOnes 64) else none
    | .xor => if a = b then some 0 else none
    | .shl => y.bind fun y => if 64 ≤ y.toNat then some 0 else none
    | .shr => none

/-- The value of an expression, if it is the same for all values of the symbols and is found. -/
def Expr.value? : {d : Domain} → Expr d → Option d.Value
  | _, .int a => some a
  | _, .bool b => some b
  | _, .number _ => none
  | _, .truth _ => none
  | _, .ite c a b => c.value?.bind fun c => if c then a.value? else b.value?
  | _, .arith op a b => op.fold? a b a.value? b.value?
  | _, .neg a => a.value?.map fun x => -x
  | _, .compare op a b => op.fold? a b a.value? b.value?
  | _, .logic op a b => op.fold? a b a.value? b.value?
  | _, .not a => a.value?.map fun x => !x
  | _, .toWord a => a.value?.map (BitVec.ofInt 64)
  | _, .bits op a b => op.fold? a b a.value? b.value?
  | _, .complement a => a.value?.map fun x => ~~~x
  | _, .ofWord a => a.value?.map BitVec.toInt

/-- The literal of an expression that has a value; any other expression is left as it is. -/
def Formula.simplify : Simplifier
  | .int e => .int ((e.value?.map Expr.int).getD e)
  | .bool e => .bool ((e.value?.map Expr.bool).getD e)

end Dangling
