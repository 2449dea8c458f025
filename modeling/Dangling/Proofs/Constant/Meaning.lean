import Dangling.Constant.Term

/-!
# Proofs — Constant — Meaning

The values of expressions, and what folding relies on of a simplifier.  An expression has a value once
its symbols have, numbers and truth values apart; of a quotient by zero nothing is known, so a valuation
gives it too.  A simplifier is *sound* if it keeps the value of every expression under every valuation,
and it *computes* if it leaves a literal of every expression without symbols and divisions by zero.

The expression of an operator is built from the kinds of its operands alone, and its value depends on
their values alone.  So an operation on terms and the operation on the values of these terms have the
same value (`Formula.eval_binary`), and what a sound simplifier folds is this value
(`Simplifier.Sound.binary_eq`).

* `Valuation`, `Expr.eval`, `Term.eval`: values of symbols, expressions and terms.
* `Expr.eval_quotient`, `Expr.eval_remainder`: division of absolute values, with a sign, rounds toward
  zero.
* `BinOp.value?`, `UnOp.value?`: the value of an operation on values.
* `Simplifier.Sound`, `Simplifier.Computes`: what is asked of a simplifier.
* `Simplifier.Computes.binary_eq`: on values everything folds that is not a division by zero.
-/

namespace Dangling

/-- Values of symbols.  A symbol for a number and one for a truth value may share their name. -/
structure Valuation where
  number : String → Int
  truth : String → Bool
  /-- The quotients by zero. -/
  byZero : Int → Int
  deriving Inhabited

/-- The value of an operator on numbers. -/
def Arith.eval (ρ : Valuation) (op : Arith) (x y : Int) : Int := (op.eval? x y).getD (ρ.byZero x)

/-- The value of an expression. -/
def Expr.eval (ρ : Valuation) : {d : Domain} → Expr d → d.Value
  | _, .int a => a
  | _, .bool b => b
  | _, .number name => ρ.number name
  | _, .truth name => ρ.truth name
  | _, .ite c a b => if c.eval ρ = true then a.eval ρ else b.eval ρ
  | _, .arith op a b => op.eval ρ (a.eval ρ) (b.eval ρ)
  | _, .neg a => -a.eval ρ
  | _, .compare op a b => op.eval (a.eval ρ) (b.eval ρ)
  | _, .logic op a b => op.eval (a.eval ρ) (b.eval ρ)
  | _, .not a => !a.eval ρ
  | _, .toWord a => BitVec.ofInt 64 (a.eval ρ)
  | _, .bits op a b => op.eval (a.eval ρ) (b.eval ρ)
  | _, .complement a => ~~~a.eval ρ
  | _, .ofWord a => (a.eval ρ).toInt

/-- The value of a formula. -/
def Formula.eval (ρ : Valuation) : Formula → Scalar
  | .int e => .int (e.eval ρ)
  | .bool e => .bool (e.eval ρ)

/-- The value of a term. -/
def Term.eval (ρ : Valuation) : Term → Scalar
  | .lit v => v
  | .sym name true => .bool (ρ.truth name)
  | .sym name false => .int (ρ.number name)

/-- The value of a binary operation on values. -/
def BinOp.value? (ρ : Valuation) (op : BinOp) (a b : Scalar) : Option Scalar :=
  (Formula.binary op (.ofScalar a) (.ofScalar b)).map (Formula.eval ρ)

/-- The value of a unary operation on a value. -/
def UnOp.value? (ρ : Valuation) (op : UnOp) (a : Scalar) : Option Scalar :=
  (Formula.unary op (.ofScalar a)).map (Formula.eval ρ)

/-! ### Operations depend on the values of their operands -/

namespace Formula

variable {ρ : Valuation}

@[simp] theorem eval_ofScalar (v : Scalar) : (ofScalar v).eval ρ = v := by
  cases v <;> rfl

@[simp] theorem eval_formula (x : Term) : x.formula.eval ρ = x.eval ρ := by
  cases x with
  | lit v => exact eval_ofScalar v
  | sym name isBool => cases isBool <;> rfl

/-- A literal has the value that it shows. -/
theorem eval_of_literal? {f : Formula} {v : Scalar} (h : f.literal? = some v) : f.eval ρ = v := by
  rw [literal?.eq_def] at h
  split at h
  case h_1 => exact Option.some.inj h
  case h_2 => exact Option.some.inj h
  case h_3 => cases h

/-- A formula is read as an integer by its value. -/
theorem eval_toInt (f : Formula) : f.toInt.eval ρ = (f.eval ρ).toInt := by
  cases f with
  | int e => rfl
  | bool c =>
      change (if c.eval ρ = true then 1 else 0) = (Scalar.bool (c.eval ρ)).toInt
      cases c.eval ρ <;> rfl

/-- What is built from two numbers depends on their values. -/
theorem eval_build (b : Builder) (x y : Expr .int) :
    (b.build x y).eval ρ = (b.build (.int (x.eval ρ)) (.int (y.eval ρ))).eval ρ := by
  cases b <;> rfl

/-- The value of an operation on integers depends on the values of its sides. -/
theorem eval_onInts (op : BinOp) (l r : Formula) :
    (onInts op l r).map (eval ρ) =
      (onInts op (ofScalar (l.eval ρ)) (ofScalar (r.eval ρ))).map (eval ρ) := by
  rw [onInts, onInts]
  cases op.builder? with
  | none => rfl
  | some b =>
      refine congrArg some ?_
      rw [eval_build, eval_build b (ofScalar _).toInt]
      simp only [eval_toInt, eval_ofScalar]

/-- **An operation depends on the values of its operands**, and on whether they are numbers or truth
values. -/
theorem eval_binary (op : BinOp) (l r : Formula) :
    (binary op l r).map (eval ρ) = op.value? ρ (l.eval ρ) (r.eval ρ) := by
  cases l with
  | int a => cases r <;> exact eval_onInts op _ _
  | bool a =>
      cases r with
      | int b => exact eval_onInts op _ _
      | bool b =>
          rw [BinOp.value?, eval, eval, ofScalar, ofScalar, binary, binary]
          cases op.logic? with
          | none => exact eval_onInts op _ _
          | some c => rfl

/-- A unary formula is built by the operator and means what the operator does. -/
theorem eval_unary (op : UnOp) (f : Formula) :
    (unary op f).map (eval ρ) = op.value? ρ (f.eval ρ) := by
  cases op with
  | not => cases f <;> rfl
  | neg =>
      change some (Scalar.int (-f.toInt.eval ρ)) =
        some (Scalar.int (-(ofScalar (f.eval ρ)).toInt.eval ρ))
      rw [eval_toInt, eval_toInt, eval_ofScalar]
  | ptrMetadata => rfl

end Formula

/-! ### Quotients -/

namespace Expr

variable {ρ : Valuation} {a b : Expr .int}

/-- The absolute value, by its sign. -/
theorem eval_abs (a : Expr .int) : a.abs.eval ρ = (a.eval ρ).natAbs := by
  have habs : ∀ x : Int, (if decide (0 ≤ x) = true then x else -x) = x.natAbs := fun x => by
    by_cases hx : 0 ≤ x
    · rw [if_pos (decide_eq_true hx)]
      omega
    · rw [if_neg (by simpa using hx)]
      omega
  exact habs (a.eval ρ)

/-- The quotient of the absolute values, with a sign, is the one that rounds toward zero. -/
theorem natAbs_ediv_natAbs (x y : Int) :
    (if (decide (0 ≤ x) == decide (0 ≤ y)) = true then (x.natAbs : Int) / y.natAbs
      else -((x.natAbs : Int) / y.natAbs)) = x.tdiv y := by
  by_cases hx : 0 ≤ x <;> by_cases hy : 0 ≤ y <;>
    simp only [hx, hy, decide_true, decide_false, beq_self_eq_true, if_true, Bool.true_beq,
      Bool.false_beq, Bool.not_true, if_false, Bool.false_eq_true]
  · rw [Int.natAbs_of_nonneg hx, Int.natAbs_of_nonneg hy, Int.tdiv_eq_ediv_of_nonneg hx]
  · rw [Int.natAbs_of_nonneg hx, Int.ofNat_natAbs_of_nonpos (by omega), ← Int.tdiv_eq_ediv_of_nonneg hx,
      Int.tdiv_neg, Int.neg_neg]
  · rw [Int.ofNat_natAbs_of_nonpos (by omega), Int.natAbs_of_nonneg hy,
      ← Int.tdiv_eq_ediv_of_nonneg (by omega), Int.neg_tdiv, Int.neg_neg]
  · rw [Int.ofNat_natAbs_of_nonpos (by omega), Int.ofNat_natAbs_of_nonpos (by omega),
      ← Int.tdiv_eq_ediv_of_nonneg (by omega), Int.neg_tdiv_neg]

/-- **The quotient that is built goes toward zero.** -/
theorem eval_quotient (h : b.eval ρ ≠ 0) : (a.quotient b).eval ρ = (a.eval ρ).tdiv (b.eval ρ) := by
  have hb : ((b.eval ρ).natAbs : Int) ≠ 0 := Int.natCast_ne_zero.mpr (Int.natAbs_ne_zero.mpr h)
  have hdiv : (Expr.arith .div a.abs b.abs).eval ρ =
      ((a.eval ρ).natAbs : Int) / (b.eval ρ).natAbs := by
    change Arith.eval ρ .div (a.abs.eval ρ) (b.abs.eval ρ) = _
    rw [eval_abs, eval_abs, Arith.eval, Arith.eval?, if_neg hb]
    rfl
  rw [← natAbs_ediv_natAbs, ← hdiv]
  rfl

/-- **The remainder has the sign of the dividend.** -/
theorem eval_remainder (h : b.eval ρ ≠ 0) :
    (a.remainder b).eval ρ = (a.eval ρ).tmod (b.eval ρ) := by
  rw [Int.tmod_def, ← eval_quotient h]
  rfl

end Expr

/-! ### Expressions without symbols -/

/-- No symbol occurs in the expression, and nothing is divided by zero. -/
def Expr.Ground : {d : Domain} → Expr d → Prop
  | _, .int _ | _, .bool _ => True
  | _, .number _ | _, .truth _ => False
  | _, .ite c a b => c.Ground ∧ a.Ground ∧ b.Ground
  | _, .arith op a b => a.Ground ∧ b.Ground ∧ (op = .div → ∀ ρ, b.eval ρ ≠ 0)
  | _, .compare _ a b => a.Ground ∧ b.Ground
  | _, .logic _ a b => a.Ground ∧ b.Ground
  | _, .bits _ a b => a.Ground ∧ b.Ground
  | _, .neg a => a.Ground
  | _, .not a => a.Ground
  | _, .toWord a => a.Ground
  | _, .complement a => a.Ground
  | _, .ofWord a => a.Ground

def Formula.Ground : Formula → Prop
  | .int e => e.Ground
  | .bool e => e.Ground

/-- The operator may take the number on its right: it does not divide by zero. -/
def BinOp.Admits (op : BinOp) (b : Int) : Prop := op = .div ∨ op = .rem → b ≠ 0

namespace Expr

variable {a b : Expr .int}

theorem Ground.abs (ha : a.Ground) : a.abs.Ground := ⟨⟨ha, trivial⟩, ha, ha⟩

/-- A divisor that is never zero leaves nothing to the valuation. -/
theorem Ground.quotient (ha : a.Ground) (hb : b.Ground) (hzero : ∀ ρ, b.eval ρ ≠ 0) :
    (a.quotient b).Ground := by
  have hdiv : (Expr.arith .div a.abs b.abs).Ground := by
    refine ⟨ha.abs, hb.abs, fun _ ρ h => hzero ρ ?_⟩
    rw [eval_abs] at h
    exact Int.natAbs_eq_zero.mp (Int.natCast_eq_zero.mp h)
  exact ⟨⟨⟨ha, trivial⟩, hb, trivial⟩, hdiv, hdiv⟩

end Expr

namespace Formula

/-- Literals have no symbols. -/
theorem ground_toInt (v : Scalar) : (ofScalar v).toInt.Ground := by
  cases v with
  | int a => trivial
  | bool b => exact ⟨trivial, trivial, trivial⟩

/-- What a builder makes of formulas without symbols has none. -/
theorem ground_build {b : Builder} {x y : Expr .int} (hx : x.Ground) (hy : y.Ground)
    (hb : b = .quotient ∨ b = .remainder ∨ b = .arith .div → ∀ ρ, y.eval ρ ≠ 0) :
    (b.build x y).Ground := by
  cases b with
  | arith op => exact ⟨hx, hy, fun e => hb (.inr (.inr (congrArg Builder.arith e)))⟩
  | quotient => exact hx.quotient hy (hb (.inl rfl))
  | remainder =>
      have hmul : Arith.mul = .div → ∀ ρ, (x.quotient y).eval ρ ≠ 0 := fun e => by cases e
      exact ⟨hx, ⟨hy, hx.quotient hy (hb (.inr (.inl rfl))), hmul⟩, fun e => by cases e⟩
  | compare op => exact ⟨hx, hy⟩
  | bits op => exact ⟨hx, hy⟩

/-- The expression of an operation on values has no symbol. -/
theorem ground_binary {op : BinOp} {a b : Scalar} {f : Formula} (hop : op.Admits b.toInt)
    (h : binary op (ofScalar a) (ofScalar b) = some f) : f.Ground := by
  have hints : onInts op (ofScalar a) (ofScalar b) = some f → f.Ground := fun h => by
    obtain ⟨builder, hbuilder, rfl⟩ := Option.map_eq_some_iff.mp h
    refine ground_build (ground_toInt a) (ground_toInt b) fun hb ρ => ?_
    rw [eval_toInt, eval_ofScalar]
    -- no other operator divides
    refine hop ?_
    cases op <;> cases hbuilder <;> simp_all
  cases a with
  | int a => cases b <;> exact hints h
  | bool a =>
      cases b with
      | int b => exact hints h
      | bool b =>
          rw [ofScalar, ofScalar, binary] at h
          cases hlogic : op.logic? with
          | none =>
              rw [hlogic] at h
              exact hints h
          | some c =>
              rw [hlogic] at h
              cases h
              exact ⟨trivial, trivial⟩

/-- The same for a unary operator on a literal. -/
theorem ground_unary {op : UnOp} {a : Scalar} {f : Formula} (h : unary op (ofScalar a) = some f) :
    f.Ground := by
  cases op with
  | not => cases a <;> cases h <;> trivial
  | neg =>
      cases h
      exact ground_toInt a
  | ptrMetadata => cases h

end Formula

/-! ### What is asked of a simplifier -/

namespace Simplifier

/-- The simplifier keeps the value of every expression. -/
def Sound (simplify : Simplifier) : Prop := ∀ (ρ : Valuation) f, (simplify f).eval ρ = f.eval ρ

/-- The simplifier leaves a literal of an expression without symbols, unless something is divided by
zero. -/
def Computes (simplify : Simplifier) : Prop :=
  ∀ f : Formula, f.Ground → (simplify f).literal?.isSome = true

variable {simplify : Simplifier}

/-- What a sound simplifier finds is the value under every valuation. -/
theorem Sound.evaluate_eq (hsound : simplify.Sound) {f : Option Formula} {v : Scalar} (ρ : Valuation)
    (h : Term.evaluate simplify f = some v) : f.map (Formula.eval ρ) = some v := by
  obtain ⟨f, rfl, hliteral⟩ := Option.bind_eq_some_iff.mp h
  exact congrArg some ((hsound ρ f).symm.trans (Formula.eval_of_literal? hliteral))

/-- **What a sound simplifier folds is the value of the operation**, whichever values the symbols
have. -/
theorem Sound.binary_eq (hsound : simplify.Sound) {op : BinOp} {l r : Term} {v : Scalar}
    (ρ : Valuation) (h : Term.binary op l r simplify = some v) :
    op.value? ρ (l.eval ρ) (r.eval ρ) = some v := by
  rw [← hsound.evaluate_eq ρ h, Formula.eval_binary, Formula.eval_formula, Formula.eval_formula]

/-- So it is for a unary operation. -/
theorem Sound.unary_eq (hsound : simplify.Sound) {op : UnOp} {x : Term} {v : Scalar} (ρ : Valuation)
    (h : Term.unary op x simplify = some v) : op.value? ρ (x.eval ρ) = some v := by
  rw [← hsound.evaluate_eq ρ h, Formula.eval_unary, Formula.eval_formula]

/-- A simplifier that computes finds the value of every formula without symbols. -/
theorem Computes.evaluate_eq (hcomputes : simplify.Computes) (hsound : simplify.Sound)
    {f : Option Formula} (hf : ∀ g, f = some g → g.Ground) (ρ : Valuation) :
    Term.evaluate simplify f = f.map (Formula.eval ρ) := by
  cases f with
  | none => rfl
  | some f =>
      obtain ⟨v, hv⟩ := Option.isSome_iff_exists.mp (hcomputes f (hf f rfl))
      have hfold : Term.evaluate simplify (some f) = some v := hv
      rw [hfold, hsound.evaluate_eq ρ hfold]

/-- On values everything folds that is not a division by zero. -/
theorem Computes.binary_eq (hcomputes : simplify.Computes) (hsound : simplify.Sound) {op : BinOp}
    {a b : Scalar} (hop : op.Admits b.toInt) (ρ : Valuation) :
    Term.binary op (.lit a) (.lit b) simplify = op.value? ρ a b :=
  hcomputes.evaluate_eq hsound (fun _ => Formula.ground_binary hop) ρ

/-- So it folds every unary operation on a literal. -/
theorem Computes.unary_eq (hcomputes : simplify.Computes) (hsound : simplify.Sound) (op : UnOp)
    (a : Scalar) (ρ : Valuation) : Term.unary op (.lit a) simplify = op.value? ρ a :=
  hcomputes.evaluate_eq hsound (fun _ => Formula.ground_unary) ρ

end Simplifier

end Dangling
