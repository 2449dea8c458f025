import Dangling.Proofs.Constant.Meaning

/-!
# Proofs — Constant — Simplify

The simplifier that the program runs with is sound, and it computes.  An expression whose value it finds
has this value under every valuation: each rule is a fact about one operator, and the tree follows by
one induction.  An expression without symbols has a value that is found, since its parts have.

* `Arith.eval_of_fold?`, `Comparison.eval_of_fold?`, `Logic.eval_of_fold?`, `Bits.eval_of_fold?`: the
  rules, operator by operator.
* `Expr.eval_of_value?`, `Expr.exists_value?`: what is found is right, and when it is found.
* `Formula.simplify_sound`, `Formula.simplify_computes`.
-/

namespace Dangling

variable {ρ : Valuation}

/-! ### The rules -/

namespace Expr

variable {a b : Expr .int}

/-- A truth value counts as zero or one. -/
theorem eval_of_isFlag (h : a.isFlag = true) : a.eval ρ = 0 ∨ a.eval ρ = 1 := by
  cases a with
  | ite c yes no =>
      obtain ⟨rfl, rfl⟩ := of_decide_eq_true h
      rw [eval]
      cases c.eval ρ with
      | true => exact .inr rfl
      | false => exact .inl rfl
  | _ => cases h

/-- A unit is one or minus one. -/
theorem eval_of_isUnit (h : b.isUnit = true) : b.eval ρ = 1 ∨ b.eval ρ = -1 := by
  obtain rfl | rfl | rfl := of_decide_eq_true h
  · exact .inl rfl
  · exact .inr rfl
  · exact .inl rfl

/-- A unit divides without a remainder. -/
theorem eval_of_isUnitMultiple (h : a.isUnitMultiple b = true) : a.eval ρ - b.eval ρ = 0 := by
  cases b with
  | arith op d q =>
      obtain ⟨rfl, hd, rfl⟩ := of_decide_eq_true h
      have hunit := eval_of_isUnit (ρ := ρ) hd
      have hzero : d.eval ρ ≠ 0 := by
        obtain h | h := hunit <;> rw [h] <;> decide
      refine (eval_remainder (a := a) hzero).trans ?_
      obtain h | h := hunit <;> rw [h]
      · exact Int.tmod_one _
      · exact (Int.tmod_neg _ 1).trans (Int.tmod_one _)
  | _ => cases h

end Expr

section Rules

variable {x y : Option Int} {p q : Option Bool} {v w : Option (BitVec 64)}

/-- An arithmetic fold is right wherever its operands are. -/
theorem Arith.eval_of_fold? {op : Arith} {a b : Expr .int} {z : Int}
    (hx : ∀ n, x = some n → a.eval ρ = n) (hy : ∀ n, y = some n → b.eval ρ = n)
    (h : op.fold? a b x y = some z) : op.eval ρ (a.eval ρ) (b.eval ρ) = z := by
  rw [fold?.eq_def] at h
  split at h
  case h_1 m n => rw [hx m rfl, hy n rfl, eval, h, Option.getD_some]
  case h_2 =>
    split at h
    case h_1 =>
      obtain ⟨hzero, ⟨⟩⟩ := Option.ite_none_right_eq_some.mp h
      change a.eval ρ - b.eval ρ = 0
      obtain rfl | ⟨-, hunit⟩ := hzero
      · exact Int.sub_self _
      · exact Expr.eval_of_isUnitMultiple hunit
    case h_2 =>
      obtain ⟨hzero, ⟨⟩⟩ := Option.ite_none_right_eq_some.mp h
      change a.eval ρ * b.eval ρ = 0
      obtain rfl | rfl := hzero
      · rw [hx 0 rfl, Int.zero_mul]
      · rw [hy 0 rfl, Int.mul_zero]
    case h_3 => cases h

/-- Zero and one compare alike with a number that the rule names. -/
theorem Comparison.eval_of_ignoresLeft {op : Comparison} {b : Expr .int} {c k : Int}
    (h : op.ignoresLeft b k = true) (hb : b.eval ρ = k) (hc : c = 0 ∨ c = 1) :
    op.eval c k = op.eval 0 k := by
  cases op with
  | eq | ne | gt =>
      have hk := of_decide_eq_true h
      simp only [eval, decide_eq_decide]
      omega
  | le =>
      obtain rfl : b = _ := of_decide_eq_true h
      obtain rfl : 1 = k := hb
      obtain rfl | rfl := hc <;> rfl
  | ge =>
      obtain rfl : b = _ := of_decide_eq_true h
      obtain rfl : 0 = k := hb
      obtain rfl | rfl := hc <;> rfl
  | lt => cases h

/-- Some comparisons with a flag come out alike for zero and one. -/
theorem Comparison.eval_of_ignoresRight {op : Comparison} {c k : Int} (h : op.ignoresRight k = true)
    (hc : c = 0 ∨ c = 1) : op.eval k c = op.eval k 0 := by
  cases op with
  | eq | ne | lt =>
      have hk := of_decide_eq_true h
      simp only [eval, decide_eq_decide]
      omega
  | le | gt | ge => cases h

theorem Comparison.eval_self (op : Comparison) (c : Int) : op.eval c c = op.eval 0 0 := by
  cases op <;> simp [eval]

/-- A fold of a comparison is right, also where only one side is known. -/
theorem Comparison.eval_of_fold? {op : Comparison} {a b : Expr .int} {z : Bool}
    (hx : ∀ n, x = some n → a.eval ρ = n) (hy : ∀ n, y = some n → b.eval ρ = n)
    (h : op.fold? a b x y = some z) : op.eval (a.eval ρ) (b.eval ρ) = z := by
  rw [fold?.eq_def] at h
  split at h
  case h_1 m n =>
    rw [hx m rfl, hy n rfl]
    exact Option.some.inj h
  case h_2 k =>
    obtain ⟨⟨hflag, hop⟩, ⟨⟩⟩ := Option.ite_none_right_eq_some.mp h
    rw [hy k rfl]
    exact eval_of_ignoresLeft hop (hy k rfl) (Expr.eval_of_isFlag hflag)
  case h_3 k =>
    obtain ⟨⟨hflag, hop⟩, ⟨⟩⟩ := Option.ite_none_right_eq_some.mp h
    rw [hx k rfl]
    exact eval_of_ignoresRight hop (Expr.eval_of_isFlag hflag)
  case h_4 =>
    obtain ⟨rfl, ⟨⟩⟩ := Option.ite_none_right_eq_some.mp h
    exact op.eval_self _

theorem Logic.eval_of_same? {op : Logic} {c z : Bool} (h : op.same? = some z) : op.eval c c = z := by
  cases op with
  | and | or => cases h
  | xor | eq | ne =>
      cases h
      cases c <;> rfl

/-- A fold of a connective is right, also where one side decides. -/
theorem Logic.eval_of_fold? {op : Logic} {a b : Expr .bool} {z : Bool}
    (hp : ∀ c, p = some c → a.eval ρ = c) (hq : ∀ c, q = some c → b.eval ρ = c)
    (h : op.fold? a b p q = some z) : op.eval (a.eval ρ) (b.eval ρ) = z := by
  rw [fold?.eq_def] at h
  split at h
  case h_1 m n =>
    rw [hp m rfl, hq n rfl]
    exact Option.some.inj h
  case h_2 =>
    split at h
    case isTrue habsorbed =>
      cases h
      obtain ⟨rfl, rfl | rfl⟩ := habsorbed
      · rw [hp false rfl]
        rfl
      · rw [hq false rfl]
        exact Bool.and_false _
    case isFalse =>
      split at h
      case isTrue habsorbed =>
        cases h
        obtain ⟨rfl, rfl | rfl⟩ := habsorbed
        · rw [hp true rfl]
          rfl
        · rw [hq true rfl]
          exact Bool.or_true _
      case isFalse =>
        obtain ⟨rfl, hsame⟩ := Option.ite_none_right_eq_some.mp h
        exact eval_of_same? hsame

/-- A fold on words is right. -/
theorem Bits.eval_of_fold? {op : Bits} {a b : Expr .word} {z : BitVec 64}
    (hv : ∀ u, v = some u → a.eval ρ = u) (hw : ∀ u, w = some u → b.eval ρ = u)
    (h : op.fold? a b v w = some z) : op.eval (a.eval ρ) (b.eval ρ) = z := by
  rw [fold?.eq_def] at h
  split at h
  case h_1 m n =>
    rw [hv m rfl, hw n rfl]
    exact Option.some.inj h
  case h_2 =>
    split at h
    case h_1 =>
      obtain ⟨habsorbed, ⟨⟩⟩ := Option.ite_none_right_eq_some.mp h
      obtain rfl | rfl := habsorbed
      · rw [hv 0 rfl]
        exact BitVec.zero_and
      · rw [hw 0 rfl]
        exact BitVec.and_zero
    case h_2 =>
      obtain ⟨habsorbed, ⟨⟩⟩ := Option.ite_none_right_eq_some.mp h
      obtain rfl | rfl := habsorbed
      · rw [hv _ rfl]
        exact BitVec.allOnes_or
      · rw [hw _ rfl]
        exact BitVec.or_allOnes
    case h_3 =>
      obtain ⟨rfl, ⟨⟩⟩ := Option.ite_none_right_eq_some.mp h
      exact BitVec.xor_self
    case h_4 =>
      obtain ⟨u, rfl, hu⟩ := Option.bind_eq_some_iff.mp h
      obtain ⟨hlong, ⟨⟩⟩ := Option.ite_none_right_eq_some.mp hu
      rw [hw u rfl]
      exact if_pos hlong
    case h_5 => cases h

end Rules

/-! ### Expressions -/

namespace Expr

/-- **What is found is the value of the expression**, under every valuation. -/
theorem eval_of_value? {d : Domain} {e : Expr d} {v : d.Value} (h : e.value? = some v) :
    e.eval ρ = v := by
  induction e with
  | int a => exact Option.some.inj h
  | bool b => exact Option.some.inj h
  | number name => cases h
  | truth name => cases h
  | ite c a b ihc iha ihb =>
      obtain ⟨z, hc, hz⟩ := Option.bind_eq_some_iff.mp h
      rw [eval, ihc hc]
      cases z with
      | true => exact iha hz
      | false => exact ihb hz
  | arith op a b iha ihb => exact Arith.eval_of_fold? (fun _ => iha) (fun _ => ihb) h
  | compare op a b iha ihb => exact Comparison.eval_of_fold? (fun _ => iha) (fun _ => ihb) h
  | logic op a b iha ihb => exact Logic.eval_of_fold? (fun _ => iha) (fun _ => ihb) h
  | bits op a b iha ihb => exact Bits.eval_of_fold? (fun _ => iha) (fun _ => ihb) h
  | neg a ih | not a ih | toWord a ih | complement a ih | ofWord a ih =>
      obtain ⟨u, hu, rfl⟩ := Option.map_eq_some_iff.mp h
      rw [eval, ih hu]

/-- Of an expression without symbols the value is found. -/
theorem exists_value? {d : Domain} {e : Expr d} (h : e.Ground) : ∃ v, e.value? = some v := by
  induction e with
  | int a => exact ⟨a, rfl⟩
  | bool b => exact ⟨b, rfl⟩
  | number name => exact h.elim
  | truth name => exact h.elim
  | ite c a b ihc iha ihb =>
      obtain ⟨hc, ha, hb⟩ := h
      obtain ⟨z, hz⟩ := ihc hc
      rw [value?, hz]
      cases z with
      | true => exact iha ha
      | false => exact ihb hb
  | arith op a b iha ihb =>
      obtain ⟨ha, hb, hdiv⟩ := h
      obtain ⟨m, hm⟩ := iha ha
      obtain ⟨n, hn⟩ := ihb hb
      rw [value?, hm, hn]
      change ∃ v, op.eval? m n = some v
      cases op with
      | add | sub | mul => exact ⟨_, rfl⟩
      | div =>
          have hzero : n ≠ 0 := fun e =>
            hdiv rfl default ((eval_of_value? hn).trans e)
          exact ⟨_, if_neg hzero⟩
  | compare op a b iha ihb | logic op a b iha ihb | bits op a b iha ihb =>
      obtain ⟨m, hm⟩ := iha h.1
      obtain ⟨n, hn⟩ := ihb h.2
      rw [value?, hm, hn]
      exact ⟨_, rfl⟩
  | neg a ih | not a ih | toWord a ih | complement a ih | ofWord a ih =>
      obtain ⟨u, hu⟩ := ih h
      rw [value?, hu]
      exact ⟨_, rfl⟩

end Expr

/-! ### The simplifier -/

namespace Formula

/-- **What is found is the value under every valuation.** -/
theorem simplify_sound : Simplifier.Sound simplify := by
  intro ρ f
  cases f with
  | int e =>
      rw [simplify, eval, eval]
      cases hv : e.value? with
      | none => rfl
      | some v => exact congrArg Scalar.int (Expr.eval_of_value? hv).symm
  | bool e =>
      rw [simplify, eval, eval]
      cases hv : e.value? with
      | none => rfl
      | some v => exact congrArg Scalar.bool (Expr.eval_of_value? hv).symm

/-- **Every formula without symbols is computed.** -/
theorem simplify_computes : Simplifier.Computes simplify := by
  intro f hf
  cases f with
  | int e =>
      obtain ⟨v, hv⟩ := Expr.exists_value? hf
      rw [simplify, hv]
      rfl
  | bool e =>
      obtain ⟨v, hv⟩ := Expr.exists_value? hf
      rw [simplify, hv]
      rfl

end Formula

end Dangling
