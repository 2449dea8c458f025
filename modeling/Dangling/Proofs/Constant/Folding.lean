import Dangling.Proofs.Constant.Simplify

/-!
# Proofs — Constant — Folding

What folds without a look at the symbols holds of all their values: an operation that folds to `v` folds
to `v` on the values of its terms too, whether it folds because a symbol meets itself, because a value
absorbs the symbol, or because a truth value is no number but zero and one.  This is asked of no table
of such cases, but follows for every simplifier that keeps values and computes what has no symbols.

* `Term.folding_sound`: folding agrees with every valuation.
-/

namespace Dangling

namespace Term

/-- **Folding is sound.**  Let a simplifier keep the value of every expression, and compute those
without symbols.  If an operation on terms folds to a value, it folds to this value, number or truth
value, whichever values the symbols have, unless these make it a division by zero. -/
theorem folding_sound {simplify : Simplifier} (hsound : simplify.Sound)
    (hcomputes : simplify.Computes) (ρ : Valuation) :
    (∀ op l r v, binary op l r simplify = some v →
      (op = .div ∨ op = .rem → (r.eval ρ).toInt ≠ 0) →
        binary op (.lit (l.eval ρ)) (.lit (r.eval ρ)) simplify = some v) ∧
    ∀ op x v, unary op x simplify = some v → unary op (.lit (x.eval ρ)) simplify = some v := by
  refine ⟨fun op l r v h hzero => ?_, fun op x v h => ?_⟩
  · rw [hcomputes.binary_eq hsound hzero ρ]
    exact hsound.binary_eq ρ h
  · rw [hcomputes.unary_eq hsound op _ ρ]
    exact hsound.unary_eq ρ h

/-- Every number is seven, and everything is true. -/
def sevens : Valuation := ⟨fun _ => 7, fun _ => true, fun _ => 0⟩

/-- A truth value among numbers, a symbol against itself, a shift that leaves nothing, and a remainder
of one. -/
theorem sevens_fold :
    binary .bitOr (.sym "b" true) (.lit (.int (-1))) = some (.int (-1)) ∧
      binary .bitOr (.lit (.bool true)) (.lit (.int (-1))) = some (.int (-1)) ∧
      binary .bitXor (.sym "b" true) (.sym "b" true) = some (.bool false) ∧
      binary .bitXor (.lit (.bool true)) (.lit (.bool true)) = some (.bool false) ∧
      binary .shl (.sym "n" false) (.lit (.int 64)) = some (.int 0) ∧
      binary .shl (.lit (.int 7)) (.lit (.int 64)) = some (.int 0) ∧
      binary .rem (.sym "b" true) (.lit (.int (-1))) = some (.int 0) ∧
      binary .rem (.lit (.bool true)) (.lit (.int (-1))) = some (.int 0) := by
  have hor : binary .bitOr (.sym "b" true) (.lit (.int (-1))) = some (.int (-1)) := by decide
  have hxor : binary .bitXor (.sym "b" true) (.sym "b" true) = some (.bool false) := by decide
  have hshl : binary .shl (.sym "n" false) (.lit (.int 64)) = some (.int 0) := by decide
  have hrem : binary .rem (.sym "b" true) (.lit (.int (-1))) = some (.int 0) := by decide
  have hfold := (folding_sound Formula.simplify_sound Formula.simplify_computes sevens).1
  exact ⟨hor, hfold _ _ _ _ hor (by decide), hxor, hfold _ _ _ _ hxor (by decide), hshl,
    hfold _ _ _ _ hshl (by decide), hrem, hfold _ _ _ _ hrem (by decide)⟩

end Term

end Dangling
