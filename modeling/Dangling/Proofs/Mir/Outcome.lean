import Mathlib.Data.List.Forall2

/-!
# Proofs — Mir — Outcome

Readings that may fail, taken apart and put together.

* `bind_eq_ok`, `foldlM_eq_ok`: what a reading with a result went through.
* `Ends`: what a reading ends with, be it a result or a fault; one rule for each way of composing.
-/

namespace Dangling

section Results

variable {ε α β γ : Type}

@[simp] theorem ok_bind (a : α) (f : α → Except ε β) : (Except.ok a >>= f) = f a := rfl

@[simp] theorem error_bind (e : ε) (f : α → Except ε β) : (Except.error e >>= f) = .error e := rfl

/-- Two readings come through if the first does and then the second. -/
theorem bind_eq_ok {x : Except ε α} {f : α → Except ε β} {b : β} :
    x >>= f = .ok b ↔ ∃ a, x = .ok a ∧ f a = .ok b := by
  cases x with
  | error e => simp
  | ok a => simp

/-- Every step of a fold with a result has one. -/
theorem foldlM_eq_ok {f : α → γ → Except ε α} {xs : List γ} {a b : α} (h : xs.foldlM f a = .ok b) :
    ∀ x ∈ xs, ∃ a b, f a x = .ok b := by
  induction xs generalizing a with
  | nil => exact fun x hx => absurd hx List.not_mem_nil
  | cons x xs ih =>
      rw [List.foldlM_cons, bind_eq_ok] at h
      obtain ⟨c, hx, hxs⟩ := h
      intro y hy
      obtain rfl | hy := List.mem_cons.mp hy
      · exact ⟨a, c, hx⟩
      · exact ih hxs y hy

end Results

/-- A computation ends with a result that `P` holds of, or with a fault that `Q` holds of. -/
inductive Ends {ε α : Type} (P : α → Prop) (Q : ε → Prop) : Except ε α → Prop
  | ok {a : α} (h : P a) : Ends P Q (.ok a)
  | error {e : ε} (h : Q e) : Ends P Q (.error e)

namespace Ends

variable {ε α β γ : Type} {P : α → Prop} {P' : β → Prop} {Q : ε → Prop} {x : Except ε α}

theorem of_ok {a : α} (h : Ends P Q x) (hx : x = .ok a) : P a := by
  cases h with
  | ok h => exact Except.ok.inj hx ▸ h
  | error h => cases hx

theorem of_error {e : ε} (h : Ends P Q x) (hx : x = .error e) : Q e := by
  cases h with
  | ok h => cases hx
  | error h => exact Except.error.inj hx ▸ h

theorem of_any (x : Except ε α) : Ends (fun _ => True) (fun _ => True) x := by
  cases x with
  | error e => exact .error trivial
  | ok a => exact .ok trivial

theorem imp {P' : α → Prop} (h : Ends P Q x) (hP : ∀ a, P a → P' a) : Ends P' Q x := by
  cases h with
  | ok h => exact .ok (hP _ h)
  | error h => exact .error h

/-- What is said of both ends of the first is said of the two together. -/
theorem bind {f : α → Except ε β} (h : Ends P Q x) (hf : ∀ a, P a → Ends P' Q (f a)) :
    Ends P' Q (x >>= f) := by
  cases h with
  | ok h => exact hf _ h
  | error h => exact .error h

/-- A list whose items are read is read. -/
theorem mapM {f : γ → Except ε β} {xs : List γ} (h : ∀ x ∈ xs, Ends (fun _ => True) Q (f x)) :
    Ends (fun _ => True) Q (xs.mapM f) := by
  induction xs with
  | nil => exact .ok trivial
  | cons x xs ih =>
      rw [List.mapM_cons]
      refine (h x (.head _)).bind fun b _ => ?_
      exact (ih fun x hx => h x (.tail _ hx)).bind fun bs _ => .ok trivial

/-- What every step of a fold keeps, the fold keeps. -/
theorem foldlM {f : α → γ → Except ε α} {xs : List γ}
    (hf : ∀ a, ∀ x ∈ xs, P a → Ends P Q (f a x)) {a : α} (ha : P a) :
    Ends P Q (xs.foldlM f a) := by
  induction xs generalizing a with
  | nil => exact .ok ha
  | cons x xs ih =>
      rw [List.foldlM_cons]
      exact (hf a x (.head _) ha).bind fun b hb => ih (fun a y hy => hf a y (.tail _ hy)) hb

end Ends

end Dangling
