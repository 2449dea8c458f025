import Dangling.Summary.Cache

/-!
# Proofs — Summary — Cache

What is found in a cache after something is stored: what was there first stays, and other functions
are not touched.
-/

namespace Dangling.Cache

/-- An entry at the end counts where there is no other. -/
theorem lookup_append_singleton {α : Type} (l : List (String × α)) (f g : String) (a : α) :
    (l ++ [(f, a)]).lookup g = if g = f then some ((l.lookup f).getD a) else l.lookup g := by
  rw [List.lookup_append, List.lookup_cons, List.lookup_nil]
  by_cases e : g = f
  · subst e
    rw [beq_self_eq_true, if_pos rfl]
    cases l.lookup g <;> rfl
  · rw [beq_false_of_ne e, if_neg e, Option.or_none]

/-- The first summary of a function is the one that stays. -/
theorem summary?_insert (c : Cache) (f g : String) (s : Summary) :
    (c.insert f s).summary? g = if g = f then some ((c.summary? f).getD s) else c.summary? g := by
  rw [insert]
  split
  case isTrue h =>
    obtain ⟨first, hfirst⟩ := Option.isSome_iff_exists.mp h
    split
    case isTrue e => rw [e, hfirst, Option.getD_some]
    case isFalse => rfl
  case isFalse => exact lookup_append_singleton c.summaries f g s

/-- Summaries are kept apart from reports. -/
theorem report?_insert (c : Cache) (f g : String) (s : Summary) :
    (c.insert f s).report? g = c.report? g := by
  rw [insert]
  split <;> rfl

/-- The first report of a function is the one that is handed out. -/
theorem store_fst (c : Cache) (r : Report) : (c.store r).1 = (c.report? r.function).getD r := by
  rw [store]
  cases c.report? r.function <;> rfl

theorem summary?_store (c : Cache) (r : Report) (g : String) :
    (c.store r).2.summary? g = c.summary? g := by
  rw [store]
  split <;> rfl

/-- And the one that stays. -/
theorem report?_store (c : Cache) (r : Report) (g : String) :
    (c.store r).2.report? g =
      if g = r.function then some ((c.report? r.function).getD r) else c.report? g := by
  rw [store]
  split
  case h_1 first hfirst =>
    split
    case isTrue e => rw [e, hfirst, Option.getD_some]
    case isFalse => rfl
  case h_2 => exact lookup_append_singleton c.reports r.function g r

theorem lookup_fst (c : Cache) (f : String) : (c.lookup f).1 = c.summary? f := by
  rw [lookup]
  cases c.summary? f <;> rfl

/-- To look a summary up only counts. -/
theorem summary?_lookup (c : Cache) (f g : String) : (c.lookup f).2.summary? g = c.summary? g := by
  rw [lookup]
  split <;> rfl

theorem report?_lookup (c : Cache) (f g : String) : (c.lookup f).2.report? g = c.report? g := by
  rw [lookup]
  split <;> rfl

end Dangling.Cache
