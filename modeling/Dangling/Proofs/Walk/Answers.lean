import Dangling.Proofs.Walk.Budget
import Dangling.Proofs.Walk.Questions

/-!
# Proofs — Walk — Answers

What a walk takes from the answers it gets.  Of a summary it uses the alias pairs and the released
slots; whose summary it is, and whether it is complete, makes no difference (`Walk.run_anonymous`).

* `CalleeEffect.anonymous`: what is known of a callee, without these.
* `Dialogue.run_eq_of_final`: two resolvers whose answers agree as long as the run ends well make the
  same run.
* `Walk.run_eq_of_unspent`, `Walk.findings_subset_of_le`: walks with two budgets.
-/

namespace Dangling

/-- What is known of a callee, without its name, its number of arguments and whether all is known. -/
def CalleeEffect.anonymous : CalleeEffect → CalleeEffect
  | .summarised sum => .summarised { function := "", aliases := sum.aliases, dropped := sum.dropped }
  | e => e

/-- The same answers, without names. -/
def Resolver.anonymous {σ : Type} (resolve : Resolver σ) : Resolver σ := fun callee s =>
  ((resolve callee s).1.map CalleeEffect.anonymous, (resolve callee s).2)

namespace CallSite

variable {loc : Location} {callee : String} {args : List Operand}

theorem apply_anonymous (t : NodeTable) (e : CalleeEffect) (destination : Place) (p : Progress) :
    apply t ⟨loc, callee, e.anonymous, args⟩ destination p =
      apply t ⟨loc, callee, e, args⟩ destination p := by
  cases e <;> rfl

theorem isMisplaced_anonymous (t : NodeTable) (e : CalleeEffect) (destination : Place) :
    isMisplaced t ⟨loc, callee, e.anonymous, args⟩ destination =
      isMisplaced t ⟨loc, callee, e, args⟩ destination := by
  cases e <;> rfl

end CallSite

/-! ### Dialogues -/

namespace Dialogue

variable {α β σ : Type} {resolve resolve' : Resolver σ}

/-- The dialogue goes on in the same way without names. -/
inductive Discreet : Dialogue α → Prop where
  | done {a : α} : Discreet (done a)
  | fail {e : AnalysisFault} : Discreet (fail e)
  | ask {c : String} {k : CalleeEffect → Dialogue α} (hk : ∀ e, k e.anonymous = k e)
      (h : ∀ e, Discreet (k e)) : Discreet (ask c k)

theorem Discreet.ofExcept (x : Except AnalysisFault α) : (ofExcept x).Discreet := by
  cases x with
  | ok a => exact .done
  | error e => exact .fail

theorem Discreet.bind {d : Dialogue α} (h : d.Discreet) {f : α → Dialogue β}
    (hf : ∀ a, (f a).Discreet) : (d.bind f).Discreet := by
  induction h with
  | done => exact hf _
  | fail => exact .fail
  | ask hk _ ih => exact .ask (fun e => congrArg (Dialogue.bind · f) (hk e)) ih

theorem Discreet.run {d : Dialogue α} (h : d.Discreet) (s : σ) :
    d.run resolve.anonymous s = d.run resolve s := by
  induction h generalizing s with
  | done => rfl
  | fail => rfl
  | @ask c k hk _ ih =>
      rw [Dialogue.run, Dialogue.run, Resolver.anonymous]
      cases resolve c s with
      | mk x t =>
          cases x with
          | error e => rfl
          | ok e =>
              simp only [Except.map]
              rw [hk, ih]

/-- Let answers be the same wherever the store ends as `P` says, and `P` hold before an answer if it
holds after it.  Then a run that ends so is the same run. -/
theorem run_eq_of_final {I P : σ → Prop} (hI : ∀ c s, I s → I (resolve c s).2)
    (hback : ∀ c s, I s → P (resolve c s).2 → P s)
    (hsame : ∀ c s, I s → P (resolve c s).2 → resolve' c s = resolve c s) (d : Dialogue α) {s : σ}
    (hs : I s) (hend : P (d.run resolve s).2) : d.run resolve' s = d.run resolve s ∧ P s := by
  induction d generalizing s with
  | done a => exact ⟨rfl, hend⟩
  | fail e => exact ⟨rfl, hend⟩
  | ask c k ih =>
      have hnext := hI c s hs
      have hc := hsame c s hs
      have hbefore := hback c s hs
      rw [Dialogue.run] at hend ⊢
      rw [Dialogue.run]
      cases hr : resolve c s with
      | mk x t =>
          rw [hr] at hend hnext hc hbefore
          cases x with
          | ok e =>
              obtain ⟨hrest, ht⟩ := ih e hnext hend
              rw [hc ht]
              exact ⟨hrest, hbefore ht⟩
          | error e =>
              rw [hc hend]
              exact ⟨rfl, hbefore hend⟩

end Dialogue

/-! ### Walks -/

theorem Visit.discreet_dialogue (g : FunctionGraph) (cfg : Config) (b : GraphBlock)
    (state : PathState) : (Visit.dialogue g cfg b state).Discreet := by
  simp only [Visit.dialogue]
  split
  · exact .fail
  · split
    · refine .ask (fun e => ?_) fun e => .ofExcept _
      rw [Visit.called, Visit.called, CallSite.isMisplaced_anonymous, CallSite.apply_anonymous]
    · exact .ofExcept _

namespace Walk

variable {σ : Type} {g : FunctionGraph} {cfg : Config} {resolve : Resolver σ} {s s' s'' : σ}

theorem discreet_conversation (budget : Nat) (items : List Item) (t : Tally) :
    (conversation g cfg budget items t).Discreet := by
  induction budget, items, t using conversation.induct g cfg with
  | case1 budget t =>
      rw [conversation_nil]
      exact .done
  | case2 budget i rest t he ih =>
      rw [conversation_cut he]
      exact ih
  | case3 i rest t j he =>
      rw [conversation_stop he]
      exact .done
  | case4 i rest t j he budget ih =>
      rw [conversation_visit he]
      exact (Visit.discreet_dialogue g cfg _ _).bind ih

/-- **A walk does not ask whose summary it is told.** -/
theorem run_anonymous (g : FunctionGraph) (cfg : Config) (resolve : Resolver σ) (s : σ) :
    run g cfg resolve.anonymous s = run g cfg resolve s := by
  rw [run_eq, run_eq, dialogue]
  exact ((discreet_conversation _ _ _).bind fun _ => .done).run s

/-- A walk that does not run out of budget goes the same way with more. -/
theorem run_eq_of_unspent {budget larger : Int} (hle : budget ≤ larger)
    (h : ∀ o s', run g { cfg with visitBudget := budget } resolve s = (.ok o, s') →
      o.complete = true) :
    run g { cfg with visitBudget := larger } resolve s =
      run g { cfg with visitBudget := budget } resolve s := by
  obtain ⟨more, hmore⟩ := Nat.exists_eq_add_of_le (show budget.toNat ≤ larger.toNat by omega)
  have hunspent : ∀ t s', explore g cfg resolve budget.toNat [start g]
      { ledger := { function := g.name } } s ≠ (.ok (t, false), s') := by
    intro t s' hx
    exact Bool.false_ne_true (h _ s' (run_eq_ok_iff.mpr ⟨t, false, hx, rfl⟩))
  simp only [run, explore_visitBudget, hmore, explore_add more _ _ _ _ hunspent]

/-- With more budget no finding is lost. -/
theorem findings_subset_of_le {budget larger : Int} {o o' : Outcome} (hle : budget ≤ larger)
    (h : run g { cfg with visitBudget := budget } resolve s = (.ok o, s'))
    (h' : run g { cfg with visitBudget := larger } resolve s = (.ok o', s'')) :
    o.findings ⊆ o'.findings := by
  obtain ⟨t, complete, hx, rfl⟩ := run_eq_ok_iff.mp h
  obtain ⟨t', complete', hx', rfl⟩ := run_eq_ok_iff.mp h'
  have hwithin := explore_within_of_le _ _ _ _ (show budget.toNat ≤ larger.toNat by omega) hx hx'
  intro f hf
  exact Sorted.mem_sortBy.mpr (hwithin.entries.subset (Sorted.mem_sortBy.mp hf))

end Walk

end Dangling
