import Dangling.Proofs.Walk.Tally

/-!
# Proofs — Walk — Explore

The walk, one item at a time.  `explore` takes all items that are cut before the next block in one
step; the equations here take them one by one, so that proofs about a walk are inductions on the
budget and, below it, on the items.

* `explore_nil`, `explore_cut`, `explore_stop`, `explore_fault`, `explore_visit`: what comes of the
  first item.
* `explore_add`: a walk that is not given up goes the same way with more budget.
* `Walked`: the paths of a walk, as lists of the blocks entered.
-/

namespace Dangling.Walk

variable {g : FunctionGraph} {cfg : Config} {σ : Type} {resolve : Resolver σ}

/-! ### One item -/

theorem next_of_cut {i : Item} (h : enter? g cfg i = none) (rest : List Item) :
    next g cfg (i :: rest) = ((next g cfg rest).1 + 1, (next g cfg rest).2) := by
  rw [next, h]

theorem next_of_enter {i j : Item} (h : enter? g cfg i = some j) (rest : List Item) :
    next g cfg (i :: rest) = (0, some (j, rest)) := by
  rw [next, h]

theorem explore_nil (budget : Nat) (t : Tally) (s : σ) :
    explore g cfg resolve budget [] t s = (.ok (t, true), s) := by
  rw [explore, next]
  rfl

/-- An item that is cut is counted. -/
theorem explore_cut {i : Item} (h : enter? g cfg i = none) (budget : Nat) (rest : List Item)
    (t : Tally) (s : σ) :
    explore g cfg resolve budget (i :: rest) t s =
      explore g cfg resolve budget rest (t.cut 1) s := by
  rw [explore, explore, next_of_cut h]
  cases next g cfg rest with
  | mk cut found => cases found <;> simp only [Tally.cut_cut]

/-- Without budget no block is entered. -/
theorem explore_stop {i j : Item} (h : enter? g cfg i = some j) (rest : List Item) (t : Tally)
    (s : σ) : explore g cfg resolve 0 (i :: rest) t s = (.ok (t, false), s) := by
  rw [explore, next_of_enter h]
  rfl

theorem explore_fault {i j : Item} (h : enter? g cfg i = some j) {s s' : σ} {e : AnalysisFault}
    (hv : Visit.block g cfg resolve ((g.block? j.block).getD default) j.state s = (.error e, s'))
    (budget : Nat) (rest : List Item) (t : Tally) :
    explore g cfg resolve (budget + 1) (i :: rest) t s = (.error e, s') := by
  rw [explore, next_of_enter h]
  simp only [hv]

/-- A block that is entered is added, and its continuations come before the other items. -/
theorem explore_visit {i j : Item} (h : enter? g cfg i = some j) {s s' : σ} {v : Visit}
    (hv : Visit.block g cfg resolve ((g.block? j.block).getD default) j.state s = (.ok v, s'))
    (budget : Nat) (rest : List Item) (t : Tally) :
    explore g cfg resolve (budget + 1) (i :: rest) t s =
      explore g cfg resolve budget (continuations g j v ++ rest) (t.add g v) s' := by
  rw [explore, next_of_enter h]
  simp only [hv, Tally.cut_zero]

/-- The induction that a walk is: on the budget and, where an item is cut, on the items. -/
@[elab_as_elim]
theorem explore_induct (g : FunctionGraph) (cfg : Config) (resolve : Resolver σ)
    {motive : Nat → List Item → Tally → σ → Prop}
    (nil : ∀ budget t s, motive budget [] t s)
    (cut : ∀ budget i rest t s, enter? g cfg i = none → motive budget rest (t.cut 1) s →
      motive budget (i :: rest) t s)
    (stop : ∀ i j rest t s, enter? g cfg i = some j → motive 0 (i :: rest) t s)
    (fault : ∀ budget i j rest t s e s', enter? g cfg i = some j →
      Visit.block g cfg resolve ((g.block? j.block).getD default) j.state s = (.error e, s') →
      motive (budget + 1) (i :: rest) t s)
    (visit : ∀ budget i j rest t s v s', enter? g cfg i = some j →
      Visit.block g cfg resolve ((g.block? j.block).getD default) j.state s = (.ok v, s') →
      motive budget (continuations g j v ++ rest) (t.add g v) s' →
      motive (budget + 1) (i :: rest) t s) :
    ∀ budget items t s, motive budget items t s
  | budget, [], t, s => nil budget t s
  | budget, i :: rest, t, s =>
    match he : enter? g cfg i, budget with
    | none, budget =>
      cut budget i rest t s he
        (explore_induct g cfg resolve nil cut stop fault visit budget rest (t.cut 1) s)
    | some j, 0 => stop i j rest t s he
    | some j, budget + 1 =>
      match hv : Visit.block g cfg resolve ((g.block? j.block).getD default) j.state s with
      | (.error e, s') => fault budget i j rest t s e s' he hv
      | (.ok v, s') =>
        visit budget i j rest t s v s' he hv
          (explore_induct g cfg resolve nil cut stop fault visit budget _ _ s')
termination_by budget items => (budget, items.length)

/-! ### Budgets -/

/-- A walk that is not given up goes the same way with more budget. -/
theorem explore_add (more budget : Nat) (items : List Item) (t : Tally) (s : σ)
    (h : ∀ t' s', explore g cfg resolve budget items t s ≠ (.ok (t', false), s')) :
    explore g cfg resolve (budget + more) items t s = explore g cfg resolve budget items t s := by
  induction budget, items, t, s using explore_induct g cfg resolve with
  | nil budget t s => rw [explore_nil, explore_nil]
  | cut budget i rest t s he ih =>
      rw [explore_cut he] at h
      rw [explore_cut he, explore_cut he, ih h]
  | stop i j rest t s he => exact absurd (explore_stop he rest t s) (h t s)
  | fault budget i j rest t s e s' he hv =>
      rw [Nat.add_right_comm, explore_fault he hv, explore_fault he hv]
  | visit budget i j rest t s v s' he hv ih =>
      rw [explore_visit he hv] at h
      rw [Nat.add_right_comm, explore_visit he hv, explore_visit he hv, ih h]

/-- The budget of the configuration is read once, when a walk starts. -/
theorem explore_visitBudget (limit : Int) (budget : Nat) (items : List Item) (t : Tally) (s : σ) :
    explore g { cfg with visitBudget := limit } resolve budget items t s =
      explore g cfg resolve budget items t s := by
  have henter : ∀ i, enter? g { cfg with visitBudget := limit } i = enter? g cfg i := fun _ => rfl
  have hblock : ∀ c p s, Visit.block g { cfg with visitBudget := limit } resolve c p s =
      Visit.block g cfg resolve c p s := fun _ _ _ => rfl
  induction budget, items, t, s using explore_induct g cfg resolve with
  | nil budget t s => rw [explore_nil, explore_nil]
  | cut budget i rest t s he ih => rw [explore_cut he, explore_cut ((henter i).trans he), ih]
  | stop i j rest t s he => rw [explore_stop he, explore_stop ((henter i).trans he)]
  | fault budget i j rest t s e s' he hv =>
      rw [explore_fault he hv, explore_fault ((henter i).trans he) ((hblock _ _ _).trans hv)]
  | visit budget i j rest t s v s' he hv ih =>
      rw [explore_visit he hv, explore_visit ((henter i).trans he) ((hblock _ _ _).trans hv), ih]

/-! ### Entering -/

theorem enter?_eq_some {i j : Item} (h : enter? g cfg i = some j) :
    j.block = i.block ∧ j.state = i.state ∧
      if g.loops.inCycle i.block then
        (i.entries.count i.block : Int) < cfg.loopUnroll ∧ j.entries = i.entries.enter i.block
      else j.entries = i.entries := by
  rw [enter?] at h
  split at h
  case isTrue hc =>
    split at h
    · exact nomatch h
    case isFalse hu =>
      obtain rfl := Option.some.inj h
      refine ⟨rfl, rfl, ?_⟩
      rw [if_pos hc]
      exact ⟨Int.not_le.mp hu, rfl⟩
  case isFalse hc =>
    obtain rfl := Option.some.inj h
    refine ⟨rfl, rfl, ?_⟩
    rw [if_neg hc]

theorem Entries.lookup_filter {b c : BlockId} (h : c ≠ b) (e : Entries) :
    (e.filter fun x => x.1 != b).lookup c = e.lookup c := by
  induction e with
  | nil => rfl
  | cons x e ih =>
      by_cases hx : x.1 = b
      · rw [List.filter_cons_of_neg (by simpa using hx), ih, List.lookup_cons,
          beq_false_of_ne (hx ▸ h)]
      · rw [List.filter_cons_of_pos (by simpa using hx), List.lookup_cons, List.lookup_cons, ih]

theorem Entries.count_enter (e : Entries) (b c : BlockId) :
    (e.enter b).count c = if c = b then e.count b + 1 else e.count c := by
  by_cases h : c = b
  · subst h
    simp [enter, count]
  · rw [if_neg h, enter, count, List.lookup_cons, beq_false_of_ne h]
    exact congrArg (Option.getD · 0) (lookup_filter h e)

/-! ### Paths -/

/-- A path of a walk: it has entered the blocks `done`, the last one first, and comes to an item.
Between its blocks other paths may be walked, so the resolver may answer from any store. -/
inductive Walked (g : FunctionGraph) (cfg : Config) (resolve : Resolver σ) :
    List BlockId → Item → Prop where
  | start : Walked g cfg resolve [] (start g)
  | step {done : List BlockId} {i j k : Item} {v : Visit} {s s' : σ}
      (h : Walked g cfg resolve done i) (he : enter? g cfg i = some j)
      (hv : Visit.block g cfg resolve ((g.block? j.block).getD default) j.state s = (.ok v, s'))
      (hk : k ∈ continuations g j v) : Walked g cfg resolve (j.block :: done) k

end Dangling.Walk
