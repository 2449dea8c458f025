import Dangling.Proofs.Walk.Unrolling

/-!
# Proofs — Walk — Budget

What the visit budget does to a walk.

Two walks with different budgets go the same way until the smaller budget is used up, so what the
smaller one has met is part of what the larger one meets (`explore_within_of_le`), each finding with
all that is recorded about it, since a ledger only grows at its end.  How far a walk comes is said by
the number of visits that it would make without a budget (`explore_visits`): a block is entered only
if the budget allows it, but paths are cut for free, so a walk whose budget ends where only cuts are
left is complete.

* `Tally.Within`: everything that one tally holds is held by another.
* `visit_budget_law`: the visits, the completeness and the findings of a walk by its budget.
-/

namespace Dangling

/-! ### What a ledger and a tally keep -/

namespace Ledger

theorem entries_record (l : Ledger) (f : Finding) : l.entries <+: (l.record f).entries := by
  rw [record]
  split
  · exact List.prefix_refl _
  · exact List.prefix_append _ _

theorem entries_recordAll (t : NodeTable) (l : Ledger) (alarms : List Alarm) :
    l.entries <+: (l.recordAll t alarms).entries :=
  List.foldlRecOn (motive := fun k : Ledger => l.entries <+: k.entries) alarms _
    (List.prefix_refl _) fun k hk _ _ => hk.trans (entries_record k _)

end Ledger

namespace Walk

namespace Tally

/-- What `t` holds is held by `t'`; findings are kept in the order they were recorded. -/
structure Within (t t' : Tally) : Prop where
  entries : t.ledger.entries <+: t'.ledger.entries
  aliases : t.aliases ⊆ t'.aliases
  dropped : t.dropped ⊆ t'.dropped
  visits : t.visits ≤ t'.visits
  paths : t.paths ≤ t'.paths
  cutPaths : t.cutPaths ≤ t'.cutPaths

theorem Within.refl (t : Tally) : t.Within t :=
  ⟨List.prefix_refl _, fun _ h => h, fun _ h => h, Nat.le_refl _, Nat.le_refl _, Nat.le_refl _⟩

theorem Within.trans {t t' t'' : Tally} (h : t.Within t') (h' : t'.Within t'') : t.Within t'' where
  entries := h.entries.trans h'.entries
  aliases := fun _ hx => h'.aliases (h.aliases hx)
  dropped := fun _ hx => h'.dropped (h.dropped hx)
  visits := Nat.le_trans h.visits h'.visits
  paths := Nat.le_trans h.paths h'.paths
  cutPaths := Nat.le_trans h.cutPaths h'.cutPaths

theorem within_cut (t : Tally) (n : Nat) : t.Within (t.cut n) :=
  { Within.refl t with cutPaths := Nat.le_add_right _ _ }

theorem within_add (g : FunctionGraph) (t : Tally) (v : Visit) : t.Within (t.add g v) where
  entries := by
    rw [add_ledger]
    exact Ledger.entries_recordAll _ _ _
  aliases := fun _ h => mem_add_aliases.mpr (.inl h)
  dropped := fun _ h => mem_add_dropped.mpr (.inl h)
  visits := by
    rw [add_visits]
    exact Nat.le_succ _
  paths := by
    rw [add_paths]
    exact Nat.le_add_right _ _
  cutPaths := Nat.le_of_eq add_cutPaths.symm

end Tally

/-! ### Two budgets -/

variable {σ : Type} {g : FunctionGraph} {cfg : Config} {resolve : Resolver σ}

/-- A walk keeps what was met before it. -/
theorem within_explore (budget : Nat) (items : List Item) (t : Tally) (s : σ) {t' : Tally}
    {complete : Bool} {s' : σ}
    (h : explore g cfg resolve budget items t s = (.ok (t', complete), s')) : t.Within t' := by
  induction budget, items, t, s using explore_induct g cfg resolve with
  | nil budget t s =>
      rw [explore_nil] at h
      cases h
      exact .refl _
  | cut budget i rest t s he ih =>
      rw [explore_cut he] at h
      exact (t.within_cut 1).trans (ih h)
  | stop i j rest t s he =>
      rw [explore_stop he] at h
      cases h
      exact .refl _
  | fault budget i j rest t s e s₁ he hv =>
      rw [explore_fault he hv] at h
      exact nomatch h
  | visit budget i j rest t s v s₁ he hv ih =>
      rw [explore_visit he hv] at h
      exact (Tally.within_add g t v).trans (ih h)

/-- What is met with a budget is met with every larger one. -/
theorem explore_within_of_le (budget : Nat) (items : List Item) (t : Tally) (s : σ)
    {larger : Nat} {t₁ t₂ : Tally} {c₁ c₂ : Bool} {s₁ s₂ : σ} (hle : budget ≤ larger)
    (h₁ : explore g cfg resolve budget items t s = (.ok (t₁, c₁), s₁))
    (h₂ : explore g cfg resolve larger items t s = (.ok (t₂, c₂), s₂)) : t₁.Within t₂ := by
  induction budget, items, t, s using explore_induct g cfg resolve generalizing larger with
  | nil budget t s =>
      rw [explore_nil] at h₁ h₂
      cases h₁
      cases h₂
      exact .refl _
  | cut budget i rest t s he ih =>
      rw [explore_cut he] at h₁ h₂
      exact ih hle h₁ h₂
  | stop i j rest t s he =>
      -- the smaller budget is used up here
      rw [explore_stop he] at h₁
      cases h₁
      exact within_explore _ _ _ _ h₂
  | fault budget i j rest t s e s₁ he hv =>
      rw [explore_fault he hv] at h₁
      exact nomatch h₁
  | visit budget i j rest t s v s₁ he hv ih =>
      obtain ⟨larger, rfl⟩ := Nat.exists_eq_add_of_le' (Nat.le_trans (Nat.succ_pos _) hle)
      rw [explore_visit he hv] at h₁ h₂
      exact ih (Nat.le_of_succ_le_succ hle) h₁ h₂

/-- How far a walk comes, by the visits of a walk that is not given up. -/
theorem explore_visits (limit : Nat) (items : List Item) (t : Tally) (s : σ) {full : Tally} {s' : σ}
    (h : explore g cfg resolve limit items t s = (.ok (full, true), s')) (budget : Nat) :
    ∃ t' complete s'', explore g cfg resolve budget items t s = (.ok (t', complete), s'') ∧
      t'.visits = min full.visits (t.visits + budget) ∧
      (complete = true ↔ full.visits ≤ t.visits + budget) := by
  induction limit, items, t, s using explore_induct g cfg resolve generalizing budget with
  | nil limit t s =>
      rw [explore_nil] at h
      cases h
      refine ⟨full, true, _, explore_nil _ _ _, by omega, ?_⟩
      simp
  | cut limit i rest t s he ih =>
      rw [explore_cut he] at h
      obtain ⟨t', complete, s'', hx, hv, hc⟩ := ih h budget
      exact ⟨t', complete, s'', (explore_cut he _ _ _ _).trans hx, hv, hc⟩
  | stop i j rest t s he =>
      rw [explore_stop he] at h
      exact nomatch h
  | fault limit i j rest t s e s₁ he hv =>
      rw [explore_fault he hv] at h
      exact nomatch h
  | visit limit i j rest t s v s₁ he hv ih =>
      rw [explore_visit he hv] at h
      have hgrown := (within_explore _ _ _ _ h).visits
      rw [Tally.add_visits] at hgrown
      cases budget with
      | zero =>
          -- the budget is used up before a visit that the full walk makes
          refine ⟨t, false, s, explore_stop he _ _ _, by omega, ?_⟩
          constructor
          · exact fun hf => nomatch hf
          · intro hle
            omega
      | succ budget =>
          obtain ⟨t', complete, s'', hx, hvis, hc⟩ := ih h budget
          rw [Tally.add_visits] at hvis hc
          refine ⟨t', complete, s'', (explore_visit he hv _ _ _).trans hx, by omega, ?_⟩
          rw [hc]
          omega

/-! ### Walks of a function -/

/-- A walk at a budget of its own, as the walk of its items. -/
theorem run_eq_ok_iff {budget : Int} {s s' : σ} {o : Outcome} :
    run g { cfg with visitBudget := budget } resolve s = (.ok o, s') ↔
      ∃ t complete, explore g cfg resolve budget.toNat [start g]
        { ledger := { function := g.name } } s = (.ok (t, complete), s') ∧
        o = .ofTally g t complete := by
  rw [run, explore_visitBudget]
  constructor
  · intro h
    split at h
    case h_1 t complete s₁ hx =>
      cases h
      exact ⟨t, complete, hx, rfl⟩
    case h_2 => cases h
  · rintro ⟨t, complete, hx, rfl⟩
    rw [hx]

/-- **The law of the visit budget.**  Let a walk over the graph of an accepted function, with a budget
that loops cannot use up, make so many visits.  Then with any budget, a negative one counting as none,
the walk makes as many visits as both allow, and is complete if and only if the budget allows all.
With a larger budget nothing is lost: every finding, alias pair and released slot is there again, and
no fewer paths end or are cut; once a walk is complete, a larger budget changes nothing. -/
theorem visit_budget_law {ds : Declarations} {b : Body} {g : FunctionGraph}
    (hg : FunctionGraph.ofBody ds b = .ok g) (cfg : Config) (resolve : Resolver σ) (s : σ) :
    (∀ {limit : Int} {full : Outcome} {s' : σ}, (visitBound g cfg.loopUnroll : Int) ≤ limit →
      run g { cfg with visitBudget := limit } resolve s = (.ok full, s') →
      ∀ budget : Int, ∃ o s'',
        run g { cfg with visitBudget := budget } resolve s = (.ok o, s'') ∧
        (o.visits : Int) = min (full.visits : Int) (max budget 0) ∧
        (o.complete = true ↔ (full.visits : Int) ≤ max budget 0)) ∧
    ∀ {budget larger : Int} {o o' : Outcome} {s' s'' : σ}, budget ≤ larger →
      run g { cfg with visitBudget := budget } resolve s = (.ok o, s') →
      run g { cfg with visitBudget := larger } resolve s = (.ok o', s'') →
      o.findings ⊆ o'.findings ∧ o.summary.aliases ⊆ o'.summary.aliases ∧
        o.summary.dropped ⊆ o'.summary.dropped ∧ o.paths ≤ o'.paths ∧ o.cutPaths ≤ o'.cutPaths ∧
        (o.complete = true → o' = o) := by
  have hb := FunctionGraph.built_of_ofBody hg
  refine ⟨fun {limit full s'} hlimit hfull budget => ?_, fun {budget larger o o' s' s''} hle h h' => ?_⟩
  · obtain ⟨t, complete, hx, rfl⟩ := run_eq_ok_iff.mp hfull
    obtain rfl : complete = true := (explore_start_complete hb (by omega) hx).1
    obtain ⟨t', complete, s'', hx', hv, hc⟩ := explore_visits _ _ _ _ hx budget.toNat
    have hzero : ({ ledger := { function := g.name } } : Tally).visits = 0 := rfl
    refine ⟨_, s'', run_eq_ok_iff.mpr ⟨t', complete, hx', rfl⟩, ?_, ?_⟩
    · simp only [Outcome.ofTally]
      omega
    · simp only [Outcome.ofTally, hc]
      omega
  · obtain ⟨t, complete, hx, rfl⟩ := run_eq_ok_iff.mp h
    obtain ⟨t', complete', hx', rfl⟩ := run_eq_ok_iff.mp h'
    have hbudget : budget.toNat ≤ larger.toNat := by omega
    have hwithin := explore_within_of_le _ _ _ _ hbudget hx hx'
    refine ⟨fun f hf => ?_, hwithin.aliases, hwithin.dropped, hwithin.paths, hwithin.cutPaths, ?_⟩
    · exact Sorted.mem_sortBy.mpr (hwithin.entries.subset (Sorted.mem_sortBy.mp hf))
    · -- a complete walk is not given up, so more budget is not asked for
      intro hc
      obtain rfl : complete = true := hc
      obtain ⟨more, hmore⟩ := Nat.exists_eq_add_of_le hbudget
      have hadd := explore_add more _ _ _ _ fun t₁ s₁ h₁ => nomatch hx.symm.trans h₁
      rw [hmore, hadd] at hx'
      cases hx.symm.trans hx'
      rfl

/-- Without a limit there are five visits, after which only a path to be cut is left. -/
theorem spin_within_budget :
    FunctionGraph.ofBody .empty spin = .ok spinGraph ∧
      (∃ full, run spinGraph { visitBudget := 40 } noSummaries () = (.ok full, ()) ∧
        full.visits = 5 ∧ full.cutPaths = 1) ∧
      (∃ o s, run spinGraph { visitBudget := 5 } noSummaries () = (.ok o, s) ∧
        (o.visits : Int) = 5 ∧ o.complete = true) ∧
      (∃ o s, run spinGraph { visitBudget := 3 } noSummaries () = (.ok o, s) ∧
        (o.visits : Int) = 3 ∧ o.complete = false) ∧
      ∃ o s, run spinGraph { visitBudget := -1 } noSummaries () = (.ok o, s) ∧
        (o.visits : Int) = 0 := by
  have hg : FunctionGraph.ofBody .empty spin = .ok spinGraph := rfl
  obtain ⟨full, walked, hfive, hcut⟩ : ∃ full,
      run spinGraph { visitBudget := 40 } noSummaries () = (.ok full, ()) ∧ full.visits = 5 ∧
        full.cutPaths = 1 := ⟨_, rfl, rfl, rfl⟩
  have law := (visit_budget_law hg {} noSummaries ()).1 (by decide +kernel) walked
  rw [hfive] at law
  refine ⟨hg, ⟨full, walked, hfive, hcut⟩, ?_, ?_, ?_⟩
  · obtain ⟨o, s, h, hv, hc⟩ := law 5
    exact ⟨o, s, h, hv, hc.mpr (by decide)⟩
  · obtain ⟨o, s, h, hv, hc⟩ := law 3
    exact ⟨o, s, h, hv, Bool.eq_false_iff.mpr fun ht => absurd (hc.mp ht) (by decide)⟩
  · obtain ⟨o, s, h, hv, -⟩ := law (-1)
    exact ⟨o, s, h, hv⟩

end Walk

end Dangling
