import Dangling.Proofs.Analysis.Stack

/-!
# Proofs — Analysis — Lockstep

Two analyses of one function that start from different sessions and stacks.  They go in lockstep if
they agree on the functions that have the same entry (`Alike`): on those being analysed, and on the
reports there are.  Other functions that they ask for come before the entry, and what is said of them
does not depend on the session (`Determined`).

* `outside`: walked calls to functions of another entry lead to what is not being analysed and comes
  before.
* `locked_of_room`: both analyses bring the same report, or both fail.
-/

namespace Dangling.Analyzer

open Dialogue (Related)

variable {p : Program} {cfg : Config} {e f g : String} {S S₁ S₂ L L₁ L₂ : List String}
  {s s' s₁ s₂ t₁ t₂ : Session} {r : Report}

/-- The report on a function that is asked for before all others. -/
def Canonical (p : Program) (cfg : Config) (f : String) (r : Report) : Prop :=
  ∃ t, (Analyzer.new p cfg).request (nest []) f {} = (.ok r, t)

theorem Canonical.unique {r' : Report} (h : Canonical p cfg f r) (h' : Canonical p cfg f r') :
    r = r' := by
  obtain ⟨t, ht⟩ := h
  obtain ⟨t', ht'⟩ := h'
  cases ht.symm.trans ht'
  rfl

/-- The reports on functions whose entry is not in `L` are canonical. -/
def Settled (p : Program) (cfg : Config) (L : List String) (s : Session) : Prop :=
  ∀ g r, s.cache.report? g = some r → p.entry cfg g ∉ L → Canonical p cfg g r

theorem settled_empty (p : Program) (cfg : Config) (L : List String) : Settled p cfg L {} :=
  fun _ _ h => nomatch h

theorem Settled.like (h : Settled p cfg L s) (hl : s.Like s') : Settled p cfg L s' :=
  fun g r hr => h g r (hl.report g ▸ hr)

theorem Settled.cons (h : Settled p cfg L s) (f : String) : Settled p cfg (f :: L) s :=
  fun g r hr hg => h g r hr fun hm => hg (List.mem_cons_of_mem _ hm)

/-- A function that is no entry settles with its entry. -/
theorem Settled.of_cons (h : Settled p cfg (f :: L) s) (hf : p.entry cfg f ≠ f) :
    Settled p cfg L s := by
  intro g r hr hg
  refine h g r hr fun hm => ?_
  rcases List.mem_cons.mp hm with e | hm
  · exact hf (by rw [← e, Program.entry_entry])
  · exact hg hm

/-- A request for the function brings its canonical report from every session in which its entry is
not being analysed, or always fails. -/
def Determined (p : Program) (cfg : Config) (f : String) : Prop :=
  ∀ ⦃S s⦄, Orderly p cfg S s → Settled p cfg S s → Callable p cfg S f → p.entry cfg f ∉ S →
    (∀ r s', (Analyzer.new p cfg).request (nest S) f s = (.ok r, s') →
      Canonical p cfg f r ∧ Settled p cfg S s') ∧
    ∀ r, Canonical p cfg f r → ∃ s', (Analyzer.new p cfg).request (nest S) f s = (.ok r, s')

/-! ### Agreement -/

/-- Two stacks and sessions agree on the functions that have the entry `e`. -/
def Alike (p : Program) (cfg : Config) (e : String) (S₁ S₂ : List String) (s₁ s₂ : Session) : Prop :=
  ∀ g, p.entry cfg g = e → (g ∈ S₁ ↔ g ∈ S₂) ∧ s₁.cache.report? g = s₂.cache.report? g

/-- Two stacks and sessions in order that agree on the functions that have the entry `e`; reports on
functions of entries outside `L₁` and `L₂` are settled. -/
structure Parallel (p : Program) (cfg : Config) (e : String) (S₁ S₂ L₁ L₂ : List String)
    (s₁ s₂ : Session) : Prop where
  orderly₁ : Orderly p cfg S₁ s₁
  orderly₂ : Orderly p cfg S₂ s₂
  settled₁ : Settled p cfg L₁ s₁
  settled₂ : Settled p cfg L₂ s₂
  alike : Alike p cfg e S₁ S₂ s₁ s₂

theorem Parallel.like (h : Parallel p cfg e S₁ S₂ L₁ L₂ s₁ s₂) (h₁ : s₁.Like t₁) (h₂ : s₂.Like t₂) :
    Parallel p cfg e S₁ S₂ L₁ L₂ t₁ t₂ where
  orderly₁ := h.orderly₁.like h₁
  orderly₂ := h.orderly₂.like h₂
  settled₁ := h.settled₁.like h₁
  settled₂ := h.settled₂.like h₂
  alike g hg := ⟨(h.alike g hg).1, by rw [h₁.report, h₂.report, (h.alike g hg).2]⟩

theorem Parallel.push (h : Parallel p cfg e S₁ S₂ S₁ S₂ s₁ s₂) (h₁ : Enterable p cfg S₁ s₁ f)
    (h₂ : Enterable p cfg S₂ s₂ f) :
    Parallel p cfg e (f :: S₁) (f :: S₂) (f :: S₁) (f :: S₂) s₁ s₂ where
  orderly₁ := h.orderly₁.push h₁
  orderly₂ := h.orderly₂.push h₂
  settled₁ := h.settled₁.cons f
  settled₂ := h.settled₂.cons f
  alike g hg := by
    refine ⟨?_, (h.alike g hg).2⟩
    rw [List.mem_cons, List.mem_cons, (h.alike g hg).1]

theorem Settled.concluded (h : Settled p cfg L s) (hf : p.entry cfg f ∈ L)
    (hc : Concluded f r s s') : Settled p cfg L s' := by
  intro g r' hr hg
  have hne : g ≠ f := fun e => hg (e ▸ hf)
  rw [hc.report, if_neg hne] at hr
  exact h g r' hr hg

theorem Alike.concluded (h : Alike p cfg e S₁ S₂ s₁ s₂) {T₁ T₂ : List String}
    (hT : Alike p cfg e T₁ T₂ t₁ t₂) {u₁ u₂ : Session} (h₁ : Concluded f r t₁ u₁)
    (h₂ : Concluded f r t₂ u₂) : Alike p cfg e S₁ S₂ u₁ u₂ := by
  refine fun g hg => ⟨(h g hg).1, ?_⟩
  rw [h₁.report, h₂.report, (hT g hg).2]

/-! ### Calls to functions of another entry -/

/-- A walked call to a function of another entry leads down, or stays on the cycle and does not lead
back; then the caller is not led to. -/
theorem entry_cases (hw : p.WellHeaded cfg) (h : p.Walks cfg f g)
    (hne : p.entry cfg g ≠ p.entry cfg f) :
    ¬ p.Reaches g f ∨ p.Linked f g ∧ ¬ p.Led cfg f ∧ ¬ p.Leads cfg g f := by
  by_cases hr : p.Reaches g f
  · have hlink : p.Linked f g := ⟨.single h.calls, hr⟩
    have hled : ¬ p.Led cfg f := fun hled => by
      have hg := hled.leads (.single h) hlink
      rw [Program.entry_of_led hled, Program.entry_of_led hg,
        Program.head_eq_of_linked hlink] at hne
      exact hne rfl
    refine .inr ⟨hlink, hled, fun hback => hled ?_⟩
    have hfg : f ≠ g := fun e => hne (by rw [e])
    exact hw f g hfg (.single h) hback
  · exact .inl hr

/-- Neither the callee nor its entry is being analysed, and its entry comes before that of the
caller. -/
theorem outside (hw : p.WellHeaded cfg) (h : Orderly p cfg (f :: S) s) (hwalk : p.Walks cfg f g)
    (hne : p.entry cfg g ≠ p.entry cfg f) :
    g ∉ f :: S ∧ p.entry cfg g ∉ f :: S ∧ p.Below cfg (p.entry cfg g) (p.entry cfg f) := by
  have hbelow := (List.pairwise_cons.mp h.chained).1
  have hlg := p.linked_entry cfg g
  have hlf := p.linked_entry cfg f
  rcases entry_cases hw hwalk hne with hdown | ⟨hlink, hled, hback⟩
  · -- whatever is being analysed leads to the caller
    have hidle : ∀ k, p.Linked g k → k ∉ f :: S := fun k hk hm => by
      rcases List.mem_cons.mp hm with rfl | hm
      · exact hdown hk.1
      · exact hdown (hk.1.trans (hbelow k hm).1)
    refine ⟨hidle g ⟨.refl, .refl⟩, hidle _ hlg, .inl ⟨?_, fun hr => ?_⟩⟩
    · exact hlf.2.trans (.head hwalk.calls hlg.1)
    · exact hdown (hlg.1.trans (hr.trans hlf.2))
  · have hidle : ∀ k, p.Linked f k → ¬ p.Leads cfg k f → k ∉ f :: S := fun k hk hn hm => by
      rcases List.mem_cons.mp hm with rfl | hm
      · exact hn .refl
      · exact hn ((hbelow k hm).2 hk.1)
    rw [Program.entry_of_not_led hled]
    by_cases hg : p.Led cfg g
    · rw [Program.entry_of_led hg] at hlg ⊢
      have hhead : ¬ p.Leads cfg (p.head g) f := by
        rw [← Program.head_eq_of_linked hlink]
        exact hled
      refine ⟨hidle g hlink hback, hidle _ (hlink.trans hlg) hhead, .inr ⟨?_, hled, .inl ?_⟩⟩
      · exact (hlink.trans hlg).symm
      · exact p.led_head cfg g
    · rw [Program.entry_of_not_led hg]
      exact ⟨hidle g hlink hback, hidle g hlink hback,
        .inr ⟨hlink.symm, hled, .inr ⟨.single hwalk, hback⟩⟩⟩

/-- Such a call brings no report on a function of the caller's entry. -/
theorem untouched (hw : p.WellHeaded cfg) (hwalk : p.Walks cfg f g)
    (hne : p.entry cfg g ≠ p.entry cfg f) (h : Orderly p cfg (f :: S) s')
    (hgrown : Grown p cfg L g s s') {k : String} (hk : p.entry cfg k = p.entry cfg f) :
    s'.cache.report? k = s.cache.report? k := by
  cases hold : s.cache.report? k with
  | some r => exact hgrown.old k r hold
  | none =>
      cases hnew : s'.cache.report? k with
      | none => rfl
      | some r =>
          exfalso
          rcases hgrown.new k ⟨r, hnew⟩ with ⟨r', hr'⟩ | ⟨hreach, -⟩
          · exact nomatch hold.symm.trans hr'
          · have hkf : p.Linked k f := by
              have hlink := p.linked_entry cfg k
              rw [hk] at hlink
              exact hlink.trans (p.linked_entry cfg f).symm
            rcases entry_cases hw hwalk hne with hdown | ⟨-, hled, -⟩
            · exact hdown (hreach.trans hkf.1)
            · -- the caller is alone with its entry, and is being analysed
              rw [Program.entry_of_not_led hled] at hk
              rw [Program.eq_of_entry_eq hled hk, h.unkept f List.mem_cons_self] at hnew
              exact nomatch hnew

/-! ### Answers in lockstep -/

/-- Answers of two resolvers that differ in the summaries they ask for. -/
theorem related_resolver {R : Session → Session → Prop}
    (hlike : ∀ {t₁ t₂ u₁ u₂}, R t₁ t₂ → t₁.Like u₁ → t₂.Like u₂ → R u₁ u₂) {callee : String}
    {A : Step Session} {n₁ n₂ : Nesting} (hs : R s₁ s₂)
    (h : ∀ b, p.resolve callee = some b →
      Related R ((Analyzer.new p cfg).summaryWith A n₁ b.name s₁)
        ((Analyzer.new p cfg).summaryWith A n₂ b.name s₂)) :
    Related R ((Analyzer.new p cfg).resolver A n₁ f callee s₁)
      ((Analyzer.new p cfg).resolver A n₂ f callee s₂) := by
  cases hc : p.resolve callee with
  | none =>
      obtain ⟨x, hx⟩ := resolver_of_library cfg hc
      rw [hx, hx]
      exact .ok hs
  | some b =>
      rw [resolver_of_body cfg hc, resolver_of_body cfg hc]
      have hsum := h b hc
      generalize (Analyzer.new p cfg).summaryWith A n₁ b.name s₁ = x at hsum
      generalize (Analyzer.new p cfg).summaryWith A n₂ b.name s₂ = y at hsum
      cases hsum with
      | error => exact .error
      | @ok found t₁ t₂ ht =>
          cases found with
          | some sum => exact .ok ht
          | none => exact .ok (hlike ht (t₁.like_note _) (t₂.like_note _))

/-- Summaries of functions that are not being analysed come from requests. -/
theorem related_summaryWith {R : Session → Session → Prop}
    (hdepth : (p.bodies.length : Int) ≤ cfg.maxCallDepth) (h₁ : Orderly p cfg S₁ s₁)
    (h₂ : Orderly p cfg S₂ s₂) (hf₁ : f ∉ S₁) (hf₂ : f ∉ S₂) {b : Body} (hb : p.body? f = some b)
    (h : Related R ((Analyzer.new p cfg).request (nest S₁) f (asked s₁ f))
      ((Analyzer.new p cfg).request (nest S₂) f (asked s₂ f))) :
    Related R ((Analyzer.new p cfg).summaryWith (Analyzer.new p cfg).step (nest S₁) f s₁)
      ((Analyzer.new p cfg).summaryWith (Analyzer.new p cfg).step (nest S₂) f s₂) := by
  rw [summaryWith_request h₁ hdepth hf₁ hb, summaryWith_request h₂ hdepth hf₂ hb]
  generalize (Analyzer.new p cfg).request (nest S₁) f (asked s₁ f) = x at h
  generalize (Analyzer.new p cfg).request (nest S₂) f (asked s₂ f) = y at h
  cases h with
  | ok h => exact .ok h
  | error => exact .error

/-- Analyses of functions with the entry `e` above two stacks go in lockstep. -/
def Locked (p : Program) (cfg : Config) (e : String) (S₁ S₂ : List String) : Prop :=
  ∀ ⦃f s₁ s₂⦄, Parallel p cfg e S₁ S₂ S₁ S₂ s₁ s₂ → Enterable p cfg S₁ s₁ f →
    Enterable p cfg S₂ s₂ f → p.entry cfg f = e → e ∈ f :: S₁ → e ∈ f :: S₂ →
    Related (Parallel p cfg e S₁ S₂ (f :: S₁) (f :: S₂))
      ((Analyzer.new p cfg).step (nest S₁) f s₁) ((Analyzer.new p cfg).step (nest S₂) f s₂)

/-- Two requests for a function of the entry `e`, which is being analysed. -/
theorem Locked.request (hL : Locked p cfg e S₁ S₂) (h : Parallel p cfg e S₁ S₂ S₁ S₂ s₁ s₂)
    (h₁ : Callable p cfg S₁ f) (h₂ : Callable p cfg S₂ f) (hf : p.entry cfg f = e) (he₁ : e ∈ S₁)
    (he₂ : e ∈ S₂) :
    Related (Parallel p cfg e S₁ S₂ S₁ S₂) ((Analyzer.new p cfg).request (nest S₁) f s₁)
      ((Analyzer.new p cfg).request (nest S₂) f s₂) := by
  have hne : p.entry cfg f ≠ f := fun hself => h₁.idle (hself ▸ hf ▸ he₁)
  have hhead : p.head f = e := by
    rw [← Program.entry_of_led (Program.led_of_entry_ne hne), hf]
  cases hr₁ : s₁.cache.report? f with
  | some r =>
      have hr₂ : s₂.cache.report? f = some r := (h.alike f hf).2 ▸ hr₁
      rw [request_of_kept _ hr₁, request_of_kept _ hr₂]
      exact .ok h
  | none =>
      have hr₂ : s₂.cache.report? f = none := (h.alike f hf).2 ▸ hr₁
      have hm₁ : p.head f ∈ f :: S₁ := List.mem_cons_of_mem _ (hhead ▸ he₁)
      have hm₂ : p.head f ∈ f :: S₂ := List.mem_cons_of_mem _ (hhead ▸ he₂)
      rw [request_of_headed cfg hr₁ hm₁, request_of_headed cfg hr₂ hm₂]
      refine (hL h ⟨h₁, hr₁, .inl hm₁⟩ ⟨h₂, hr₂, .inl hm₂⟩ hf (List.mem_cons_of_mem _ he₁)
        (List.mem_cons_of_mem _ he₂)).imp fun _ _ _ _ _ ht => ?_
      exact ⟨ht.orderly₁, ht.orderly₂, ht.settled₁.of_cons hne, ht.settled₂.of_cons hne, ht.alike⟩

/-- Two requests of the walk of `f` for a function of another entry. -/
theorem Determined.request (hg : Determined p cfg g)
    (hdepth : (p.bodies.length : Int) ≤ cfg.maxCallDepth) (hw : p.WellHeaded cfg)
    (h : Parallel p cfg e (f :: S₁) (f :: S₂) (f :: S₁) (f :: S₂) s₁ s₂)
    (h₁ : Callable p cfg S₁ f) (h₂ : Callable p cfg S₂ f) (hf : p.entry cfg f = e)
    (hwalk : p.Walks cfg f g) (hne : p.entry cfg g ≠ p.entry cfg f) :
    Related (Parallel p cfg e (f :: S₁) (f :: S₂) (f :: S₁) (f :: S₂))
      ((Analyzer.new p cfg).request (nest (f :: S₁)) g s₁)
      ((Analyzer.new p cfg).request (nest (f :: S₂)) g s₂) := by
  obtain ⟨hg₁, he₁, -⟩ := outside hw h.orderly₁ hwalk hne
  obtain ⟨hg₂, he₂, -⟩ := outside hw h.orderly₂ hwalk hne
  have hc₁ := h₁.walks hwalk hg₁
  have hc₂ := h₂.walks hwalk hg₂
  obtain ⟨hsound₁, hall₁⟩ := hg h.orderly₁ h.settled₁ hc₁ he₁
  obtain ⟨hsound₂, hall₂⟩ := hg h.orderly₂ h.settled₂ hc₂ he₂
  cases hr₁ : (Analyzer.new p cfg).request (nest (f :: S₁)) g s₁ with
  | mk x₁ t₁ =>
      cases hr₂ : (Analyzer.new p cfg).request (nest (f :: S₂)) g s₂ with
      | mk x₂ t₂ =>
          cases x₁ with
          | error fault =>
              cases x₂ with
              | error fault' => exact .error
              | ok r =>
                  obtain ⟨t, ht⟩ := hall₁ r (hsound₂ r t₂ hr₂).1
                  exact nomatch hr₁.symm.trans ht
          | ok r =>
              obtain ⟨hcanon, hsettled₁⟩ := hsound₁ r t₁ hr₁
              obtain ⟨t, ht⟩ := hall₂ r hcanon
              cases hr₂.symm.trans ht
              have hA₁ := (steady hdepth _).request h.orderly₁ hc₁ hr₁
              have hA₂ := (steady hdepth _).request h.orderly₂ hc₂ hr₂
              refine .ok ⟨hA₁.orderly, hA₂.orderly, hsettled₁, (hsound₂ r t₂ hr₂).2, fun k hk => ?_⟩
              refine ⟨(h.alike k hk).1, ?_⟩
              rw [untouched hw hwalk hne hA₁.orderly hA₁.grown (hk.trans hf.symm),
                untouched hw hwalk hne hA₂.orderly hA₂.grown (hk.trans hf.symm), (h.alike k hk).2]

section Walk

variable {b : Body} (hL : Locked p cfg e (f :: S₁) (f :: S₂))
  (hbelow : ∀ g, p.hasBody g = true → p.Below cfg (p.entry cfg g) e → Determined p cfg g)
  (hdepth : (p.bodies.length : Int) ≤ cfg.maxCallDepth) (hw : p.WellHeaded cfg)
  (h₁ : Callable p cfg S₁ f) (h₂ : Callable p cfg S₂ f) (hf : p.entry cfg f = e)
  (he₁ : e ∈ f :: S₁) (he₂ : e ∈ f :: S₂)

include hL hbelow hdepth hw h₁ h₂ hf he₁ he₂

/-- Two answers to the walk of `f`: a function of the same entry goes in lockstep, and one of another
entry is determined. -/
theorem Locked.summaryWith
    (h : Parallel p cfg e (f :: S₁) (f :: S₂) (f :: S₁) (f :: S₂) s₁ s₂)
    (hwalk : p.Walks cfg f g) (hb : p.body? g = some b) :
    Related (Parallel p cfg e (f :: S₁) (f :: S₂) (f :: S₁) (f :: S₂))
      ((Analyzer.new p cfg).summaryWith (Analyzer.new p cfg).step (nest (f :: S₁)) g s₁)
      ((Analyzer.new p cfg).summaryWith (Analyzer.new p cfg).step (nest (f :: S₂)) g s₂) := by
  have hasked := h.like (like_asked s₁ g) (like_asked s₂ g)
  by_cases hg : p.entry cfg g = e
  · by_cases hm₁ : g ∈ f :: S₁
    · have hm₂ : g ∈ f :: S₂ := (h.alike g hg).1.mp hm₁
      rw [summaryWith_active (a := Analyzer.new p cfg) h.orderly₁ hm₁ hb,
        summaryWith_active (a := Analyzer.new p cfg) h.orderly₂ hm₂ hb]
      exact .ok (hasked.like (Session.like_note _ _) (Session.like_note _ _))
    · have hm₂ : g ∉ f :: S₂ := fun hm => hm₁ ((h.alike g hg).1.mpr hm)
      refine related_summaryWith hdepth h.orderly₁ h.orderly₂ hm₁ hm₂ hb ?_
      exact hL.request hasked (h₁.walks hwalk hm₁) (h₂.walks hwalk hm₂) hg he₁ he₂
  · have hne : p.entry cfg g ≠ p.entry cfg f := hf ▸ hg
    obtain ⟨hm₁, -, hbefore⟩ := outside hw h.orderly₁ hwalk hne
    obtain ⟨hm₂, -, -⟩ := outside hw h.orderly₂ hwalk hne
    refine related_summaryWith hdepth h.orderly₁ h.orderly₂ hm₁ hm₂ hb ?_
    exact (hbelow g hwalk.calls.hasBody_right (hf ▸ hbefore)).request hdepth hw hasked h₁ h₂ hf
      hwalk hne

/-- Two walks of `f`. -/
theorem Locked.walk (h : Parallel p cfg e (f :: S₁) (f :: S₂) (f :: S₁) (f :: S₂) s₁ s₂)
    (hb : p.body? f = some b) {gr : FunctionGraph}
    (hg : FunctionGraph.ofBody p.decls b = .ok gr) :
    Related (Parallel p cfg e (f :: S₁) (f :: S₂) (f :: S₁) (f :: S₂))
      (Walk.run gr cfg
        ((Analyzer.new p cfg).resolver (Analyzer.new p cfg).step (nest (f :: S₁)) f) s₁)
      (Walk.run gr cfg
        ((Analyzer.new p cfg).resolver (Analyzer.new p cfg).step (nest (f :: S₂)) f) s₂) := by
  rw [Walk.run_eq, Walk.run_eq]
  refine (Walk.dialogue_follows gr cfg).run_related (fun c hc t₁ t₂ ht => ?_) h
  refine related_resolver (fun hu hu₁ hu₂ => hu.like hu₁ hu₂) ht fun b' hb' => ?_
  have hwalk : p.Walks cfg f b'.name := Program.walks_of_mem_asked hb hg hc hb'
  exact hL.summaryWith hbelow hdepth hw h₁ h₂ hf he₁ he₂ ht hwalk (Program.body?_of_resolve hb')

end Walk

/-- The analyses of `f` end with the same report. -/
theorem Parallel.concluded (h : Parallel p cfg e S₁ S₂ S₁ S₂ s₁ s₂)
    (ht : Parallel p cfg e (f :: S₁) (f :: S₂) (f :: S₁) (f :: S₂) t₁ t₂)
    (hf : p.entry cfg f = e) (he₁ : e ∈ f :: S₁) (he₂ : e ∈ f :: S₂) {u₁ u₂ : Session}
    (hc₁ : Concluded f r t₁ u₁) (hc₂ : Concluded f r t₂ u₂) (ho₁ : Orderly p cfg S₁ u₁)
    (ho₂ : Orderly p cfg S₂ u₂) : Parallel p cfg e S₁ S₂ (f :: S₁) (f :: S₂) u₁ u₂ where
  orderly₁ := ho₁
  orderly₂ := ho₂
  settled₁ := ht.settled₁.concluded (hf ▸ he₁) hc₁
  settled₂ := ht.settled₂.concluded (hf ▸ he₂) hc₂
  alike := h.alike.concluded ht.alike hc₁ hc₂

/-- The induction is on how many functions are not on the first stack. -/
theorem locked_of_room (hdepth : (p.bodies.length : Int) ≤ cfg.maxCallDepth)
    (hw : p.WellHeaded cfg)
    (hbelow : ∀ g, p.hasBody g = true → p.Below cfg (p.entry cfg g) e → Determined p cfg g)
    (room : Nat) :
    ∀ S₁ S₂ : List String, p.bodies.length ≤ room + S₁.length → Locked p cfg e S₁ S₂ := by
  induction room with
  | zero =>
      intro S₁ S₂ hroom f s₁ s₂ h h₁ _ _ _ _
      have hlt := h₁.length_lt h.orderly₁
      omega
  | succ room ih =>
      intro S₁ S₂ hroom f s₁ s₂ h h₁ h₂ hf he₁ he₂
      obtain ⟨b, hb⟩ := Program.hasBody_iff.mp h₁.body
      have hpush := h.push h₁ h₂
      have hend : ∀ {r t₁ t₂ u₁ u₂},
          Parallel p cfg e (f :: S₁) (f :: S₂) (f :: S₁) (f :: S₂) t₁ t₂ →
          Concluded f r t₁ u₁ → Concluded f r t₂ u₂ →
          (Analyzer.new p cfg).step (nest S₁) f s₁ = (.ok r, u₁) →
          (Analyzer.new p cfg).step (nest S₂) f s₂ = (.ok r, u₂) →
          Parallel p cfg e S₁ S₂ (f :: S₁) (f :: S₂) u₁ u₂ := fun ht hc₁ hc₂ hr₁ hr₂ =>
        h.concluded ht hf he₁ he₂ hc₁ hc₂ (steady hdepth S₁ h.orderly₁ h₁ hr₁).orderly
          (steady hdepth S₂ h.orderly₂ h₂ hr₂).orderly
      cases hg : FunctionGraph.ofBody p.decls b with
      | error cause =>
          obtain ⟨u₁, hr₁, hc₁⟩ := h.orderly₁.step_refused h₁ hb hg
          obtain ⟨u₂, hr₂, hc₂⟩ := h.orderly₂.step_refused h₂ hb hg
          have ht := hpush.like (s₁.like_note s!"skipping {f}: {cause.message}")
            (s₂.like_note s!"skipping {f}: {cause.message}")
          rw [hr₁, hr₂]
          exact .ok (hend ht hc₁ hc₂ hr₁ hr₂)
      | ok gr =>
          have hL : Locked p cfg e (f :: S₁) (f :: S₂) :=
            ih (f :: S₁) (f :: S₂) (by rw [List.length_cons]; omega)
          have hwalk := hL.walk hbelow hdepth hw h₁.toCallable h₂.toCallable hf he₁ he₂ hpush hb hg
          generalize hrun₁ : Walk.run gr cfg _ s₁ = x at hwalk
          generalize hrun₂ : Walk.run gr cfg _ s₂ = y at hwalk
          cases hwalk with
          | error =>
              rw [h.orderly₁.step_failed h₁ hb hg hrun₁, h.orderly₂.step_failed h₂ hb hg hrun₂]
              exact .error
          | ok ht =>
              obtain ⟨u₁, hr₁, hc₁⟩ := h.orderly₁.step_walked h₁ hb hg hrun₁ ht.orderly₁
              obtain ⟨u₂, hr₂, hc₂⟩ := h.orderly₂.step_walked h₂ hb hg hrun₂ ht.orderly₂
              rw [hr₁, hr₂]
              exact .ok (hend ht hc₁ hc₂ hr₁ hr₂)

/-- **Two analyses of a function go in lockstep**, if what comes before its entry is determined. -/
theorem locked (hdepth : (p.bodies.length : Int) ≤ cfg.maxCallDepth) (hw : p.WellHeaded cfg)
    (hbelow : ∀ g, p.hasBody g = true → p.Below cfg (p.entry cfg g) e → Determined p cfg g)
    (S₁ S₂ : List String) : Locked p cfg e S₁ S₂ :=
  locked_of_room hdepth hw hbelow p.bodies.length S₁ S₂ (Nat.le_add_right _ _)

end Dangling.Analyzer
