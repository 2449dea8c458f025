import Dangling.Proofs.Guarded.Walk
import Dangling.Proofs.Walk.AllNames

/-!
# Proofs — Walk — Unfailing

Walks that come to an outcome, and what they pass on the way.  A walk stops short for three reasons
only: a node to be reported has no text for a name, a model counts arguments from the end, or the
resolver itself fails.  Where none of them is there, the walk has an outcome (`Walk.run_unfailing`).

The visits of a walk stay inside the graph (`Walk.Leg.InBounds`): each is of a block with a father,
goes on to blocks that its block names as successors, and passes only states whose nodes are in the
table (`Walk.Leg.OnRun.inBounds`).
-/

namespace Dangling

/-! ### What is known of callees -/

/-- No position counts from the end of the arguments. -/
def Model.Placed (m : Model) : Prop :=
  ∀ i ∈ m.drops ++ m.forgets ++ m.reconstructs ++ m.retAliases, 0 ≤ i

instance (m : Model) : Decidable m.Placed := inferInstanceAs (Decidable (∀ i ∈ _, 0 ≤ i))

/-- A model is placed.  Summaries number arguments from the first on. -/
def CalleeEffect.Placed : CalleeEffect → Prop
  | .modelled m => m.Placed
  | .summarised _ | .unknown => True

/-- Every question is answered, and no model that is told of counts arguments from the end. -/
def Resolver.Answers {σ : Type} (resolve : Resolver σ) : Prop :=
  ∀ callee s, ∃ effect, (resolve callee s).1 = .ok effect ∧ effect.Placed

theorem CallSite.isBefore_of_nonneg (c : CallSite) {i : Int} (h : 0 ≤ i) : c.isBefore i = false := by
  rw [isBefore]
  exact decide_eq_false (by omega)

/-- A model that counts from the first argument names none before it. -/
theorem CallSite.isMisplaced_of_placed {c : CallSite} (h : c.effect.Placed) (t : NodeTable)
    (destination : Place) : c.isMisplaced t destination = false := by
  rw [isMisplaced]
  cases he : c.effect with
  | unknown => rfl
  | summarised s => rfl
  | modelled m =>
      rw [he] at h
      have hbefore : ∀ i ∈ m.drops ++ m.forgets ++ m.reconstructs ++ m.retAliases,
          c.isBefore i = false := fun i hi => c.isBefore_of_nonneg (h i hi)
      have hdrops : m.drops.any c.isBefore = false :=
        List.any_eq_false.mpr fun i hi => by simp [hbefore i (by simp [hi])]
      have hjoined : (m.retAliases ++ m.reconstructs).any c.isBefore = false := by
        refine List.any_eq_false.mpr fun i hi => ?_
        rcases List.mem_append.mp hi with hi | hi <;> simp [hbefore i (by simp [hi])]
      -- so it makes no difference whether the result is stored in a node
      dsimp only
      rw [hdrops, hjoined, Bool.and_false, Bool.or_false]

/-! ### Outcomes -/

namespace Visit

variable {g : FunctionGraph} {cfg : Config}

/-- Where labels are texts, every node has a name. -/
theorem unnamed?_of_labels {t : NodeTable} (h : ∀ n, ∃ s, (t.node n).label = .text s)
    (alarms : List Alarm) : unnamed? t alarms = none := by
  refine List.find?_eq_none.mpr fun n _ => ?_
  obtain ⟨s, hs⟩ := h n
  simp [Node.labelText?, hs]

theorem named_of_labels (h : ∀ n, ∃ s, (g.nodes.node n).label = .text s) (v : Visit) :
    named g v = .ok v := by
  rw [named, unnamed?_of_labels h]

/-- The visit of a block, if every label is a text and answers are placed. -/
theorem dialogue_unfailing (h : ∀ n, ∃ s, (g.nodes.node n).label = .text s) (b : GraphBlock)
    (state : PathState) :
    (dialogue g cfg b state).Keeps (fun _ => True) (fun _ e => e.Placed) (fun _ => True)
      fun _ => False := by
  simp only [dialogue, unnamed?_of_labels h]
  split
  case h_1 callee args destination target _ _ =>
    refine .ask trivial fun e he => .ofExcept ?_
    have hsite : (⟨b.terminator.loc, callee, e, args⟩ : CallSite).effect.Placed := he
    rw [called, CallSite.isMisplaced_of_placed hsite, if_neg Bool.false_ne_true, named_of_labels h]
    exact .ok trivial
  case h_2 =>
    rw [named_of_labels h]
    exact .done trivial

end Visit

namespace Walk

variable {σ : Type} {g : FunctionGraph} {cfg : Config} {resolve : Resolver σ}

/-- By induction on the budget: answers that are placed lead to no fault. -/
theorem conversation_unfailing (h : ∀ n, ∃ s, (g.nodes.node n).label = .text s) (budget : Nat)
    (items : List Item) (t : Tally) :
    (conversation g cfg budget items t).Keeps (fun _ => True) (fun _ e => e.Placed) (fun _ => True)
      fun _ => False := by
  induction budget, items, t using conversation.induct g cfg with
  | case1 budget t =>
      rw [conversation_nil]
      exact .done trivial
  | case2 budget i rest t he ih =>
      rw [conversation_cut he]
      exact ih
  | case3 i rest t j he =>
      rw [conversation_stop he]
      exact .done trivial
  | case4 i rest t j he budget ih =>
      rw [conversation_visit he]
      exact .bind (Visit.dialogue_unfailing h _ _) fun v _ => ih v

/-- **A walk has an outcome**, if every label is a text and every callee's effect is known or known to
be unknown. -/
theorem run_unfailing (h : ∀ n, ∃ s, (g.nodes.node n).label = .text s) (hresolve : resolve.Answers)
    (cfg : Config) (s : σ) : ∃ o, (run g cfg resolve s).1 = .ok o := by
  have hkeeps : (dialogue g cfg).Keeps (fun _ => True) (fun _ e => e.Placed) (fun _ => True)
      fun _ => False :=
    .bind (conversation_unfailing h _ _ _) fun _ _ => .done trivial
  have hanswers : ∀ c t, True → True →
      Promised CalleeEffect.Placed (fun _ => False) (resolve c t).1 ∧ True := fun c t _ _ => by
    obtain ⟨effect, he, hplaced⟩ := hresolve c t
    rw [he]
    exact ⟨.ok hplaced, trivial⟩
  have hrun : Promised (fun _ => True) (fun _ => False) (run g cfg resolve s).1 := by
    rw [run_eq]
    exact (hkeeps.run hanswers trivial).1
  cases hx : (run g cfg resolve s).1 with
  | ok o => exact ⟨o, rfl⟩
  | error e =>
      rw [hx] at hrun
      exact hrun.of_error.elim

end Walk

/-! ### Deeds in bounds -/

/-- The places that a deed looks up are declared. -/
def Deed.Declared (t : NodeTable) : Deed → Prop
  | statement st => ∀ place ∈ st.places, t.declares place = true
  | finish b => ∀ place ∈ b.terminator.places, t.declares place = true
  | call site destination => site.Declared t ∧ t.declares destination = true

/-- A deed whose places are declared names nodes of the table only. -/
theorem Deed.inBounds_apply {g : FunctionGraph} (hg : g.Sealed) {p : Progress}
    (hp : p.InBounds g.nodes) {d : Deed} (hd : d.Declared g.nodes) :
    (d.apply g.nodes p).InBounds g.nodes := by
  cases d with
  | statement st => exact (Guarded.gives_statement hg.closed hp hd).holds
  | finish b => exact (Guarded.gives_plain hg hd hp).holds
  | call site destination => exact (Guarded.gives_callApply hg.closed hd.1 hp hd.2).holds

theorem GraphBlock.declared_deeds {t : NodeTable} {b : GraphBlock}
    (h : ∀ x ∈ b.places, t.declares x.2 = true) (effect : CalleeEffect) :
    ∀ d ∈ b.deeds effect, d.Declared t := by
  intro d hd
  have hterm : ∀ x ∈ b.terminator.places, t.declares x = true := fun x => declared_terminator h
  rw [deeds] at hd
  rcases List.mem_append.mp hd with hd | hd
  · obtain ⟨st, hst, rfl⟩ := List.mem_map.mp hd
    exact fun place => declared_statement h hst
  · obtain rfl := List.mem_singleton.mp hd
    split
    case h_1 hk => exact Terminator.declared_call hterm hk
    case h_2 => exact hterm

namespace Walk

variable {σ : Type} {g : FunctionGraph} {cfg : Config} {resolve : Resolver σ}

/-- A visit stays inside its graph. -/
structure Leg.InBounds (g : FunctionGraph) (leg : Leg) : Prop where
  /-- The block exists, has a father, and mentions declared places only. -/
  block : ∃ c, g.block? leg.item.block = some c ∧ leg.item.block ∈ g.loops.fathers ∧
    (∀ x ∈ c.places, g.nodes.declares x.2 = true) ∧
    ∀ x ∈ leg.visit.succs, x ∈ c.allSuccs ∧ (∃ d, g.block? x = some d) ∧ x ∈ g.loops.fathers
  /-- Before and after each deed, the state speaks of nodes of the table only. -/
  passes : ∀ done state, leg.Passes g done state → state.InBounds g.nodes
  /-- So do the alarms. -/
  progress : leg.visit.progress.InBounds g.nodes

/-- A visit of an item that is ready. -/
theorem Item.Ready.inBounds {j : Item} (hj : j.Ready g) (hg : g.Sealed) {s s' : σ} {v : Visit}
    (hv : Visit.block g cfg resolve ((g.block? j.block).getD default) j.state s = (.ok v, s'))
    (before : List Deed) (t : Tally) :
    Leg.InBounds g ⟨before, j, deedsOf g resolve j s, v, t⟩ := by
  obtain ⟨hprogress, c, hc, hsuccs⟩ := hj.visit hg hv
  refine ⟨⟨c, hc, hg.father _ c hc, hg.declared _ c hc, fun x hx => ?_⟩, fun done state hpass => ?_,
    hprogress⟩
  · obtain ⟨hmem, d, hd⟩ := hsuccs x hx
    exact ⟨hmem, ⟨d, hd⟩, hg.father _ d hd⟩
  · obtain ⟨now, rest, hdeeds, -, rfl⟩ := hpass
    dsimp only at hdeeds
    -- what the visit has done so far is part of the deeds of the block
    have hdeclared : ∀ d ∈ now, d.Declared g.nodes := fun d hd => by
      refine GraphBlock.declared_deeds (hg.declared _ c hc) (c.effect resolve s) d ?_
      have hmem : d ∈ deedsOf g resolve j s := hdeeds ▸ List.mem_append_left rest hd
      rwa [deedsOf, hc] at hmem
    have hin : (now.foldl (Deed.apply g.nodes) { state := j.state }).InBounds g.nodes :=
      List.foldlRecOn (motive := fun p : Progress => p.InBounds g.nodes) now _
        ⟨hj.state, fun a ha => absurd ha List.not_mem_nil⟩
        fun p hp d hd => d.inBounds_apply hg hp (hdeclared d hd)
    exact hin.state

/-- **Every visit stays inside the graph**, if all items to start from are ready. -/
theorem Makes.inBounds (hg : g.Sealed) {budget : Nat} {tracks : List (List Deed × Item)} {t : Tally}
    {s : σ} {leg : Leg} (h : Makes g cfg resolve budget tracks t s leg)
    (htracks : ∀ x ∈ tracks, x.2.Ready g) : leg.InBounds g := by
  induction h with
  | visit he hv => exact ((htracks _ List.mem_cons_self).enter he).inBounds hg hv _ _
  | onward he hv _ ih =>
      refine ih fun x hx => ?_
      rcases List.mem_append.mp hx with hx | hx
      · obtain ⟨k, hk, rfl⟩ := List.mem_map.mp hx
        have hj := (htracks _ List.mem_cons_self).enter he
        obtain ⟨hprogress, c, -, hsuccs⟩ := hj.visit hg hv
        exact (Guarded.gives_continuations hg hj hprogress fun x hx => (hsuccs x hx).2).holds k hk
      · exact htracks x (List.mem_cons_of_mem _ hx)
  | cut he _ ih => exact ih fun x hx => htracks x (List.mem_cons_of_mem _ hx)

/-- **Every state on a run is in bounds.** -/
theorem Leg.OnRun.inBounds (hg : g.Sealed) {s : σ} {leg : Leg} (h : leg.OnRun g cfg resolve s) :
    leg.InBounds g := by
  refine Makes.inBounds hg h fun x hx => ?_
  obtain rfl := List.mem_singleton.mp hx
  exact ready_start hg

end Walk

end Dangling
