import Dangling.Proofs.Walk.Explore

/-!
# Proofs — Walk — Pathwise

The worklist against the recursion it stands for.

`explore` keeps one list of items for all paths that are still to be continued.  `Pathwise` is the
recursion without a list of that kind: an item is cut or visited, then each of its continuations is
walked to the end, in order and from a state of its own, before anything else is turned to.  Both
meet the same events in the same order (`explore_eq_ok_iff`), as long as the resolver gives the same
answer to the same question.

What is in the summary follows from the paths alone: the visits of the recursion are those that some
path makes (`Pathwise.mem_visits`), and a path (`Walked`) knows of no other.
-/

namespace Dangling

namespace Walk

/-! ### Path by path -/

/-- What is met on the way. -/
inductive Event where
  | cut
  | visit (v : Visit)

/-- What is met, in order. -/
abbrev Events := List Event

namespace Events

/-- The visits, in order. -/
def visits : Events → List Visit
  | [] => []
  | .cut :: es => visits es
  | .visit v :: es => v :: visits es

/-- The number of cut paths. -/
def cuts : Events → Nat
  | [] => 0
  | .cut :: es => cuts es + 1
  | .visit _ :: es => cuts es

theorem mem_visits {es : Events} {v : Visit} : v ∈ es.visits ↔ .visit v ∈ es := by
  induction es with
  | nil => exact ⟨nofun, nofun⟩
  | cons e es ih => cases e <;> simp [visits, ih]

end Events

/-- The events of a walk path by path.  A path is cut at an item, or it enters the item's block; all
paths that continue it are walked to their ends before the next item is turned to. -/
inductive Pathwise (g : FunctionGraph) (cfg : Config) (effect : String → CalleeEffect) :
    List Item → Events → Prop where
  | nil : Pathwise g cfg effect [] []
  | cut {i : Item} {rest : List Item} {es : Events} (he : enter? g cfg i = none)
      (hr : Pathwise g cfg effect rest es) : Pathwise g cfg effect (i :: rest) (.cut :: es)
  | visit {i j : Item} {v : Visit} {rest : List Item} {es fs : Events}
      (he : enter? g cfg i = some j)
      (hv : Visit.block g cfg (.pure effect) ((g.block? j.block).getD default) j.state () =
        (.ok v, ()))
      (hc : Pathwise g cfg effect (continuations g j v) es)
      (hr : Pathwise g cfg effect rest fs) :
      Pathwise g cfg effect (i :: rest) (.visit v :: (es ++ fs))

variable {g : FunctionGraph} {cfg : Config} {effect : String → CalleeEffect}

theorem Pathwise.append {is js : List Item} {es fs : Events} (h : Pathwise g cfg effect is es)
    (h' : Pathwise g cfg effect js fs) : Pathwise g cfg effect (is ++ js) (es ++ fs) := by
  induction h with
  | nil => exact h'
  | cut he _ ih => exact .cut he ih
  | visit he hv hc _ _ ih =>
      rw [List.cons_append, List.cons_append, List.append_assoc]
      exact .visit he hv hc ih

theorem Pathwise.split {is js : List Item} {es : Events}
    (h : Pathwise g cfg effect (is ++ js) es) :
    ∃ es₁ es₂, es = es₁ ++ es₂ ∧ Pathwise g cfg effect is es₁ ∧ Pathwise g cfg effect js es₂ := by
  induction is generalizing es with
  | nil => exact ⟨[], es, rfl, .nil, h⟩
  | cons i is ih =>
      cases h with
      | cut he hr =>
          obtain ⟨es₁, es₂, rfl, h₁, h₂⟩ := ih hr
          exact ⟨_, es₂, rfl, .cut he h₁, h₂⟩
      | visit he hv hc hr =>
          obtain ⟨es₁, es₂, rfl, h₁, h₂⟩ := ih hr
          exact ⟨_, es₂, by rw [List.cons_append, List.append_assoc], .visit he hv hc h₁, h₂⟩

/-- The events of one of several items are among the events of all. -/
theorem Pathwise.of_mem {is : List Item} {es : Events} (h : Pathwise g cfg effect is es)
    {i : Item} (hi : i ∈ is) : ∃ fs, Pathwise g cfg effect [i] fs ∧ fs ⊆ es := by
  obtain ⟨before, after, rfl⟩ := List.append_of_mem hi
  obtain ⟨es₁, es₂, rfl, -, h₂⟩ := h.split
  have h₂ : Pathwise g cfg effect ([i] ++ after) es₂ := h₂
  obtain ⟨fs, gs, rfl, hf, -⟩ := h₂.split
  exact ⟨fs, hf, fun e he => List.mem_append_right _ (List.mem_append_left _ he)⟩

/-- There is one way to walk path by path. -/
theorem Pathwise.unique {is : List Item} {es fs : Events} (h : Pathwise g cfg effect is es)
    (h' : Pathwise g cfg effect is fs) : es = fs := by
  induction h generalizing fs with
  | nil =>
      cases h'
      rfl
  | cut he _ ih =>
      cases h' with
      | cut _ hr => rw [ih hr]
      | visit he' _ _ _ => exact nomatch he.symm.trans he'
  | visit he hv _ _ ihc ih =>
      cases h' with
      | cut he' _ => exact nomatch he'.symm.trans he
      | visit he' hv' hc' hr' =>
          obtain rfl := Option.some.inj (he.symm.trans he')
          cases hv.symm.trans hv'
          rw [ihc hc', ih hr']

/-! ### The worklist meets the same events -/

/-- Adds what an event brought. -/
def Tally.meet (g : FunctionGraph) (t : Tally) : Event → Tally
  | .cut => t.cut 1
  | .visit v => t.add g v

/-- **The worklist walks path by path.**  The walk of some items is complete if and only if the
visits met path by path fit the budget, and it brings what these events bring. -/
theorem explore_eq_ok_iff (budget : Nat) (items : List Item) (t : Tally) (u : Unit) {t' : Tally} :
    explore g cfg (.pure effect) budget items t u = (.ok (t', true), ()) ↔
      ∃ es, Pathwise g cfg effect items es ∧ es.visits.length ≤ budget ∧
        t' = es.foldl (Tally.meet g) t := by
  induction budget, items, t, u using explore_induct g cfg (.pure effect) with
  | nil budget t u =>
      rw [explore_nil]
      constructor
      · intro h
        cases h
        exact ⟨[], .nil, Nat.zero_le _, rfl⟩
      · rintro ⟨es, h, -, rfl⟩
        cases h
        rfl
  | cut budget i rest t u he ih =>
      rw [explore_cut he, ih]
      constructor
      · rintro ⟨es, h, hl, rfl⟩
        exact ⟨.cut :: es, .cut he h, hl, rfl⟩
      · rintro ⟨es, h, hl, rfl⟩
        cases h with
        | cut _ hr => exact ⟨_, hr, hl, rfl⟩
        | visit he' _ _ _ => exact nomatch he.symm.trans he'
  | stop i j rest t u he =>
      rw [explore_stop he]
      constructor
      · exact fun h => nomatch h
      · rintro ⟨es, h, hl, rfl⟩
        cases h with
        | cut he' _ => exact nomatch he'.symm.trans he
        | visit _ _ _ _ => exact absurd hl (Nat.not_succ_le_zero _)
  | fault budget i j rest t u e u' he hv =>
      rw [explore_fault he hv]
      constructor
      · exact fun h => nomatch h
      · rintro ⟨es, h, hl, rfl⟩
        cases h with
        | cut he' _ => exact nomatch he'.symm.trans he
        | visit he' hv' _ _ =>
            obtain rfl := Option.some.inj (he.symm.trans he')
            exact nomatch hv.symm.trans hv'
  | visit budget i j rest t u v u' he hv ih =>
      rw [explore_visit he hv, ih]
      constructor
      · rintro ⟨es, h, hl, rfl⟩
        obtain ⟨es₁, es₂, rfl, hc, hr⟩ := h.split
        exact ⟨_, .visit he hv hc hr, Nat.succ_le_succ hl, rfl⟩
      · rintro ⟨es, h, hl, rfl⟩
        cases h with
        | cut he' _ => exact nomatch he'.symm.trans he
        | visit he' hv' hc hr =>
            obtain rfl := Option.some.inj (he.symm.trans he')
            cases hv.symm.trans hv'
            exact ⟨_, hc.append hr, Nat.le_of_succ_le_succ hl, rfl⟩

/-! ### What events bring -/

namespace Tally

/-- What events add to a tally. -/
structure Brought (g : FunctionGraph) (t : Tally) (es : Events) (t' : Tally) : Prop where
  ledger : t'.ledger = t.ledger.recordAll g.nodes (es.visits.flatMap (·.progress.alarms))
  visits : t'.visits = t.visits + es.visits.length
  paths : t'.paths = t.paths + es.visits.countP (·.succs.isEmpty)
  cutPaths : t'.cutPaths = t.cutPaths + es.cuts
  aliases : ∀ pair, pair ∈ t'.aliases ↔
    pair ∈ t.aliases ∨ ∃ v ∈ es.visits, v.returns = true ∧ pair ∈ g.aliasPairs v.progress.state
  dropped : ∀ d, d ∈ t'.dropped ↔
    d ∈ t.dropped ∨ ∃ v ∈ es.visits, v.returns = true ∧ d ∈ g.droppedSlots v.progress.state

theorem brought_foldl (g : FunctionGraph) (es : Events) (t : Tally) :
    Brought g t es (es.foldl (meet g) t) := by
  induction es generalizing t with
  | nil => constructor <;> simp [Events.visits, Events.cuts, Ledger.recordAll]
  | cons e es ih =>
      rw [List.foldl_cons]
      have hes := ih (t.meet g e)
      cases e with
      | cut =>
          refine ⟨hes.ledger, hes.visits, hes.paths, ?_, hes.aliases, hes.dropped⟩
          rw [hes.cutPaths, meet, cut, Events.cuts]
          dsimp only
          omega
      | visit v =>
          rw [meet] at hes ⊢
          refine ⟨?_, ?_, ?_, ?_, fun pair => ?_, fun d => ?_⟩
          · rw [hes.ledger, add_ledger, Events.visits, List.flatMap_cons, Ledger.recordAll,
              Ledger.recordAll, Ledger.recordAll, List.foldl_append]
          · rw [hes.visits, add_visits, Events.visits, List.length_cons]
            omega
          · rw [hes.paths, add_paths, Events.visits, List.countP_cons]
            omega
          · rw [hes.cutPaths, add_cutPaths, Events.cuts]
          · rw [hes.aliases, mem_add_aliases, Events.visits]
            simp [or_assoc]
          · rw [hes.dropped, mem_add_dropped, Events.visits]
            simp [or_assoc]

end Tally

/-! ### The visits of all paths -/

/-- Some path of the walk makes this visit. -/
def Visited (g : FunctionGraph) (cfg : Config) (effect : String → CalleeEffect) (v : Visit) : Prop :=
  ∃ done i j, Walked g cfg (.pure effect) done i ∧ enter? g cfg i = some j ∧
    Visit.block g cfg (.pure effect) ((g.block? j.block).getD default) j.state () = (.ok v, ())

/-- What is visited path by path is visited on a path. -/
theorem Pathwise.visited {is : List Item} {es : Events} (h : Pathwise g cfg effect is es)
    (hw : ∀ i ∈ is, ∃ done, Walked g cfg (.pure effect) done i) :
    ∀ v ∈ es.visits, Visited g cfg effect v := by
  induction h with
  | nil => exact fun v hv => nomatch hv
  | cut he _ ih => exact ih fun k hk => hw k (List.mem_cons_of_mem _ hk)
  | @visit i j v rest es fs he hv _ _ ihc ih =>
      obtain ⟨done, hi⟩ := hw i List.mem_cons_self
      intro x hx
      rw [Events.mem_visits, List.mem_cons, List.mem_append, ← Events.mem_visits,
        ← Events.mem_visits] at hx
      rcases hx with hx | hx | hx
      · obtain rfl := Event.visit.inj hx
        exact ⟨done, i, j, hi, he, hv⟩
      · exact ihc (fun k hk => ⟨_, hi.step he hv hk⟩) x hx
      · exact ih (fun k hk => hw k (List.mem_cons_of_mem _ hk)) x hx

/-- What is met path by path from the item that a path comes to is met on the whole. -/
theorem met_of_walked {es : Events} (h : Pathwise g cfg effect [start g] es) {done : List BlockId}
    {i : Item} (hw : Walked g cfg (.pure effect) done i) :
    ∃ fs, Pathwise g cfg effect [i] fs ∧ fs ⊆ es := by
  induction hw with
  | start => exact ⟨es, h, fun _ he => he⟩
  | step _ he hv hk ih =>
      obtain ⟨fs, hf, hsub⟩ := ih
      cases hf with
      | cut he' _ => exact nomatch he'.symm.trans he
      | visit he' hv' hc _ =>
          obtain rfl := Option.some.inj (he.symm.trans he')
          cases hv.symm.trans hv'
          obtain ⟨gs, hg, hsub'⟩ := hc.of_mem hk
          exact ⟨gs, hg, fun e he =>
            hsub (List.mem_cons_of_mem _ (List.mem_append_left _ (hsub' he)))⟩

/-- **The visits path by path are those that some path makes.** -/
theorem Pathwise.mem_visits {es : Events} (h : Pathwise g cfg effect [start g] es) {v : Visit} :
    v ∈ es.visits ↔ Visited g cfg effect v := by
  constructor
  · refine h.visited (fun i hi => ?_) v
    obtain rfl := List.mem_singleton.mp hi
    exact ⟨[], .start⟩
  · rintro ⟨done, i, j, hw, he, hv⟩
    obtain ⟨fs, hf, hsub⟩ := met_of_walked h hw
    cases hf with
    | cut he' _ => exact nomatch he'.symm.trans he
    | visit he' hv' _ _ =>
        obtain rfl := Option.some.inj (he.symm.trans he')
        cases hv.symm.trans hv'
        exact Events.mem_visits.mpr (hsub List.mem_cons_self)

/-- **A complete walk is the walk path by path.**  For a resolver that only depends on the callee,
there is one sequence of events met path by path, and a complete walk records the alarms of its
visits in their order and counts its visits, ends of paths and cuts.  The summary holds exactly the
pairs of slots whose nodes are in one alias class, and exactly the parameters' slots whose nodes are
dropped, with their taint, where some path returns. -/
theorem complete_walk_is_pathwise {g : FunctionGraph} {cfg : Config}
    {effect : String → CalleeEffect} {o : Outcome}
    (h : run g cfg (.pure effect) () = (.ok o, ())) (hc : o.complete = true) :
    ∃ es : Events, Pathwise g cfg effect [start g] es ∧
      (∀ fs, Pathwise g cfg effect [start g] fs → fs = es) ∧
      o.findings = (Ledger.recordAll g.nodes { function := g.name }
        (es.visits.flatMap (·.progress.alarms))).findings ∧
      o.visits = es.visits.length ∧ o.paths = es.visits.countP (·.succs.isEmpty) ∧
      o.cutPaths = es.cuts ∧
      (∀ pair, pair ∈ o.summary.aliases ↔ ∃ v, Visited g cfg effect v ∧ v.returns = true ∧
        ∃ id ∈ g.slotNodes, ∃ other ∈ v.progress.state.aliases id, other ≠ id ∧
          ∃ a b, g.slot? id = some a ∧ g.slot? other = some b ∧ pair = .ofSlots a b) ∧
      ∀ d, d ∈ o.summary.dropped ↔ ∃ v, Visited g cfg effect v ∧ v.returns = true ∧
        ∃ id ∈ g.slotNodes, ∃ slot, g.slot? id = some slot ∧ 1 ≤ slot.slot ∧
          v.progress.state.isDropped id = true ∧ d = ⟨slot, v.progress.state.isTainted id⟩ := by
  rw [run] at h
  split at h
  case h_2 => exact nomatch h
  case h_1 t complete u hx =>
    cases h
    obtain rfl : complete = true := hc
    obtain ⟨es, hp, -, rfl⟩ := (explore_eq_ok_iff _ _ _ _).mp hx
    have hb := Tally.brought_foldl g es { ledger := { function := g.name } }
    refine ⟨es, hp, fun fs hf => hf.unique hp, ?_, ?_, ?_, ?_, fun pair => ?_, fun d => ?_⟩
    · exact congrArg Ledger.findings hb.ledger
    · exact hb.visits.trans (Nat.zero_add _)
    · exact hb.paths.trans (Nat.zero_add _)
    · exact hb.cutPaths.trans (Nat.zero_add _)
    · refine (hb.aliases pair).trans ?_
      simp only [List.not_mem_nil, false_or, hp.mem_visits, FunctionGraph.mem_aliasPairs]
    · refine (hb.dropped d).trans ?_
      simp only [List.not_mem_nil, false_or, hp.mem_visits, FunctionGraph.mem_droppedSlots]

/-- A function that returns a copy of its first argument and, at the choice of its third, drops its
second. -/
def fork : Body where
  name := "fork"
  argCount := 3
  locals := [{ ty := .rawPtr true Ty.int32 }, { ty := .rawPtr true Ty.int32 },
    { ty := .container .vec "Vec" [Ty.int32] }, { ty := Ty.int32 }]
  blocks :=
    [{ id := 0, statements := [⟨default, .assign { base := 0 } (.use (.copy { base := 1 }))⟩],
       terminator := ⟨default, .switchInt (.copy { base := 3 }) [(0, 1)] (some 2)⟩ },
     { id := 1, statements := [], terminator := ⟨default, .drop { base := 2 } 2 none⟩ },
     { id := 2, statements := [], terminator := ⟨default, .ret⟩ }]
  distinct := by decide

/-- Its graph. -/
def forkGraph : FunctionGraph := (FunctionGraph.ofBody .empty fork).toOption.get rfl

theorem fork_walk_is_pathwise :
    ∃ o es, run forkGraph {} (.pure fun _ => .unknown) () = (.ok o, ()) ∧ o.complete = true ∧
      Pathwise forkGraph {} (fun _ => .unknown) [start forkGraph] es ∧ es.visits.length = 4 ∧
      es.visits.countP (·.succs.isEmpty) = 2 ∧
      (⟨0, []⟩, ⟨1, []⟩) ∈ o.summary.aliases ∧
      ∃ v, Visited forkGraph {} (fun _ => .unknown) v ∧ v.returns = true ∧
        ∃ id, forkGraph.slot? id = some ⟨2, []⟩ ∧ v.progress.state.isDropped id = true := by
  have walked : run forkGraph {} (.pure fun _ => .unknown) () = (.ok _, ()) := rfl
  obtain ⟨es, hp, -, -, hv, he, -, -, hd⟩ := complete_walk_is_pathwise walked rfl
  obtain ⟨v, hw, hr, id, -, slot, hs, -, hdrop, e⟩ := (hd ⟨⟨2, []⟩, false⟩).mp (.head _)
  obtain rfl := (DroppedSlot.mk.inj e).1
  exact ⟨_, es, walked, rfl, hp, hv.symm, he.symm, .head _, v, hw, hr, id, hs, hdrop⟩

end Walk

end Dangling
