import Dangling.Proofs.Graph.FunctionGraph
import Dangling.Proofs.Path.Untainted
import Dangling.Proofs.Walk.Dialogue

/-!
# Proofs — Walk — Quiet

Walks whose callees are all harmless.  No visit raises an alarm, so nothing is recorded, no node need
have a name, and what the summary releases is not released by hand.

* `Visit.dialogue_quiet`: one block on an untainted path.
* `Walk.dialogue_quiet`: all paths.
-/

namespace Dangling

/-! ### Visits -/

/-- The callee of a block that ends with a call. -/
def GraphBlock.callee? (b : GraphBlock) : Option String :=
  match b.terminator.kind with
  | .call callee _ _ _ _ => some callee
  | _ => none

namespace Visit

variable {g : FunctionGraph} {cfg : Config}

theorem quiet_plain {p : Progress} (h : p.Quiet) (t : NodeTable) (b : GraphBlock)
    (unwind : List BlockId) : (plain t b unwind p).progress.Quiet := by
  rw [plain]
  split
  case h_1 => exact h
  case h_2 =>
    rw [Progress.useOperand_of_untainted h.untainted]
    dsimp only
    split
    · exact h
    · exact h
  case h_3 =>
    rw [Progress.checkUse_of_untainted h.untainted]
    exact h
  case h_4 =>
    split
    dsimp only
    split
    · rw [Progress.checkUse_of_untainted h.untainted]
      exact h
    · rw [Progress.releaseOwned]
      split
      · exact h.release _
      · exact h
  case h_5 =>
    rw [Progress.useOperand_of_untainted h.untainted]
    dsimp only
    split
    · exact h
    · exact h
  all_goals exact h

/-- Without alarms, no node need have a name. -/
theorem named_of_quiet {v : Visit} (h : v.progress.Quiet) : named g v = .ok v := by
  rw [named, h.silent]
  rfl

section Quiet

variable {answer : String → CalleeEffect → Prop} {fault : AnalysisFault → Prop}

/-- The visit of a block on an untainted path, if all callees are harmless; the only fault is a model
that names an argument before the first. -/
theorem dialogue_quiet (hanswer : ∀ c e, answer c e → e.Harmless)
    (hfault : ∀ f c m, answer c (.modelled m) → fault (.noArgument f c)) (b : GraphBlock)
    {state : PathState} (h : state.Untainted) :
    (dialogue g cfg b state).Keeps (b.callee? = some ·) answer (·.progress.Quiet) fault := by
  have hp : (b.statements.foldl (Progress.statement g.nodes) { state }).Quiet :=
    List.foldlRecOn _ _ ⟨h, rfl⟩ fun p hp st _ => hp.statement st
  have hnone : unnamed? g.nodes
      (b.statements.foldl (Progress.statement g.nodes) { state }).alarms = none := by
    rw [hp.silent]
    rfl
  simp only [dialogue, hnone]
  split
  case h_1 callee args destination target _ hk =>
    refine .ask (by rw [GraphBlock.callee?, hk]) fun e he => .ofExcept ?_
    rw [called]
    split
    case isTrue hm =>
      -- only a model names arguments
      cases e with
      | modelled m => exact .error (hfault _ _ m he)
      | unknown => exact absurd hm Bool.false_ne_true
      | summarised s => exact absurd hm Bool.false_ne_true
    case isFalse =>
      have hq := CallSite.quiet_apply (t := g.nodes)
        (c := { loc := b.terminator.loc, callee, effect := e, args }) hp (hanswer _ _ he) destination
      rw [named_of_quiet hq]
      exact .ok hq
  case h_2 =>
    have hq := quiet_plain hp g.nodes b (unwindsOf cfg b)
    rw [named_of_quiet hq]
    exact .done hq

end Quiet

end Visit

/-! ### Walks -/

/-- A block of the graph calls `callee`. -/
def FunctionGraph.Calls (g : FunctionGraph) (callee : String) : Prop :=
  ∃ id, ((g.block? id).getD default).callee? = some callee

/-- The callees of a function's graph are those of the function. -/
theorem FunctionGraph.Built.mem_callees {ds : Declarations} {b : Body} {g : FunctionGraph}
    (hg : FunctionGraph.Built ds b g) {c : String} (h : g.Calls c) : c ∈ b.callees := by
  obtain ⟨id, hc⟩ := h
  cases hb : g.block? id with
  | none =>
      rw [hb] at hc
      exact nomatch hc
  | some blk =>
      obtain ⟨-, -, blk, hmem, preds, rfl⟩ := hg.block?_eq_some hb
      rw [hb] at hc
      exact List.mem_filterMap.mpr ⟨blk, Sorted.mem_sortBy.mpr hmem, hc⟩

theorem FunctionGraph.untainted_initialState (g : FunctionGraph) : g.initialState.Untainted :=
  List.foldlRecOn _ _ (PathState.untainted_initial _) fun _ hs i _ => hs.ownByType i

namespace Walk

/-- Nothing is recorded, and nothing is released by hand. -/
structure Tally.Quiet (t : Tally) : Prop where
  unrecorded : t.ledger.entries = []
  unhanded : ∀ d ∈ t.dropped, d.manual = false

theorem Tally.Quiet.cut {t : Tally} (h : t.Quiet) (n : Nat) : (t.cut n).Quiet :=
  ⟨h.unrecorded, h.unhanded⟩

theorem Tally.Quiet.add {g : FunctionGraph} {t : Tally} {v : Visit} (h : t.Quiet)
    (hv : v.progress.Quiet) : (t.add g v).Quiet := by
  refine ⟨?_, fun d hd => ?_⟩
  · rw [Tally.add_ledger, hv.silent]
    exact h.unrecorded
  · rcases Tally.mem_add_dropped.mp hd with hd | ⟨-, hd⟩
    · exact h.unhanded d hd
    · obtain ⟨id, -, slot, -, -, -, rfl⟩ := FunctionGraph.mem_droppedSlots.mp hd
      exact hv.untainted.isTainted id

/-- Nothing is found, and nothing is released by hand. -/
structure Outcome.Quiet (o : Outcome) : Prop where
  unfound : o.findings = []
  unhanded : ∀ d ∈ o.summary.dropped, d.manual = false

theorem Tally.Quiet.outcome {t : Tally} (h : t.Quiet) (g : FunctionGraph) (complete : Bool) :
    (Outcome.ofTally g t complete).Quiet :=
  ⟨Sorted.sortBy_eq_nil.mpr h.unrecorded, h.unhanded⟩

variable {g : FunctionGraph} {cfg : Config} {answer : String → CalleeEffect → Prop}
  {fault : AnalysisFault → Prop}

theorem conversation_quiet (hanswer : ∀ c e, answer c e → e.Harmless)
    (hfault : ∀ f c m, answer c (.modelled m) → fault (.noArgument f c)) (budget : Nat)
    (items : List Item) (t : Tally) (hitems : ∀ i ∈ items, i.state.Untainted) (ht : t.Quiet) :
    (conversation g cfg budget items t).Keeps g.Calls answer (·.1.Quiet) fault := by
  induction budget, items, t using conversation.induct g cfg with
  | case1 budget t =>
      rw [conversation_nil]
      exact .done ht
  | case2 budget i rest t he ih =>
      rw [conversation_cut he]
      exact ih (fun k hk => hitems k (List.mem_cons_of_mem _ hk)) (ht.cut 1)
  | case3 i rest t j he =>
      rw [conversation_stop he]
      exact .done ht
  | case4 i rest t j he budget ih =>
      rw [conversation_visit he]
      have hj : j.state.Untainted := by
        rw [(enter?_eq_some he).2.1]
        exact hitems i List.mem_cons_self
      have hvisit : (enter g cfg j).Keeps _ answer (·.progress.Quiet) fault :=
        Visit.dialogue_quiet hanswer hfault _ hj
      refine .bind (hvisit.mono fun c hc => ⟨j.block, hc⟩) fun v hv => ih v ?_ (ht.add hv)
      intro k hk
      rcases List.mem_append.mp hk with hk | hk
      · obtain ⟨b, -, rfl⟩ := List.mem_map.mp hk
        exact hv.untainted
      · exact hitems k (List.mem_cons_of_mem _ hk)

/-- **A walk whose callees are harmless finds nothing.** -/
theorem dialogue_quiet (hanswer : ∀ c e, answer c e → e.Harmless)
    (hfault : ∀ f c m, answer c (.modelled m) → fault (.noArgument f c)) (g : FunctionGraph)
    (cfg : Config) : (dialogue g cfg).Keeps g.Calls answer Outcome.Quiet fault := by
  refine Dialogue.Keeps.bind (conversation_quiet hanswer hfault _ _ _ (fun i hi => ?_) ?_)
    fun t ht => .done (ht.outcome g t.2)
  · obtain rfl := List.mem_singleton.mp hi
    exact g.untainted_initialState
  · exact ⟨rfl, fun d hd => nomatch hd⟩

end Walk

end Dangling
