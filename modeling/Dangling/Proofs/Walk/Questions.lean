import Dangling.Proofs.Path.Values
import Dangling.Proofs.Walk.Quiet

/-!
# Proofs — Walk — Questions

Which questions a walk asks.  A path goes where its values lead, and values do not come from callees;
so a walk asks the same questions in the same order whatever the answers are, unless it fails on the
way.

* `Walk.asked`: the questions of a walk that learns nothing.
* `Walk.dialogue_follows`: every walk of the function asks these.
* `Dialogue.Follows.run_ok`, `Dialogue.Follows.run_related`: what holds after each question holds of
  the run, for one resolver and for two.
* `Dialogue.Follows.run_agree`: resolvers that answer alike make runs that are alike, faults included.
-/

namespace Dangling

namespace Dialogue

variable {α β γ σ τ : Type}

/-- The questions of a dialogue that learns nothing from its answers. -/
def questions : Dialogue α → List String
  | done _ => []
  | fail _ => []
  | ask c k => c :: (k .unknown).questions

/-- The questions are these, in order, whatever the answers are; the dialogue may fail on the way. -/
inductive Follows : Dialogue α → List String → Prop where
  | done {a : α} : Follows (done a) []
  | fail {e : AnalysisFault} {cs : List String} : Follows (fail e) cs
  | ask {c : String} {cs : List String} {k : CalleeEffect → Dialogue α}
      (hk : ∀ e, Follows (k e) cs) : Follows (ask c k) (c :: cs)

/-- One dialogue asks what another asks that learns nothing, and their results are related; the first
may fail on the way. -/
inductive Mirrors (R : α → β → Prop) : Dialogue α → Dialogue β → Prop where
  | done {a : α} {b : β} (h : R a b) : Mirrors R (done a) (done b)
  | fail {e : AnalysisFault} {d : Dialogue β} : Mirrors R (fail e) d
  | ask {c : String} {k : CalleeEffect → Dialogue α} {k' : CalleeEffect → Dialogue β}
      (hk : ∀ e, Mirrors R (k e) (k' .unknown)) : Mirrors R (ask c k) (ask c k')

/-- Dialogues that ask alike go on asking alike. -/
theorem Mirrors.follows_bind {R : α → β → Prop} {d : Dialogue α} {d' : Dialogue β}
    (h : Mirrors R d d') {f : α → Dialogue γ} {f' : β → Dialogue γ}
    (hf : ∀ a b, R a b → (f a).Follows (f' b).questions) :
    (d.bind f).Follows (d'.bind f').questions := by
  induction h with
  | done h => exact hf _ _ h
  | fail => exact .fail
  | ask _ ih => exact .ask ih

/-- A dialogue followed by one without questions. -/
theorem Follows.bind_done {d : Dialogue α} {cs : List String} (h : d.Follows cs) (f : α → β) :
    (d.bind fun a => .done (f a)).Follows cs := by
  induction h with
  | done => exact .done
  | fail => exact .fail
  | ask _ ih => exact .ask ih

theorem questions_bind_done (d : Dialogue α) (f : α → β) :
    (d.bind fun a => .done (f a)).questions = d.questions := by
  induction d with
  | done a => rfl
  | fail e => rfl
  | ask c k ih => exact congrArg (c :: ·) (ih .unknown)

/-- The questions are as promised, if it is promised that nothing may be known. -/
theorem Keeps.questions {question : String → Prop} {answer : String → CalleeEffect → Prop}
    {result : α → Prop} {fault : AnalysisFault → Prop} {d : Dialogue α}
    (h : Keeps question answer result fault d) (hunknown : ∀ c, answer c .unknown) :
    ∀ c ∈ d.questions, question c := by
  induction h with
  | done h => exact fun c hc => nomatch hc
  | fail h => exact fun c hc => nomatch hc
  | ask hc _ ih =>
      intro c' hc'
      rcases List.mem_cons.mp hc' with rfl | hc'
      · exact hc
      · exact ih .unknown (hunknown _) c' hc'

/-! ### Runs -/

/-- Notes every question, and knows nothing. -/
def recorder : Resolver (List String) := fun callee asked => (.ok .unknown, asked ++ [callee])

/-- A resolver that writes questions down gets them in order. -/
theorem run_recorder (d : Dialogue α) (asked : List String) :
    (d.run recorder asked).2 = asked ++ d.questions := by
  induction d generalizing asked with
  | done a => exact (List.append_nil asked).symm
  | fail e => exact (List.append_nil asked).symm
  | ask c k ih =>
      rw [questions, List.append_cons]
      exact ih .unknown (asked ++ [c])

variable {resolve : Resolver σ} {resolve' : Resolver τ} {d : Dialogue α} {cs : List String}

/-- What each answer brings about, after the questions before it, the run brings about after all
questions. -/
theorem Follows.run_ok (h : d.Follows cs) {I : List String → σ → Prop}
    (hstep : ∀ before c s e s', c ∈ cs → I before s → resolve c s = (.ok e, s') →
      I (before ++ [c]) s')
    (before : List String) {s s' : σ} {a : α} (hs : I before s)
    (hrun : d.run resolve s = (.ok a, s')) : I (before ++ cs) s' := by
  induction h generalizing before s with
  | done =>
      cases hrun
      rwa [List.append_nil]
  | fail => cases hrun
  | @ask c cs k _ ih =>
      rw [run] at hrun
      cases hc : resolve c s with
      | mk answer t =>
          rw [hc] at hrun
          cases answer with
          | error e => cases hrun
          | ok e =>
              have ht := hstep before c s e t List.mem_cons_self hs hc
              rw [List.append_cons]
              exact ih e (fun b c' u e' u' hc' => hstep b c' u e' u' (List.mem_cons_of_mem _ hc')) _
                ht hrun

/-- Two computations bring the same result and related stores, or both fail. -/
inductive Related (R : σ → τ → Prop) :
    Except AnalysisFault α × σ → Except AnalysisFault α × τ → Prop where
  | ok {a : α} {s : σ} {t : τ} (h : R s t) : Related R (.ok a, s) (.ok a, t)
  | error {e e' : AnalysisFault} {s : σ} {t : τ} : Related R (.error e, s) (.error e', t)

theorem Related.imp {R R' : σ → τ → Prop} {x : Except AnalysisFault α × σ}
    {y : Except AnalysisFault α × τ} (h : Related R x y)
    (himp : ∀ a s t, x = (.ok a, s) → y = (.ok a, t) → R s t → R' s t) : Related R' x y := by
  cases h with
  | ok h => exact .ok (himp _ _ _ rfl rfl h)
  | error => exact .error

/-- Resolvers with related answers to the questions make related runs. -/
theorem Follows.run_related (h : d.Follows cs) {R : σ → τ → Prop}
    (hstep : ∀ c ∈ cs, ∀ s t, R s t → Related R (resolve c s) (resolve' c t)) {s : σ} {t : τ}
    (hst : R s t) : Related R (d.run resolve s) (d.run resolve' t) := by
  induction h generalizing s t with
  | done => exact .ok hst
  | fail => exact .error
  | @ask c cs k _ ih =>
      have hc := hstep c List.mem_cons_self s t hst
      rw [run, run]
      generalize resolve c s = x at hc
      generalize resolve' c t = y at hc
      cases hc with
      | ok h => exact ih _ (fun c' hc' => hstep c' (List.mem_cons_of_mem _ hc')) h
      | error => exact .error

/-- Resolvers with the same answers to the questions, be they faults, make runs that bring the same. -/
theorem Follows.run_agree (h : d.Follows cs) {R : σ → τ → Prop}
    (hstep : ∀ c ∈ cs, ∀ s t, R s t →
      (resolve c s).1 = (resolve' c t).1 ∧ R (resolve c s).2 (resolve' c t).2)
    {s : σ} {t : τ} (hst : R s t) :
    (d.run resolve s).1 = (d.run resolve' t).1 ∧ R (d.run resolve s).2 (d.run resolve' t).2 := by
  induction h generalizing s t with
  | done => exact ⟨rfl, hst⟩
  | fail => exact ⟨rfl, hst⟩
  | @ask c cs k _ ih =>
      obtain ⟨hanswer, hstore⟩ := hstep c List.mem_cons_self s t hst
      rw [run, run]
      cases hc : resolve c s with
      | mk x s' =>
      cases hc' : resolve' c t with
      | mk y t' =>
          rw [hc, hc'] at hanswer hstore
          obtain rfl : x = y := hanswer
          cases x with
          | ok e => exact ih e (fun c' hc' => hstep c' (List.mem_cons_of_mem _ hc')) hstore
          | error e => exact ⟨rfl, hstore⟩

/-- What each answer keeps of a store, the run keeps. -/
theorem Follows.run_store (h : d.Follows cs) {I : σ → Prop}
    (hstep : ∀ c ∈ cs, ∀ s, I s → I (resolve c s).2) {s : σ} (hs : I s) : I (d.run resolve s).2 := by
  have hsame : ∀ c ∈ cs, ∀ s t, s = t ∧ I s → (resolve c s).1 = (resolve c t).1 ∧
      (resolve c s).2 = (resolve c t).2 ∧ I (resolve c s).2 := by
    rintro c hc s _ ⟨rfl, hs⟩
    exact ⟨rfl, rfl, hstep c hc s hs⟩
  exact (h.run_agree (R := fun s t => s = t ∧ I s) hsame ⟨rfl, hs⟩).2.2

end Dialogue

/-! ### Visits -/

namespace Visit

variable {g : FunctionGraph} {cfg : Config}

/-- A visit goes where another goes that raises no alarm, with the same values. -/
structure Shadows (v v' : Visit) : Prop where
  succs : v.succs = v'.succs
  values : v.progress.state.values = v'.progress.state.values
  quiet : v'.progress.Quiet

/-- Where to go on depends on values only. -/
theorem shadows_plain {p p' : Progress} (h : p.state.values = p'.state.values) (hq : p'.Quiet)
    (t : NodeTable) (b : GraphBlock) (unwind : List BlockId) :
    (plain t b unwind p).Shadows (plain t b unwind p') := by
  have hsame : ∀ (loc : Location) (context : String) (o : Operand),
      (p.useOperand t loc context o).state.values = (p'.useOperand t loc context o).state.values :=
    fun loc context o => by simpa using h
  refine ⟨?_, ?_, quiet_plain hq t b unwind⟩
  · simp only [plain]
    split
    · rfl
    · rw [PathState.valueOf_congr (hsame _ _ _)]
      split <;> rfl
    · rfl
    · rfl
    · rw [PathState.valueOf_congr (hsame _ _ _)]
      split <;> rfl
    all_goals rfl
  · simp only [plain]
    split
    · exact h
    · rw [PathState.valueOf_congr (hsame _ _ _)]
      split <;> exact hsame _ _ _
    · simpa using h
    · dsimp only
      split <;> simpa using h
    · rw [PathState.valueOf_congr (hsame _ _ _)]
      split <;> exact hsame _ _ _
    all_goals exact h

/-- The visit of a block is mirrored by the visit that knows nothing of the callee, on an untainted
path with the same values. -/
theorem dialogue_mirrors (b : GraphBlock) {s s' : PathState} (h : s.values = s'.values)
    (hs' : s'.Untainted) : (dialogue g cfg b s).Mirrors Shadows (dialogue g cfg b s') := by
  have hvalues :
      (b.statements.foldl (Progress.statement g.nodes) { state := s }).state.values =
        (b.statements.foldl (Progress.statement g.nodes) { state := s' }).state.values :=
    Progress.values_statements h b.statements
  have hquiet : (b.statements.foldl (Progress.statement g.nodes) { state := s' }).Quiet :=
    List.foldlRecOn _ _ ⟨hs', rfl⟩ fun p hp st _ => hp.statement st
  simp only [dialogue]
  generalize b.statements.foldl (Progress.statement g.nodes) { state := s } = p at hvalues
  generalize b.statements.foldl (Progress.statement g.nodes) { state := s' } = p' at hvalues hquiet
  have hnone : unnamed? g.nodes p'.alarms = none := by
    rw [hquiet.silent]
    rfl
  rw [hnone]
  cases unnamed? g.nodes p.alarms with
  | some node => exact .fail
  | none =>
      dsimp only
      have hnamed : ∀ v v' : Visit, v.Shadows v' →
          (Dialogue.ofExcept (named g v)).Mirrors Shadows (.ofExcept (named g v')) := by
        intro v v' hv
        rw [named_of_quiet hv.quiet, named]
        split
        · exact .fail
        · exact .done hv
      split
      case h_1 callee args destination target _ _ =>
        refine .ask fun e => ?_
        rw [called]
        split
        · exact .fail
        · have hunknown : CalleeEffect.unknown.Harmless := trivial
          exact hnamed _ _ ⟨rfl, CallSite.values_apply hvalues _ _ destination,
            CallSite.quiet_apply hquiet hunknown destination⟩
      case h_2 => exact hnamed _ _ (shadows_plain hvalues hquiet g.nodes b _)

end Visit

/-! ### Walks -/

namespace Walk

variable {g : FunctionGraph} {cfg : Config}

/-- What of an item decides where its path goes. -/
def Item.course (i : Item) : BlockId × List (NodeId × Scalar) × Entries :=
  (i.block, i.state.values, i.entries)

theorem course_enter? (g : FunctionGraph) (cfg : Config) {i i' : Item}
    (h : i.course = i'.course) : (enter? g cfg i).map Item.course = (enter? g cfg i').map Item.course := by
  obtain ⟨b, s, e⟩ := i
  obtain ⟨b', s', e'⟩ := i'
  simp only [Item.course, Prod.mk.injEq] at h
  obtain ⟨rfl, hv, rfl⟩ := h
  simp only [enter?]
  split
  · split
    · rfl
    · simp [Item.course, hv]
  · simp [Item.course, hv]

/-- So do the items that continue a path. -/
theorem course_continuations {j j' : Item} {v v' : Visit} (h : j.course = j'.course)
    (hv : v.Shadows v') :
    (continuations g j v).map Item.course = (continuations g j' v').map Item.course := by
  simp only [Item.course, Prod.mk.injEq] at h
  simp [continuations, Item.course, Function.comp_def, hv.succs, hv.values, h.1, h.2.2]

/-- By induction on the budget: walks with the same values ask the same questions. -/
theorem conversation_follows (budget : Nat) (items items' : List Item) (t t' : Tally)
    (h : items.map Item.course = items'.map Item.course)
    (hitems : ∀ i ∈ items', i.state.Untainted) :
    (conversation g cfg budget items t).Follows (conversation g cfg budget items' t').questions := by
  induction budget, items, t using conversation.induct g cfg generalizing items' t' with
  | case1 budget t =>
      obtain rfl := List.map_eq_nil_iff.mp h.symm
      rw [conversation_nil, conversation_nil]
      exact .done
  | case2 budget i rest t he ih =>
      obtain ⟨i', rest', rfl, hi, hrest⟩ := List.map_eq_cons_iff.mp h.symm
      have he' : enter? g cfg i' = none := by
        have hmap := course_enter? g cfg hi
        rw [he] at hmap
        exact Option.map_eq_none_iff.mp hmap
      rw [conversation_cut he, conversation_cut he']
      exact ih rest' _ hrest.symm fun k hk => hitems k (List.mem_cons_of_mem _ hk)
  | case3 i rest t j he =>
      obtain ⟨i', rest', rfl, hi, hrest⟩ := List.map_eq_cons_iff.mp h.symm
      have hmap := course_enter? g cfg hi
      rw [he] at hmap
      obtain ⟨j', he', -⟩ := Option.map_eq_some_iff.mp hmap
      rw [conversation_stop he, conversation_stop he']
      exact .done
  | case4 i rest t j he budget ih =>
      obtain ⟨i', rest', rfl, hi, hrest⟩ := List.map_eq_cons_iff.mp h.symm
      have hmap := course_enter? g cfg hi
      rw [he] at hmap
      obtain ⟨j', he', hj⟩ := Option.map_eq_some_iff.mp hmap
      rw [conversation_visit he, conversation_visit he']
      have hj' : j'.state.Untainted := by
        rw [(enter?_eq_some he').2.1]
        exact hitems i' List.mem_cons_self
      have hblock : j'.block = j.block := congrArg (·.1) hj
      have hvalues : j.state.values = j'.state.values := (congrArg (·.2.1) hj).symm
      have hmirror : (enter g cfg j).Mirrors Visit.Shadows (enter g cfg j') := by
        rw [enter, enter, hblock]
        exact Visit.dialogue_mirrors _ hvalues hj'
      refine hmirror.follows_bind fun v v' hv => ih v _ _ ?_ ?_
      · rw [List.map_append, List.map_append, course_continuations hj.symm hv, hrest]
      · intro k hk
        rcases List.mem_append.mp hk with hk | hk
        · obtain ⟨b, -, rfl⟩ := List.mem_map.mp hk
          exact hv.quiet.untainted
        · exact hitems k (List.mem_cons_of_mem _ hk)

/-- The callees that a walk asks for if it learns nothing of them, in order. -/
def asked (g : FunctionGraph) (cfg : Config) : List String := (run g cfg Dialogue.recorder []).2

theorem asked_eq (g : FunctionGraph) (cfg : Config) : asked g cfg = (dialogue g cfg).questions := by
  rw [asked, run_eq, Dialogue.run_recorder, List.nil_append]

/-- **The questions of a walk do not depend on the answers.** -/
theorem dialogue_follows (g : FunctionGraph) (cfg : Config) :
    (dialogue g cfg).Follows (asked g cfg) := by
  rw [asked_eq, dialogue, Dialogue.questions_bind_done]
  refine (conversation_follows _ _ _ _ _ rfl fun i hi => ?_).bind_done _
  obtain rfl := List.mem_singleton.mp hi
  exact g.untainted_initialState

/-- Only callees are asked about. -/
theorem calls_of_mem_asked {c : String} (h : c ∈ asked g cfg) : g.Calls c := by
  have hquiet : (dialogue g cfg).Keeps g.Calls (fun _ e => e = .unknown) Outcome.Quiet
      fun _ => False := by
    refine dialogue_quiet ?_ (fun f c m hm => nomatch hm) g cfg
    rintro _ _ rfl
    exact trivial
  rw [asked_eq] at h
  exact hquiet.questions (fun _ => rfl) c h

end Walk

end Dangling
