import Dangling.Proofs.Path.Alarms
import Dangling.Proofs.Path.Classes
import Dangling.Proofs.Walk.Budget
import Dangling.Proofs.Walk.Quiet

/-!
# Proofs — Walk — History

What a path has done.  A path is told as a list of deeds: its statements, and the ends of its blocks,
calls among them with what was known of their callees.  The deeds alone determine the state of the
path and the alarms it raised; other paths, walked in between, have no part in it.

* `Deed`, `FunctionGraph.stateAfter`, `FunctionGraph.alarmsOn`: what deeds bring, from the entry on.
* `Deed.course_apply`: a deed writes only nodes of its footprint anew.
* `Walk.Makes`: the visits that a walk makes, each with the deeds of its path (`Walk.Leg`).
* `Walk.Makes.true_to_path`: the state of a visit, and all alarms of its path are recorded by then.
-/

namespace Dangling

/-! ### Deeds -/

/-- What a path does, one thing after the other. -/
inductive Deed where
  | statement (st : Statement)
  /-- A block ends, but not with a call. -/
  | finish (b : GraphBlock)
  | call (site : CallSite) (destination : Place)

namespace Deed

/-- The progress of a path by a deed. -/
def apply (t : NodeTable) (p : Progress) : Deed → Progress
  | statement st => Progress.statement t p st
  | finish b => (Visit.plain t b [] p).progress
  | call site destination => site.apply t destination p

/-- The nodes that a deed writes anew or takes the value out of. -/
def footprint (t : NodeTable) : Deed → List NodeId
  | statement st => st.footprint t
  | finish _ => []
  | call site destination => site.footprint t destination

/-- A scope ends that drops a node. -/
def Drops (t : NodeTable) (n : NodeId) : Deed → Prop
  | finish b => ∃ place target unwind,
      b.terminator.kind = .drop place target unwind ∧ t.lookup place = (n, false)
  | _ => False

variable {t : NodeTable}

/-- The panics that are followed have no part in the progress. -/
theorem progress_plain (b : GraphBlock) (unwind : List BlockId) (p : Progress) :
    (Visit.plain t b unwind p).progress = apply t p (finish b) := by
  rw [apply, Visit.plain, Visit.plain]
  cases b.terminator.kind with
  | assert cond expected target unwind =>
      dsimp only
      split <;> rfl
  | _ => rfl

/-- The end of a block releases at most the node that it drops, and writes none. -/
theorem course_finish (b : GraphBlock) (p : Progress) :
    Course (Act.Within []) p.state (apply t p (finish b)).state := by
  rw [apply, Visit.plain]
  cases b.terminator.kind with
  | goto _ | call _ _ _ _ _ | unreachable | resume | abort => exact .refl
  | switchInt discr arms otherwise =>
      dsimp only
      split <;> exact Progress.state_useOperand p _ _ discr ▸ .refl
  | ret => exact Progress.state_checkUse p _ _ _ ▸ .refl
  | drop place target unwind =>
      dsimp only
      split
      · exact Progress.state_checkUse p _ _ _ ▸ .refl
      · exact Progress.course_releaseOwned .refl _ _ _
  | assert cond expected target unwind =>
      dsimp only
      split <;> exact Progress.state_useOperand p _ _ cond ▸ .refl

/-- **A deed writes only nodes of its footprint anew.** -/
theorem course_apply (ht : t.Layered) (d : Deed) (p : Progress) :
    Course (Act.Within (d.footprint t)) p.state (d.apply t p).state := by
  cases d with
  | statement st => exact Progress.course_statement ht p st
  | finish b => exact course_finish b p
  | call site destination => exact site.course_apply destination p

theorem blind_apply (d : Deed) : Progress.Blind fun p => d.apply t p := by
  cases d with
  | statement st => exact Progress.blind_statement st
  | call site destination => exact site.blind_apply destination
  | finish b =>
      intro earlier p
      dsimp only
      rw [apply, apply, Visit.plain, Visit.plain]
      cases b.terminator.kind with
      | goto _ | call _ _ _ _ _ | unreachable | resume | abort => rfl
      | switchInt discr arms otherwise =>
          dsimp only
          rw [Progress.blind_useOperand, Progress.state_withPast]
          split <;> rfl
      | ret => exact Progress.blind_checkUse _ _ _ earlier p
      | drop place target unwind =>
          dsimp only
          split
          · exact Progress.blind_checkUse _ _ _ earlier p
          · exact Progress.blind_releaseOwned _ _ _ earlier p
      | assert cond expected target unwind =>
          dsimp only
          rw [Progress.blind_useOperand, Progress.state_withPast]
          split <;> rfl

end Deed

/-- The deeds of a block, given what is known of its callee. -/
def GraphBlock.deeds (b : GraphBlock) (effect : CalleeEffect) : List Deed :=
  b.statements.map .statement ++
    [match b.terminator.kind with
      | .call callee args destination _ _ =>
        .call { loc := b.terminator.loc, callee, effect, args } destination
      | _ => .finish b]

/-- What a resolver tells of the callee of a block. -/
def GraphBlock.effect {σ : Type} (resolve : Resolver σ) (s : σ) (b : GraphBlock) : CalleeEffect :=
  match b.callee? with
  | some callee => (resolve callee s).1.toOption.getD .unknown
  | none => .unknown

/-- **The progress of a visit is that of its deeds.** -/
theorem Visit.progress_block {σ : Type} {g : FunctionGraph} {cfg : Config} {resolve : Resolver σ}
    {b : GraphBlock} {state : PathState} {s s' : σ} {v : Visit}
    (h : Visit.block g cfg resolve b state s = (.ok v, s')) :
    v.progress = (b.deeds (b.effect resolve s)).foldl (Deed.apply g.nodes) { state } := by
  have hterm := Visit.block_eq_ok h
  rw [GraphBlock.deeds, List.foldl_append, List.foldl_map, List.foldl_cons, List.foldl_nil,
    GraphBlock.effect, GraphBlock.callee?]
  rw [Visit.terminator] at hterm
  cases hk : b.terminator.kind with
  | call callee args destination target unwind =>
      -- the deed tells what the resolver answered at this visit
      rw [hk] at hterm
      dsimp only at hterm ⊢
      cases hr : resolve callee s with
      | mk answer s₁ =>
          rw [hr] at hterm
          cases answer with
          | error e => cases hterm
          | ok effect =>
              dsimp only at hterm
              split at hterm
              · cases hterm
              · cases hterm
                rfl
  | _ =>
      rw [hk] at hterm
      cases hterm
      exact Deed.progress_plain b _ _

/-! ### From the entry on -/

namespace FunctionGraph

/-- The progress of a path from the entry. -/
def progressAfter (g : FunctionGraph) (deeds : List Deed) : Progress :=
  deeds.foldl (Deed.apply g.nodes) { state := g.initialState }

/-- The state of a path that has done `deeds` since the entry. -/
def stateAfter (g : FunctionGraph) (deeds : List Deed) : PathState := (g.progressAfter deeds).state

/-- The alarms of a path that has done `deeds` since the entry. -/
def alarmsOn (g : FunctionGraph) (deeds : List Deed) : List Alarm := (g.progressAfter deeds).alarms

/-- The classes of every state of a path form a partition. -/
theorem partitioned_stateAfter {g : FunctionGraph} (ht : g.nodes.Layered) (deeds : List Deed) :
    (g.stateAfter deeds).Partitioned :=
  List.foldlRecOn (motive := fun p : Progress => p.state.Partitioned) deeds _
    g.partitioned_initialState fun p hp d _ => hp.course (d.course_apply ht p)

variable (g : FunctionGraph) (done now : List Deed)

theorem progressAfter_append :
    g.progressAfter (done ++ now) =
      (now.foldl (Deed.apply g.nodes) { state := g.stateAfter done }).withPast (g.alarmsOn done) := by
  rw [progressAfter, List.foldl_append]
  exact (Progress.Blind.foldl Deed.blind_apply now).eq (g.progressAfter done)

theorem stateAfter_append :
    g.stateAfter (done ++ now) =
      (now.foldl (Deed.apply g.nodes) { state := g.stateAfter done }).state := by
  rw [stateAfter, progressAfter_append, Progress.state_withPast]

theorem alarmsOn_append :
    g.alarmsOn (done ++ now) =
      g.alarmsOn done ++ (now.foldl (Deed.apply g.nodes) { state := g.stateAfter done }).alarms := by
  rw [alarmsOn, progressAfter_append]
  rfl

end FunctionGraph

/-! ### Records -/

/-- What tells the findings of alarms apart. -/
def Alarm.key (a : Alarm) : Misuse × Int × Int := (a.kind, a.node, a.origin)

namespace Ledger

variable {l l' : Ledger} {key : Misuse × Int × Int}

theorem holds_iff : l.holds key = true ↔ ∃ f ∈ l.findings, f.key = key := by
  simp [holds, findings]

theorem holds_of_prefix (h : l.entries <+: l'.entries) (hl : l.holds key = true) :
    l'.holds key = true := by
  obtain ⟨f, hf, hk⟩ := List.any_eq_true.mp hl
  exact List.any_eq_true.mpr ⟨f, h.subset hf, hk⟩

theorem holds_record (l : Ledger) (f : Finding) : (l.record f).holds f.key = true := by
  rw [record]
  split
  · assumption
  · exact List.any_eq_true.mpr ⟨f, List.mem_append_right _ List.mem_cons_self, beq_self_eq_true _⟩

/-- Every alarm is recorded, be it by the record of one like it. -/
theorem holds_recordAll (t : NodeTable) (alarms : List Alarm) (l : Ledger) {a : Alarm}
    (ha : a ∈ alarms) : (l.recordAll t alarms).holds a.key = true := by
  induction alarms generalizing l with
  | nil => exact nomatch ha
  | cons b alarms ih =>
      rcases List.mem_cons.mp ha with rfl | ha
      · exact holds_of_prefix (entries_recordAll t _ alarms) (holds_record l (finding t l.function a))
      · exact ih _ ha

end Ledger

/-! ### Visits of a walk -/

namespace Walk

variable {σ : Type} {g : FunctionGraph} {cfg : Config} {resolve : Resolver σ}

/-- A visit of a walk: what its path had done before, the item that entered the block, the deeds of
the visit, what came of it, and all that the walk had met by then. -/
structure Leg where
  before : List Deed
  item : Item
  deeds : List Deed
  visit : Visit
  tally : Tally

/-- All that the path has done, up to the end of the visit. -/
def Leg.path (leg : Leg) : List Deed := leg.before ++ leg.deeds

/-- The deeds of a visit. -/
def deedsOf (g : FunctionGraph) (resolve : Resolver σ) (j : Item) (s : σ) : List Deed :=
  let b := (g.block? j.block).getD default
  b.deeds (b.effect resolve s)

/-- A deed of a visit is one of a block of the graph, or the visit finds no block and does nothing. -/
theorem mem_deedsOf {j : Item} {s : σ} {d : Deed} (hd : d ∈ deedsOf g resolve j s) :
    (∃ c ∈ g.blocks, d ∈ c.deeds (c.effect resolve s)) ∨ d = .finish default := by
  rw [deedsOf] at hd
  cases hc : g.block? j.block with
  | some c =>
      rw [hc] at hd
      exact .inl ⟨c, List.mem_of_find?_eq_some hc, hd⟩
  | none =>
      rw [hc] at hd
      exact .inr (List.mem_singleton.mp hd)

/-- The walk of items makes a visit.  With each item goes what its path has done. -/
inductive Makes (g : FunctionGraph) (cfg : Config) (resolve : Resolver σ) :
    (budget : Nat) → List (List Deed × Item) → Tally → σ → Leg → Prop where
  | visit {budget : Nat} {done : List Deed} {i j : Item} {rest : List (List Deed × Item)} {t : Tally}
      {s s' : σ} {v : Visit} (he : enter? g cfg i = some j)
      (hv : Visit.block g cfg resolve ((g.block? j.block).getD default) j.state s = (.ok v, s')) :
      Makes g cfg resolve (budget + 1) ((done, i) :: rest) t s
        ⟨done, j, deedsOf g resolve j s, v, t.add g v⟩
  | onward {budget : Nat} {done : List Deed} {i j : Item} {rest : List (List Deed × Item)}
      {t : Tally} {s s' : σ} {v : Visit} {leg : Leg} (he : enter? g cfg i = some j)
      (hv : Visit.block g cfg resolve ((g.block? j.block).getD default) j.state s = (.ok v, s'))
      (h : Makes g cfg resolve budget
        ((continuations g j v).map (fun k => (done ++ deedsOf g resolve j s, k)) ++ rest)
        (t.add g v) s' leg) :
      Makes g cfg resolve (budget + 1) ((done, i) :: rest) t s leg
  | cut {budget : Nat} {done : List Deed} {i : Item} {rest : List (List Deed × Item)} {t : Tally}
      {s : σ} {leg : Leg} (he : enter? g cfg i = none)
      (h : Makes g cfg resolve budget rest (t.cut 1) s leg) :
      Makes g cfg resolve budget ((done, i) :: rest) t s leg

/-- The walk of a function makes a visit. -/
def Leg.OnRun (g : FunctionGraph) (cfg : Config) (resolve : Resolver σ) (s : σ) (leg : Leg) : Prop :=
  Makes g cfg resolve cfg.visitBudget.toNat [([], start g)] { ledger := { function := g.name } } s leg

/-- What a walk has met at a visit, it has met in the end. -/
theorem Makes.within {budget : Nat} {tracks : List (List Deed × Item)} {t t' : Tally} {s s' : σ}
    {leg : Leg} {complete : Bool} (h : Makes g cfg resolve budget tracks t s leg)
    (hend : explore g cfg resolve budget (tracks.map (·.2)) t s = (.ok (t', complete), s')) :
    leg.tally.Within t' := by
  induction h with
  | visit he hv =>
      rw [List.map_cons, explore_visit he hv] at hend
      exact within_explore _ _ _ _ hend
  | onward he hv _ ih =>
      rw [List.map_cons, explore_visit he hv] at hend
      refine ih ?_
      simpa only [List.map_append, List.map_map, Function.comp_def, List.map_id'] using hend
  | cut he _ ih =>
      rw [List.map_cons, explore_cut he] at hend
      exact ih hend

/-- An item is in the state that the deeds of its path lead to, and their alarms are recorded. -/
structure Faithful (g : FunctionGraph) (t : Tally) (track : List Deed × Item) : Prop where
  state : track.2.state = g.stateAfter track.1
  recorded : ∀ a ∈ g.alarmsOn track.1, t.ledger.holds a.key = true

theorem Faithful.mono {t t' : Tally} {track : List Deed × Item} (h : Faithful g t track)
    (ht : t.Within t') : Faithful g t' track :=
  ⟨h.state, fun a ha => Ledger.holds_of_prefix ht.entries (h.recorded a ha)⟩

/-- A path after one more visit. -/
theorem Faithful.visit {t : Tally} {done : List Deed} {i j : Item} {s s' : σ} {v : Visit}
    (h : Faithful g t (done, i)) (he : enter? g cfg i = some j)
    (hv : Visit.block g cfg resolve ((g.block? j.block).getD default) j.state s = (.ok v, s')) :
    v.progress.state = g.stateAfter (done ++ deedsOf g resolve j s) ∧
      ∀ a ∈ g.alarmsOn (done ++ deedsOf g resolve j s), (t.add g v).ledger.holds a.key = true := by
  have hstate : j.state = g.stateAfter done := (enter?_eq_some he).2.1.trans h.state
  have hprogress : v.progress =
      (deedsOf g resolve j s).foldl (Deed.apply g.nodes) { state := g.stateAfter done } := by
    rw [← hstate]
    exact Visit.progress_block hv
  refine ⟨?_, fun a ha => ?_⟩
  · rw [g.stateAfter_append, hprogress]
  · rw [g.alarmsOn_append, ← hprogress] at ha
    rw [Tally.add_ledger]
    rcases List.mem_append.mp ha with ha | ha
    · exact Ledger.holds_of_prefix (Ledger.entries_recordAll _ _ _) (h.recorded a ha)
    · exact Ledger.holds_recordAll _ _ _ ha

/-- **A visit is true to its path**: it starts in the state that the deeds of its path lead to, and
when it is over, all alarms of the path are recorded. -/
theorem Makes.true_to_path {budget : Nat} {tracks : List (List Deed × Item)} {t : Tally} {s : σ}
    {leg : Leg} (h : Makes g cfg resolve budget tracks t s leg)
    (htracks : ∀ x ∈ tracks, Faithful g t x) :
    leg.item.state = g.stateAfter leg.before ∧
      ∀ a ∈ g.alarmsOn leg.path, leg.tally.ledger.holds a.key = true := by
  induction h with
  | visit he hv =>
      have hhead := htracks _ List.mem_cons_self
      exact ⟨(enter?_eq_some he).2.1.trans hhead.state, (hhead.visit he hv).2⟩
  | onward he hv _ ih =>
      refine ih fun x hx => ?_
      rcases List.mem_append.mp hx with hx | hx
      · -- the continuations of the visit
        obtain ⟨k, hk, rfl⟩ := List.mem_map.mp hx
        obtain ⟨b, -, rfl⟩ := List.mem_map.mp hk
        obtain ⟨hstate, hrecorded⟩ := (htracks _ List.mem_cons_self).visit he hv
        exact ⟨hstate, hrecorded⟩
      · exact (htracks x (List.mem_cons_of_mem _ hx)).mono (Tally.within_add g _ _)
  | cut he _ ih =>
      exact ih fun x hx => (htracks x (List.mem_cons_of_mem _ hx)).mono (Tally.within_cut _ 1)

/-- What came of a visit came of its deeds. -/
theorem Makes.progress {budget : Nat} {tracks : List (List Deed × Item)} {t : Tally} {s : σ}
    {leg : Leg} (h : Makes g cfg resolve budget tracks t s leg) :
    leg.visit.progress =
      leg.deeds.foldl (Deed.apply g.nodes) { state := leg.item.state } := by
  induction h with
  | visit he hv => exact Visit.progress_block hv
  | onward _ _ _ ih => exact ih
  | cut _ _ ih => exact ih

/-- What all deeds of all visits have in common, the deeds of a path have in common. -/
theorem Makes.forall_path {P : Deed → Prop}
    (hP : ∀ (j : Item) (s : σ), ∀ d ∈ deedsOf g resolve j s, P d) {budget : Nat}
    {tracks : List (List Deed × Item)} {t : Tally} {s : σ} {leg : Leg}
    (h : Makes g cfg resolve budget tracks t s leg) (htracks : ∀ x ∈ tracks, ∀ d ∈ x.1, P d) :
    ∀ d ∈ leg.path, P d := by
  induction h with
  | visit he hv =>
      exact List.forall_mem_append.mpr ⟨htracks _ List.mem_cons_self, hP _ _⟩
  | onward he hv _ ih =>
      refine ih fun x hx => ?_
      rcases List.mem_append.mp hx with hx | hx
      · obtain ⟨k, -, rfl⟩ := List.mem_map.mp hx
        exact List.forall_mem_append.mpr ⟨htracks _ List.mem_cons_self, hP _ _⟩
      · exact htracks x (List.mem_cons_of_mem _ hx)
  | cut he _ ih => exact ih fun x hx => htracks x (List.mem_cons_of_mem _ hx)

theorem Leg.OnRun.forall_path {P : Deed → Prop}
    (hP : ∀ (j : Item) (s : σ), ∀ d ∈ deedsOf g resolve j s, P d) {s : σ} {leg : Leg}
    (h : leg.OnRun g cfg resolve s) : ∀ d ∈ leg.path, P d := by
  refine Makes.forall_path hP h fun x hx => ?_
  obtain rfl := List.mem_singleton.mp hx
  exact fun d hd => absurd hd List.not_mem_nil

/-- **What cuts and the visits of a walk keep, the walk keeps.** -/
theorem Makes.keeps {Q : Tally → Prop} (hcut : ∀ t, Q t → Q (t.cut 1)) (budget : Nat)
    (tracks : List (List Deed × Item)) (t : Tally) (s : σ) {t' : Tally} {s' : σ} {complete : Bool}
    (hadd : ∀ leg, Makes g cfg resolve budget tracks t s leg → ∀ t, Q t → Q (t.add g leg.visit))
    (hend : explore g cfg resolve budget (tracks.map (·.2)) t s = (.ok (t', complete), s'))
    (h : Q t) : Q t' := by
  -- the induction is that of the walk, whose items are those of the tracks
  generalize hitems : tracks.map (·.2) = items at hend
  induction budget, items, t, s using explore_induct g cfg resolve generalizing tracks with
  | nil budget t s =>
      rw [explore_nil] at hend
      cases hend
      exact h
  | cut budget i rest t s he ih =>
      obtain ⟨⟨done, i⟩, rest, rfl, rfl, rfl⟩ := List.map_eq_cons_iff.mp hitems
      rw [explore_cut he] at hend
      exact ih rest (fun leg hleg => hadd leg (.cut he hleg)) (hcut t h) rfl hend
  | stop i j rest t s he =>
      rw [explore_stop he] at hend
      cases hend
      exact h
  | fault budget i j rest t s e s₁ he hv =>
      rw [explore_fault he hv] at hend
      cases hend
  | visit budget i j rest t s v s₁ he hv ih =>
      obtain ⟨⟨done, i⟩, rest, rfl, rfl, rfl⟩ := List.map_eq_cons_iff.mp hitems
      rw [explore_visit he hv] at hend
      refine ih ((continuations g j v).map (fun k => (done ++ deedsOf g resolve j s, k)) ++ rest)
        (fun leg hleg => hadd leg (.onward he hv hleg)) (hadd _ (.visit he hv) t h) ?_ hend
      simp only [List.map_append, List.map_map, Function.comp_def, List.map_id']

/-- What cuts and the visits of the walk of a function keep, holds in the end. -/
theorem Leg.OnRun.keeps {Q : Tally → Prop} {s s' : σ} {o : Outcome}
    (hrun : run g cfg resolve s = (.ok o, s')) (hcut : ∀ t, Q t → Q (t.cut 1))
    (hadd : ∀ leg, Leg.OnRun g cfg resolve s leg → ∀ t, Q t → Q (t.add g leg.visit))
    (hstart : Q { ledger := { function := g.name } }) :
    ∃ t complete, Q t ∧ o = .ofTally g t complete := by
  obtain ⟨t, complete, hend, rfl⟩ := run_eq_ok_iff.mp hrun
  exact ⟨t, complete, Makes.keeps hcut _ [([], start g)] _ s hadd hend hstart, rfl⟩

theorem faithful_start (g : FunctionGraph) : ∀ x ∈ [([], start g)],
    Faithful g { ledger := { function := g.name } } x := by
  intro x hx
  obtain rfl := List.mem_singleton.mp hx
  exact ⟨rfl, fun a ha => nomatch ha⟩

/-- **An alarm on the path of a visit is reported**: by the end of the visit it is recorded, and the
record stays to the end. -/
theorem Leg.OnRun.reported {s : σ} {leg : Leg} (h : leg.OnRun g cfg resolve s) {a : Alarm}
    (ha : a ∈ g.alarmsOn leg.path) :
    (∃ f ∈ leg.tally.ledger.findings, f.key = a.key) ∧
      ∀ o s', run g cfg resolve s = (.ok o, s') → ∃ f ∈ o.findings, f.key = a.key := by
  have hholds := (Makes.true_to_path h (faithful_start g)).2 a ha
  refine ⟨Ledger.holds_iff.mp hholds, fun o s' hrun => ?_⟩
  obtain ⟨t, complete, hend, rfl⟩ := run_eq_ok_iff.mp hrun
  exact Ledger.holds_iff.mp (Ledger.holds_of_prefix (Makes.within h hend).entries hholds)

end Walk

end Dangling
