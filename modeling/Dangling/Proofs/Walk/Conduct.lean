import Dangling.Proofs.Path.Frame
import Dangling.Proofs.Path.Released
import Dangling.Proofs.Walk.History

/-!
# Proofs — Walk — Conduct

What a deed can do, said once, act by act.  Which nodes it overwrites, takes values out of, joins and
drops is known from the deed and the node table; only how far a drop reaches depends on the classes
of the state that it finds.  So what all these acts keep, the deed keeps.

* `Deed.Does`: the acts of a deed in a state; `Deed.keeps`: what they keep, the deed keeps.
* `Deed.On`: a deed names nodes of a set only; `Deed.frame`: it leaves the other nodes alone.
* `Deed.Isolates`, `PathState.Secluded`: the nodes outside a set are kept to themselves.
-/

namespace Dangling

/-! ### Acts of a deed -/

namespace Deed

/-- The nodes that a deed overwrites. -/
def written (t : NodeTable) : Deed → List NodeId
  | statement st =>
    match st.kind with
    | .assign place _ => t.written place
    | _ => []
  | finish _ => []
  | call _ destination => t.written destination

/-- The nodes whose memory an assignment gives to the nodes that it overwrites. -/
def sources (t : NodeTable) : Deed → List NodeId
  | statement st =>
    match st.kind with
    | .assign place r =>
      if (t.lookup place).2 then []
      else r.named t (t.lookup place).1 ++ r.moved t (t.lookup place).1
    | _ => []
  | _ => []

/-- The nodes that a deed takes values out of. -/
def taken (t : NodeTable) : Deed → List NodeId
  | statement st =>
    match st.kind with
    | .assign _ r => r.taken t
    | _ => []
  | finish _ => []
  | call site _ => site.taken t

/-- The nodes that a deed drops. -/
def dropped (t : NodeTable) : Deed → List NodeId
  | statement _ => []
  | finish b =>
    match b.terminator.kind with
    | .drop place _ _ => if (t.lookup place).2 then [] else [(t.lookup place).1]
    | _ => []
  | call site _ => (site.released t).map (·.1)

/-- The pairs of nodes that a call joins. -/
def joined (t : NodeTable) : Deed → List (NodeId × NodeId)
  | call site destination =>
    if (t.lookup destination).2 then [] else site.joined t (t.lookup destination).1
  | _ => []

/-- The acts that a deed may take in a state. -/
inductive Does (t : NodeTable) (d : Deed) (u : PathState) : Act → Prop where
  | forget {n : NodeId} (hn : n ∈ d.written t) : Does t d u (.forget n)
  | own {n : NodeId} {owned : Bool} (hn : n ∈ d.written t) : Does t d u (.own n owned)
  | learn {n : NodeId} {v : Option Scalar} (hn : n ∈ d.written t) : Does t d u (.learn n v)
  | leave {n : NodeId} (hn : n ∈ d.taken t) : Does t d u (.leave n)
  | inherit {n m : NodeId} (hn : n ∈ d.written t) (hm : m ∈ d.sources t) : Does t d u (.inherit n m)
  | name {n m : NodeId} (hn : n ∈ d.written t) (hm : m ∈ d.sources t) : Does t d u (.join n m)
  | join {a b : NodeId} (h : (a, b) ∈ d.joined t) : Does t d u (.join a b)
  | taint {a b : NodeId} (h : (a, b) ∈ d.joined t) : Does t d u (.taint a)
  | release {o : NodeId} {loc : Location} {manual : Bool} (ho : o ∈ d.dropped t) :
      Does t d u (.release (Progress.dropTargets t u o) o (some loc) manual)

variable {t : NodeTable} {I : PathState → Prop}

/-- A release does what the deed does, so it keeps what each act keeps. -/
theorem keeps_release {d : Deed} (h : ∀ u a, d.Does t u a → I u → I (a.apply u)) {o : NodeId}
    (ho : o ∈ d.dropped t) {p : Progress} (hp : I p.state) (loc : Location) (manual : Bool)
    (context : String) : I (p.release t o loc manual context).state := by
  rw [Progress.release]
  split
  · split
    · exact hp
    · exact hp
  · exact h p.state (.release _ o (some loc) manual) (.release ho) hp

theorem keeps_finish {b : GraphBlock} (h : ∀ u a, (finish b).Does t u a → I u → I (a.apply u))
    {p : Progress} (hp : I p.state) : I (apply t p (finish b)).state := by
  rw [apply, Visit.plain]
  cases hk : b.terminator.kind with
  | goto _ | call _ _ _ _ _ | unreachable | resume | abort => exact hp
  | switchInt discr arms otherwise =>
      dsimp only
      split <;> exact Progress.state_useOperand p _ _ discr ▸ hp
  | ret => exact Progress.state_checkUse p _ _ _ ▸ hp
  | assert cond expected target unwind =>
      dsimp only
      split <;> exact Progress.state_useOperand p _ _ cond ▸ hp
  | drop place target unwind =>
      dsimp only
      split
      · exact Progress.state_checkUse p _ _ _ ▸ hp
      case isFalse hd =>
        rw [Progress.releaseOwned]
        split
        · refine keeps_release h ?_ hp _ _ _
          rw [dropped, hk]
          dsimp only
          rw [if_neg hd]
          exact List.mem_singleton_self _
        · exact hp

/-- The acts of an assignment, one after the other. -/
theorem keeps_statement (ht : t.Layered) {st : Statement}
    (h : ∀ u a, (statement st).Does t u a → I u → I (a.apply u)) {p : Progress} (hp : I p.state) :
    I (apply t p (statement st)).state := by
  rw [apply, Progress.statement]
  cases hk : st.kind with
  | storageLive _ | storageDead _ | nop => exact hp
  | assign place r =>
      have htaken : (statement st).taken t = r.taken t := by rw [taken, hk]
      have hwritten : (statement st).written t = t.written place := by rw [written, hk]
      dsimp only
      rw [Progress.assign]
      dsimp only
      split
      case isTrue hd =>
        rw [Progress.state_assignThrough]
        exact List.foldlRecOn (motive := I) (r.taken t) _ hp fun u hu n hn =>
          h u (.leave n) (.leave (htaken ▸ hn)) hu
      case isFalse hd =>
        rw [NodeTable.written, if_neg hd] at hwritten
        have hsources : (statement st).sources t =
            r.named t (t.lookup place).1 ++ r.moved t (t.lookup place).1 := by
          rw [sources, hk]
          exact if_neg hd
        rcases Progress.assignTo_course ht p st.loc (t.lookup place).1 r with hself | hcourse
        · rw [hself]
          exact hp
        · have hover : I (p.state.overwrite t (t.lookup place).1) :=
            List.foldlRecOn (motive := I) (t.subtree (t.lookup place).1) _ hp fun u hu n hn =>
              h u (.forget n) (.forget (hwritten ▸ hn)) hu
          refine hcourse.keeps (fun u a ha hu => h u a ?_ hu) hover
          cases ha with
          | own hn => exact .own (hwritten ▸ hn)
          | learn hn => exact .learn (hwritten ▸ hn)
          | leave hn => exact .leave (htaken ▸ hn)
          | inherit hn hm =>
              exact .inherit (hwritten ▸ hn) (hsources ▸ List.mem_append_right _ hm)
          | join hn hm => exact .name (hwritten ▸ hn) (hsources ▸ List.mem_append.mpr hm)

/-- The acts of a call, step by step. -/
theorem keeps_call {site : CallSite} {destination : Place}
    (h : ∀ u a, (call site destination).Does t u a → I u → I (a.apply u)) {p : Progress}
    (hp : I p.state) : I (apply t p (call site destination)).state := by
  have hdrop : I (site.drop t (site.use t p)).state := by
    rw [CallSite.drop_eq]
    refine List.foldlRecOn (motive := fun q : Progress => I q.state) _ _ ?_ fun q hq x hx => ?_
    · rwa [CallSite.state_use]
    · exact keeps_release h (List.mem_map_of_mem hx) hq _ _ _
  -- the acts of the later steps do not depend on the state
  have hcourse : ∀ {u u' : PathState}, I u →
      Course (fun a => ∀ u, (call site destination).Does t u a) u u' → I u' := fun hu hc =>
    hc.keeps (fun u a ha hu => h u a (ha u) hu) hu
  have hmove : I (site.move t (site.drop t (site.use t p)).state) :=
    hcourse hdrop (site.course_move (fun n hn _ => .leave hn) .refl)
  rw [apply, CallSite.apply]
  dsimp only
  split
  · rw [Progress.state_checkUse]
    exact hmove
  case isFalse hd =>
    have hwritten : (call site destination).written t = t.subtree (t.lookup destination).1 := if_neg hd
    have hjoined : (call site destination).joined t = site.joined t (t.lookup destination).1 :=
      if_neg hd
    have hstore : I (site.store t (t.lookup destination).1
        (site.move t (site.drop t (site.use t p)).state)) :=
      hcourse hmove ((Course.overwrite .refl fun n hn _ => .forget (hwritten ▸ hn)).ownAs
        (fun n hn _ _ => .own (hwritten ▸ hn)) _)
    refine hcourse hstore ((site.link_course _ _).mono fun a ha u => ?_)
    cases ha with
    | join hab => exact .join (hjoined ▸ hab)
    | taint hab => exact .taint (hjoined ▸ hab)

/-- **What the acts of a deed keep, the deed keeps.** -/
theorem keeps (ht : t.Layered) (d : Deed) (h : ∀ u a, d.Does t u a → I u → I (a.apply u))
    {p : Progress} (hp : I p.state) : I (d.apply t p).state := by
  cases d with
  | statement st => exact keeps_statement ht h hp
  | finish b => exact keeps_finish h hp
  | call site destination => exact keeps_call h hp

end Deed

/-! ### Sets of nodes -/

/-- The deed names only nodes of `C`. -/
structure Deed.On (t : NodeTable) (C : NodeId → Prop) (d : Deed) : Prop where
  written : ∀ n ∈ d.written t, C n
  sources : ∀ n ∈ d.sources t, C n
  taken : ∀ n ∈ d.taken t, C n
  dropped : ∀ n ∈ d.dropped t, C n
  joined : ∀ x ∈ d.joined t, C x.1 ∧ C x.2

/-- The deed keeps the nodes outside `C` to themselves: it neither drops one nor joins it with any
other, and it stores no memory there that has a name. -/
structure Deed.Isolates (t : NodeTable) (C : NodeId → Prop) (d : Deed) : Prop where
  dropped : ∀ n ∈ d.dropped t, C n
  joined : ∀ x ∈ d.joined t, C x.1 ∧ C x.2
  sources : ∀ m ∈ d.sources t, C m ∧ ∀ n ∈ d.written t, C n

instance (t : NodeTable) (C : NodeId → Prop) [DecidablePred C] (d : Deed) :
    Decidable (d.Isolates t C) :=
  decidable_of_iff ((∀ n ∈ d.dropped t, C n) ∧ (∀ x ∈ d.joined t, C x.1 ∧ C x.2) ∧
      ∀ m ∈ d.sources t, C m ∧ ∀ n ∈ d.written t, C n)
    ⟨fun h => ⟨h.1, h.2.1, h.2.2⟩, fun h => ⟨h.dropped, h.joined, h.sources⟩⟩

theorem Deed.On.isolates {t : NodeTable} {C : NodeId → Prop} {d : Deed} (h : d.On t C) :
    d.Isolates t C :=
  ⟨h.dropped, h.joined, fun m hm => ⟨h.sources m hm, h.written⟩⟩

/-- The set holds whole subtrees. -/
def NodeTable.Spans (t : NodeTable) (C : NodeId → Prop) : Prop :=
  ∀ n m, C n → m ∈ t.subtree n → C m

namespace PathState

variable {t : NodeTable} {C : NodeId → Prop} {s u : PathState} {d : Deed} {a : Act}

/-- A drop of a node of `C` reaches nodes of `C` only. -/
theorem Whole.of_mem_dropTargets (h : u.Whole C) (hspans : t.Spans C) {o n : NodeId} (ho : C o)
    (hn : n ∈ Progress.dropTargets t u o) : C n := by
  rcases List.mem_append.mp hn with hn | hn
  · obtain ⟨m, hm, hn⟩ := List.mem_flatMap.mp hn
    exact hspans m n (h.closed ho hm) hn
  · exact hspans o n ho hn

/-- Outside `C` all nodes are live, and each is alone in its class. -/
structure Secluded (C : NodeId → Prop) (s : PathState) : Prop where
  partitioned : s.Partitioned
  alone : ∀ n, ¬C n → s.Alone n
  live : ∀ n, ¬C n → s.isDropped n = false

theorem Secluded.whole (h : s.Secluded C) : s.Whole C := by
  refine ⟨h.partitioned, fun {n m} hn hm => Classical.byContradiction fun hc => hc ?_⟩
  rwa [← h.alone m hc n (h.partitioned.symm hm)]

/-- Nothing outside the secluded nodes has changed. -/
theorem Secluded.of_node (h : s.Secluded C) (hpart : u.Partitioned)
    (hsame : ∀ n, ¬C n → u.node n = s.node n) : u.Secluded C := by
  refine ⟨hpart, fun n hn m hm => ?_, fun n hn => ?_⟩
  · rw [aliases, hsame n hn] at hm
    exact h.alone n hn m hm
  · rw [isDropped, hsame n hn]
    exact h.live n hn

/-- A node that starts anew is alone. -/
theorem Secluded.forget (h : s.Secluded C) (id : NodeId) : (s.forget id).Secluded C := by
  refine ⟨h.partitioned.forget id, fun n hn => h.partitioned.alone_forget id (.inl (h.alone n hn)),
    fun n hn => ?_⟩
  rw [isDropped_forget]
  split
  · rfl
  · exact h.live n hn

theorem Secluded.idle (h : s.Secluded C) (ha : a.Idle) : (a.apply s).Secluded C := by
  have hagrees := s.agrees_idle ha
  refine ⟨h.partitioned.apply a, fun n hn => hagrees.alone (h.alone n hn), fun n hn => ?_⟩
  rw [hagrees.dropped]
  exact h.live n hn

/-- An act inside keeps the nodes inside to themselves. -/
theorem Secluded.on (h : s.Secluded C) (ha : a.On C) : (a.apply s).Secluded C :=
  h.of_node (h.partitioned.apply a) fun _ hn => h.whole.node_apply ha hn

end PathState

namespace Deed

variable {t : NodeTable} {C : NodeId → Prop} {u : PathState} {d : Deed} {a : Act}

/-- The acts of a deed on a set of whole classes and subtrees are acts on it. -/
theorem Does.on (h : d.Does t u a) (hd : d.On t C) (hspans : t.Spans C) (hu : u.Whole C) :
    a.On C := by
  cases h with
  | forget hn | own hn => exact hd.written _ hn
  | learn hn => trivial
  | leave hn => exact hd.taken _ hn
  | inherit hn hm => exact hd.written _ hn
  | name hn hm => exact ⟨hd.written _ hn, hd.sources _ hm⟩
  | join hab => exact hd.joined _ hab
  | taint hab => exact (hd.joined _ hab).1
  | release ho => exact fun n hn => hu.of_mem_dropTargets hspans (hd.dropped _ ho) hn

/-- **A deed on a set of whole classes leaves the other nodes alone**, and the classes whole. -/
theorem frame (ht : t.Layered) (hd : d.On t C) (hspans : t.Spans C) {p : Progress}
    (hp : p.state.Whole C) : PathState.Framed C p.state (d.apply t p).state :=
  d.keeps ht (I := PathState.Framed C p.state) (fun _ _ ha hu => hu.step (ha.on hd hspans hu.1))
    ⟨hp, fun _ _ => rfl⟩

/-- **Secluded nodes stay secluded** under deeds that isolate them. -/
theorem secluded_apply (ht : t.Layered) (hd : d.Isolates t C) (hspans : t.Spans C) {p : Progress}
    (hp : p.state.Secluded C) : (d.apply t p).state.Secluded C := by
  refine d.keeps ht (I := fun u => u.Secluded C) (fun u a ha hu => ?_) hp
  cases ha with
  | forget hn => exact hu.forget _
  | own hn => exact hu.idle .own
  | learn hn => exact hu.idle .learn
  | leave hn => exact hu.idle .leave
  | taint hab => exact hu.idle .taint
  | inherit hn hm => exact hu.on ((hd.sources _ hm).2 _ hn)
  | name hn hm => exact hu.on ⟨(hd.sources _ hm).2 _ hn, (hd.sources _ hm).1⟩
  | join hab => exact hu.on (hd.joined _ hab)
  | release ho =>
      exact hu.on fun n hn => hu.whole.of_mem_dropTargets hspans (hd.dropped _ ho) hn

end Deed

end Dangling
