import Dangling.Proofs.Path.Alarms

/-!
# Proofs — Path — Sources

Where releases come from.  A node is released for one of two reasons: a drop released its memory, or
the node took the fate of one that was released before.  So what holds of the node and the location
of every drop holds of all fates, and of all alarms, since an alarm tells the fate of a node.

* `Act.Spares`: an act releases nothing; `PathState.fate_apply`: it hands fates on at most.
* `PathState.Sourced`, `Progress.Sourced`: all releases that a state, or an alarm, tells of have a
  source.
* `CallSite.Frees`: a call drops a node whose memory was not released before.
* `Progress.Sourced.statement`, `CallSite.sourced_apply`: what statements and calls keep.
-/

namespace Dangling

/-- The act releases nothing. -/
def Act.Spares : Act → Prop
  | .release _ _ _ _ => False
  | _ => True

theorem Laying.spares {into named moved taken : List NodeId} {a : Act}
    (h : Laying into named moved taken a) : a.Spares := by
  cases h <;> trivial

theorem Linking.spares {pairs : List (NodeId × NodeId)} {a : Act} (h : Linking pairs a) :
    a.Spares := by
  cases h <;> trivial

/-! ### Fates -/

namespace PathState

variable {s s' : PathState} {n : NodeId} {o : NodeId} {l : Option Location}

/-- What is released has a fate that says by whom. -/
theorem exists_of_isDropped (h : s.isDropped n = true) : ∃ o l, (s.node n).fate = .dropped o l := by
  rw [isDropped, NodeState.isDropped] at h
  cases hf : (s.node n).fate with
  | dropped o l => exact ⟨o, l, rfl⟩
  | live | movedOut =>
      rw [hf] at h
      cases h

/-- **An act that releases nothing hands fates on at most.** -/
theorem fate_apply (s : PathState) {a : Act} (ha : a.Spares)
    (h : ((a.apply s).node n).fate = .dropped o l) : ∃ m, (s.node m).fate = .dropped o l := by
  have hupdate : ∀ {id : NodeId} {f : NodeState → NodeState},
      (∀ x, (f x).fate = .dropped o l → x.fate = .dropped o l) →
      ((s.update id f).node n).fate = .dropped o l → (s.node n).fate = .dropped o l := by
    intro id f hf h
    rw [node_update] at h
    split at h
    · exact hf _ h
    · exact h
  cases a with
  | own m owned => exact ⟨n, hupdate (f := fun x => { x with owned }) (fun _ hx => hx) h⟩
  | learn m v =>
      rw [Act.apply, node_setKnown?] at h
      exact ⟨n, h⟩
  | leave m =>
      refine ⟨n, hupdate (fun x hx => ?_) h⟩
      obtain ⟨owned, fate, tainted, aliases⟩ := x
      cases fate with
      | live | movedOut => cases hx
      | dropped o' l' => exact hx
  | forget m =>
      rw [Act.apply, node_forget] at h
      split at h
      · cases h
      split at h
      · exact ⟨n, h⟩
      · exact ⟨n, h⟩
  | inherit dest src =>
      rw [Act.apply, inherit, node_update] at h
      split at h
      · exact ⟨src, h⟩
      · exact ⟨n, h⟩
  | join a b =>
      rw [Act.apply, node_join] at h
      split at h <;> exact ⟨n, h⟩
  | taint m =>
      rw [Act.apply, node_taint] at h
      split at h <;> exact ⟨n, h⟩
  | release ids origin loc manual => exact ha.elim

/-- All released memory was released by a drop that `R` knows by its node and its location. -/
def Sourced (R : NodeId → Location → Prop) (s : PathState) : Prop :=
  ∀ n o l, (s.node n).fate = .dropped o l → ∃ loc, l = some loc ∧ R o loc

variable {R R' : NodeId → Location → Prop}

/-- More origins may be allowed. -/
theorem Sourced.mono (h : s.Sourced R) (hR : ∀ o loc, R o loc → R' o loc) : s.Sourced R' :=
  fun n o l hn => (h n o l hn).imp fun loc hloc => ⟨hloc.1, hR o loc hloc.2⟩

/-- By the acts: what spares fates keeps their origins. -/
theorem Sourced.course (h : s.Sourced R) (hc : Course Act.Spares s s') : s'.Sourced R :=
  hc.keeps (fun u _ ha hu _ o l hn => (u.fate_apply ha hn).elim fun m hm => hu m o l hm) h

/-- A drop adds one origin. -/
theorem Sourced.markDropped {ids : List NodeId} {origin : NodeId} {loc : Location} {manual : Bool}
    (h : s.Sourced R) (hR : R origin loc) : (s.markDropped ids origin (some loc) manual).Sourced R := by
  intro n o l hn
  rw [node_markDropped] at hn
  split at hn
  · cases hn
    exact ⟨loc, rfl, hR⟩
  · exact h n o l hn

/-- A node is released if and only if its state tells which drop it was, and if and only if it tells
where. -/
theorem Sourced.told (h : s.Sourced R) (n : NodeId) :
    (s.isDropped n = true ↔ (s.node n).fate.origin?.isSome = true) ∧
      (s.isDropped n = true ↔ (s.node n).fate.loc?.isSome = true) := by
  rw [isDropped, NodeState.isDropped]
  cases hf : (s.node n).fate with
  | live | movedOut => exact ⟨Iff.rfl, Iff.rfl⟩
  | dropped o l =>
      obtain ⟨loc, rfl, -⟩ := h n o l hf
      exact ⟨Iff.rfl, Iff.rfl⟩

end PathState

/-! ### Alarms -/

/-- In a step at `loc`, all released memory has a source and so has that of all alarms.  These are
raised at `loc`, double frees only where the step `drops` something. -/
structure Progress.Sourced (R : NodeId → Location → Prop) (loc : Location) (drops : Prop)
    (p : Progress) : Prop where
  state : p.state.Sourced R
  alarms : ∀ a ∈ p.alarms, a.loc = loc ∧ (∃ l, a.dropLoc = some l ∧ R a.origin l) ∧
    (a.kind = .doubleFree → drops)

namespace Progress.Sourced

variable {R : NodeId → Location → Prop} {loc : Location} {drops : Prop} {p : Progress}
  {t : NodeTable}

theorem on (h : p.Sourced R loc drops) {f : PathState → PathState}
    (hf : (f p.state).Sourced R) : (p.on f).Sourced R loc drops :=
  ⟨hf, h.alarms⟩

/-- An alarm about released memory tells its source. -/
theorem raise (h : p.Sourced R loc drops) {kind : Misuse} {id : NodeId}
    (hd : p.state.isDropped id = true) (hkind : kind = .doubleFree → drops) (context : String) :
    (p.raise kind id loc context).Sourced R loc drops := by
  refine ⟨h.state, fun a ha => ?_⟩
  rcases List.mem_append.mp ha with ha | ha
  · exact h.alarms a ha
  · obtain rfl := List.mem_singleton.mp ha
    obtain ⟨o, l, hfate⟩ := PathState.exists_of_isDropped hd
    obtain ⟨l, rfl, hR⟩ := h.state id o l hfate
    refine ⟨rfl, ⟨l, ?_, ?_⟩, hkind⟩
    · rw [hfate]
      rfl
    · rw [hfate]
      exact hR

/-- An alarm names the origin that the fate does. -/
theorem checkUse (h : p.Sourced R loc drops) (id : NodeId) (context : String) :
    (p.checkUse t id loc context).Sourced R loc drops := by
  rw [Progress.checkUse]
  split
  case h_2 => exact h
  case h_1 n hn =>
    have hfound : p.state.isDropped n = true ∧ p.state.isTainted n = true := by
      simpa using List.find?_some hn
    exact h.raise hfound.1 (fun hkind => by cases hkind) context

theorem useOperand (h : p.Sourced R loc drops) (context : String) (o : Operand) :
    (p.useOperand t loc context o).Sourced R loc drops := by
  rw [Progress.useOperand]
  split
  · exact h
  dsimp only
  split
  · exact h.checkUse _ _
  split
  · exact h.checkUse _ _
  split
  · exact h
  · exact h.checkUse _ _

/-- A release is a source of its own, unless the memory was released before. -/
theorem release (h : p.Sourced R loc drops) (hdrops : drops) {id : NodeId}
    (hid : p.state.isDropped id = false → R id loc) (manual : Bool) (context : String) :
    (p.release t id loc manual context).Sourced R loc drops := by
  rw [Progress.release]
  split
  case isTrue hd =>
    split
    · exact h.raise hd (fun _ => hdrops) context
    · exact h
  case isFalse hd => exact h.on (h.state.markDropped (hid (by simpa using hd)))

theorem assignThrough (h : p.Sourced R loc drops) (dest : NodeId) (r : Rvalue) :
    (p.assignThrough t loc dest r).Sourced R loc drops := by
  refine List.foldlRecOn (motive := fun q : Progress => q.Sourced R loc drops) r.operands _
    (h.checkUse dest _) fun q hq o _ => ?_
  have huse := hq.useOperand (t := t) "assignment" o
  exact huse.on (huse.state.course (course_takeMoved (fun _ _ => trivial) .refl))

/-- One case for each right-hand side. -/
theorem assignTo (ht : t.Layered) (h : p.Sourced R loc drops) (dest : NodeId) (r : Rvalue) :
    (p.assignTo t loc dest r).Sourced R loc drops := by
  refine ⟨?_, ?_⟩
  · rcases assignTo_course ht p loc dest r with hself | hcourse
    · rw [hself]
      exact h.state
    · have hover : (p.state.overwrite t dest).Sourced R :=
        h.state.course (Course.overwrite .refl fun _ _ => trivial)
      exact hover.course (hcourse.mono fun _ ha => ha.spares)
  · cases r <;> simp only [Progress.assignTo]
    case use o => exact (h.useOperand _ o).alarms
    case ref mutable target => exact (h.checkUse _ _).alarms
    case addressOf mutable target => exact h.alarms
    case aggregate items name =>
        exact (List.foldlRecOn (motive := fun q : Progress => q.Sourced R loc drops) items _ h
          fun q hq o _ => hq.useOperand _ o).alarms
    case binary op l r => exact ((h.useOperand _ l).useOperand _ r).alarms
    case unary op o => exact (h.useOperand _ o).alarms
    case cast o ty => exact (h.useOperand _ o).alarms
    case inspect what target => exact (h.checkUse _ _).alarms

/-- **A statement keeps sources**, and releases nothing. -/
theorem statement (ht : t.Layered) {st : Statement} (h : p.Sourced R st.loc drops) :
    (Progress.statement t p st).Sourced R st.loc drops := by
  rw [Progress.statement]
  cases st.kind with
  | storageLive _ | storageDead _ | nop => exact h
  | assign place r =>
      dsimp only
      rw [assign]
      dsimp only
      split
      · exact h.assignThrough _ r
      · exact h.assignTo ht _ r

end Progress.Sourced

/-! ### Calls -/

namespace CallSite

variable {R : NodeId → Location → Prop} {drops : Prop} {p : Progress} {t : NodeTable}

/-- In a state the call drops the node `o`, and its memory was not released before. -/
def Frees (t : NodeTable) (c : CallSite) (s : PathState) (o : NodeId) : Prop :=
  ∃ earlier manual later, c.released t = earlier ++ (o, manual) :: later ∧
    (earlier.foldl (fun p x => p.release t x.1 c.loc x.2 c.dropContext)
      ({ state := s } : Progress)).state.isDropped o = false

theorem sourced_use {c : CallSite} (h : p.Sourced R c.loc drops) :
    (c.use t p).Sourced R c.loc drops := by
  refine List.foldlRecOn (motive := fun q : Progress => q.Sourced R c.loc drops) _ _ h
    fun q hq x _ => ?_
  rw [useArg]
  split
  · exact hq
  split
  · exact hq.checkUse _ _
  · exact hq.useOperand _ _

/-- The releases of a call, one by one: a release frees its node in the state that the earlier ones
leave. -/
theorem sourced_drop {c : CallSite} (h : p.Sourced R c.loc drops) (hdrops : drops)
    (hfrees : ∀ o, c.Frees t p.state o → R o c.loc) : (c.drop t p).Sourced R c.loc drops := by
  rw [drop_eq]
  have hrest : ∀ (later earlier : List (NodeId × Bool)) (q : Progress),
      c.released t = earlier ++ later →
      q.state = (earlier.foldl (fun p x => p.release t x.1 c.loc x.2 c.dropContext)
        ({ state := p.state } : Progress)).state →
      q.Sourced R c.loc drops →
      (later.foldl (fun p x => p.release t x.1 c.loc x.2 c.dropContext) q).Sourced R c.loc drops := by
    intro later
    induction later with
    | nil => exact fun _ _ _ _ hq => hq
    | cons x later ih =>
        intro earlier q hreleased hstate hq
        refine ih (earlier ++ [x]) _ (by simpa using hreleased) ?_ (hq.release hdrops ?_ _ _)
        · rw [List.foldl_append, List.foldl_cons, List.foldl_nil,
            (Progress.blind_release x.1 c.loc x.2 c.dropContext).state_eq q, hstate,
            ← (Progress.blind_release x.1 c.loc x.2 c.dropContext).state_eq]
        · intro hlive
          exact hfrees x.1 ⟨earlier, x.2, later, hreleased, hstate ▸ hlive⟩
  exact hrest _ [] p rfl rfl h

/-- **A call keeps sources**, if its own releases have some. -/
theorem sourced_apply {c : CallSite} (h : p.Sourced R c.loc drops) (hdrops : drops)
    (hfrees : ∀ o, c.Frees t p.state o → R o c.loc) (destination : Place) :
    (c.apply t destination p).Sourced R c.loc drops := by
  have hdrop : (c.drop t (c.use t p)).Sourced R c.loc drops :=
    sourced_drop (sourced_use h) hdrops (by rwa [state_use])
  have hmove : ((c.drop t (c.use t p)).on (c.move t)).Sourced R c.loc drops :=
    hdrop.on (hdrop.state.course (c.course_move (fun _ _ => trivial) .refl))
  rw [apply]
  dsimp only
  split
  · exact hmove.checkUse _ _
  · refine hmove.on (hmove.state.course (Course.trans ?_
      ((c.link_course _ _).mono fun _ ha => ha.spares)))
    exact (Course.overwrite .refl fun _ _ => trivial).ownAs (fun _ _ _ => trivial) _

end CallSite

end Dangling
