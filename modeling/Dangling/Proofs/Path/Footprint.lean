import Dangling.Proofs.Path.Course

/-!
# Proofs — Path — Footprint

Statements and calls are courses too, and write only nodes of their footprint anew: the nodes of
their destination, and those that moved and forgotten operands take the value out of.

* `Progress.course_statement`, `CallSite.course_apply`: the courses of a statement and of a call.
* `CallSite.released`, `CallSite.joined`: the nodes that a call releases and the pairs that it joins,
  in order.
-/

namespace Dangling

/-! ### Footprints -/

/-- An act writes only nodes of `ws` anew. -/
def Act.Within (ws : List NodeId) (a : Act) : Prop := a.rewrites ⊆ ws

theorem Act.within_of_mem {ws : List NodeId} {n : NodeId} (hn : n ∈ ws) {a : Act}
    (ha : a.rewrites = [n]) : a.Within ws := by
  rw [Act.Within, ha]
  exact List.cons_subset.mpr ⟨hn, List.nil_subset _⟩

/-- To lay a value down rewrites the destination and what is taken. -/
theorem Laying.within {into named moved taken : List NodeId} {a : Act}
    (h : Laying into named moved taken a) : a.Within (into ++ taken) := by
  cases h with
  | own hn => exact Act.within_of_mem (List.mem_append_left _ hn) rfl
  | learn => exact List.nil_subset _
  | inherit hd hs => exact Act.within_of_mem (List.mem_append_left _ hd) rfl
  | join hd hs => exact List.nil_subset _
  | leave hn => exact Act.within_of_mem (List.mem_append_right _ hn) rfl

/-- The nodes that a write to a place writes anew; through a pointer, none. -/
def NodeTable.written (t : NodeTable) (place : Place) : List NodeId :=
  if (t.lookup place).2 then [] else t.subtree (t.lookup place).1

/-- The nodes that a statement writes anew or takes the value out of. -/
def Statement.footprint (t : NodeTable) (st : Statement) : List NodeId :=
  match st.kind with
  | .assign place r => t.written place ++ r.taken t
  | _ => []

namespace Progress

variable {t : NodeTable} {A : Act → Prop} {W : List NodeId} {s₀ : PathState}

theorem course_takeMoved {s : PathState} {o : Operand} (hleave : ∀ n ∈ o.taken t, A (.leave n))
    (h : Course A s₀ s) : Course A s₀ (s.takeMoved t o) := by
  cases o with
  | copy place => exact h
  | constant value ty => exact h
  | move place =>
      simp only [PathState.takeMoved]
      split
      · exact h
      case isFalse hd =>
        rw [Operand.taken_eq rfl (by simpa using hd) rfl] at hleave
        exact h.loseOwnership hleave

/-- **A statement writes only nodes of its footprint anew.** -/
theorem course_statement (ht : t.Layered) (p : Progress) (st : Statement) :
    Course (Act.Within (st.footprint t)) p.state (Progress.statement t p st).state := by
  rw [Progress.statement, Statement.footprint]
  cases st.kind with
  | storageLive _ | storageDead _ | nop => exact .refl
  | assign place r =>
    dsimp only
    rw [assign, NodeTable.written]
    dsimp only
    split
    case isTrue hd =>
      -- through a pointer: only the moved operands are touched
      rw [assignThrough]
      refine List.foldlRecOn (motive := fun q : Progress => Course _ p.state q.state) r.operands _ ?_
        fun q hq o ho => ?_
      · rw [state_checkUse]
        exact .refl
      · rw [state_on, state_useOperand]
        refine course_takeMoved (fun n hn => Act.within_of_mem ?_ rfl) hq
        exact List.mem_flatMap.mpr ⟨o, ho, hn⟩
    case isFalse hd =>
      rcases assignTo_course ht p st.loc (t.lookup place).1 r with hself | hcourse
      · rw [hself]
        exact .refl
      · refine Course.trans (.overwrite .refl fun n hn => ?_) (hcourse.mono fun a ha => ha.within)
        exact Act.within_of_mem (List.mem_append_left _ hn) rfl

/-- A release marks, or raises an alarm and does nothing. -/
theorem course_release {p : Progress} (h : Course (Act.Within W) s₀ p.state) (id : NodeId)
    (loc : Location) (manual : Bool) (context : String) :
    Course (Act.Within W) s₀ (p.release t id loc manual context).state := by
  rw [release]
  split
  · split
    · exact h
    · exact h
  · exact h.step (.release _ id (some loc) manual) (List.nil_subset _)

theorem course_releaseOwned {p : Progress} (h : Course (Act.Within W) s₀ p.state) (id : NodeId)
    (loc : Location) (context : String) :
    Course (Act.Within W) s₀ (p.releaseOwned t id loc context).state := by
  rw [releaseOwned]
  split
  · exact course_release h id loc false context
  · exact h

end Progress

/-! ### Calls -/

/-- The acts that join pairs of nodes and taint what was joined. -/
inductive Linking (pairs : List (NodeId × NodeId)) : Act → Prop where
  | join {a b : NodeId} (h : (a, b) ∈ pairs) : Linking pairs (.join a b)
  | taint {a b : NodeId} (h : (a, b) ∈ pairs) : Linking pairs (.taint a)

/-- A join rewrites nothing. -/
theorem Linking.within {pairs : List (NodeId × NodeId)} {a : Act} (h : Linking pairs a)
    (ws : List NodeId) : a.Within ws := by
  cases h <;> exact List.nil_subset _

namespace CallSite

variable {t : NodeTable} {A : Act → Prop} {W : List NodeId} {s₀ : PathState}

theorem mem_args_of_arg? {c : CallSite} {i : Int} {o : Operand} (h : c.arg? i = some o) :
    o ∈ c.args := by
  rw [arg?] at h
  split at h
  · exact List.mem_of_getElem? h
  split at h
  · exact List.mem_of_getElem? h
  · exact nomatch h

@[simp] theorem state_use (c : CallSite) (p : Progress) : (c.use t p).state = p.state := by
  refine Progress.state_foldl (fun p x => ?_) _ p
  rw [useArg]
  split
  · rfl
  split
  · exact Progress.state_checkUse _ _ _ _
  · exact Progress.state_useOperand _ _ _ _

/-- The nodes that a call releases, in order, each with whether it is released by hand. -/
def released (t : NodeTable) (c : CallSite) : List (NodeId × Bool) :=
  match c.effect with
  | .unknown => []
  | .modelled m => (c.modelDrops t m).map fun x => (x.2, m.manual)
  | .summarised s =>
    s.dropped.filterMap fun d =>
      match d.path.slot with
      | 0 => none
      | i + 1 => (c.argNode t i).map fun id => (t.childAt id d.path.fields, d.manual)

/-- What alarms say of the releases of a call. -/
def dropContext (c : CallSite) : String :=
  match c.effect with
  | .summarised _ => "dropped inside " ++ c.callee
  | _ => "dropped by " ++ c.callee

/-- The second step releases the released nodes one by one. -/
theorem drop_eq (c : CallSite) (p : Progress) :
    c.drop t p =
      (c.released t).foldl (fun p x => p.release t x.1 c.loc x.2 c.dropContext) p := by
  rw [drop, released, dropContext]
  cases c.effect with
  | unknown => rfl
  | modelled m =>
      dsimp only
      rw [List.foldl_map]
  | summarised sum =>
      dsimp only
      rw [List.foldl_filterMap]
      congr 1
      funext p d
      rw [dropSlot]
      cases d.path.slot with
      | zero => rfl
      | succ i =>
          dsimp only
          cases c.argNode t i <;> rfl

/-- The nodes that moved and forgotten arguments take the value out of. -/
def taken (t : NodeTable) (c : CallSite) : List NodeId :=
  c.args.zipIdx.flatMap fun x =>
    if x.1.isMove || c.forgets.contains (x.2 : Int) then (x.1.source t).flatMap t.subtree else []

/-- The third step of a call leaves what is taken. -/
theorem course_move (c : CallSite) {s : PathState} (hleave : ∀ n ∈ c.taken t, A (.leave n))
    (h : Course A s₀ s) : Course A s₀ (c.move t s) := by
  refine h.foldl _ fun s x hx hs => ?_
  dsimp only
  split
  case h_2 => exact hs
  case h_1 id hnode =>
    split
    case isFalse => exact hs
    case isTrue htake =>
      obtain ⟨place, hp, hlookup⟩ := Option.map_eq_some_iff.mp hnode
      have hsource : x.1.source t = [id] := by
        rw [Operand.source_eq hp (by rw [hlookup]), hlookup]
      refine hs.loseOwnership fun n hn => hleave n (List.mem_flatMap.mpr ⟨x, hx, ?_⟩)
      rw [if_pos htake, hsource, List.flatMap_singleton]
      exact hn

/-- The fourth step rewrites the destination. -/
theorem course_store (c : CallSite) {s : PathState} {dest : NodeId} (hW : t.subtree dest ⊆ W)
    (h : Course (Act.Within W) s₀ s) : Course (Act.Within W) s₀ (c.store t dest s) :=
  (h.overwrite fun _ hn => Act.within_of_mem (hW hn) rfl).ownAs
    (fun _ hn _ => Act.within_of_mem (hW hn) rfl) _

/-- The pairs of nodes that a call joins. -/
def joined (t : NodeTable) (c : CallSite) (dest : NodeId) : List (NodeId × NodeId) :=
  match c.effect with
  | .unknown => []
  | .modelled m =>
    (m.retAliases ++ m.reconstructs).filterMap fun i => (c.argNode t i).map fun id => (dest, id)
  | .summarised s =>
    s.aliases.filterMap fun pair =>
      match c.slotNode t dest pair.1, c.slotNode t dest pair.2 with
      | some a, some b => if a = b then none else some (a, b)
      | _, _ => none

/-- The fifth step joins. -/
theorem link_course (c : CallSite) (dest : NodeId) (s : PathState) :
    Course (Linking (c.joined t dest)) s (c.link t dest s) := by
  rw [link, joined]
  cases c.effect with
  | unknown => exact .refl
  | modelled m =>
    dsimp only
    have hjoin : ∀ i id, i ∈ m.retAliases ++ m.reconstructs → c.argNode t i = some id →
        (dest, id) ∈ (m.retAliases ++ m.reconstructs).filterMap fun i =>
          (c.argNode t i).map fun id => (dest, id) := fun i id hi hid =>
      List.mem_filterMap.mpr ⟨i, hi, by rw [hid]; rfl⟩
    refine Course.foldl _ (Course.foldl _ .refl fun s i hi hs => ?_) fun s i hi hs => ?_
    · rw [joinArg]
      cases hid : c.argNode t i with
      | none => exact hs
      | some id =>
          exact hs.step (.join dest id) (.join (hjoin i id (List.mem_append_left _ hi) hid))
    · rw [reconstruct]
      cases hid : c.argNode t i with
      | none => exact hs
      | some id =>
          have hpair := hjoin i id (List.mem_append_right _ hi) hid
          exact (hs.step (.join dest id) (.join hpair)).step (.taint dest) (.taint hpair)
  | summarised sum =>
    dsimp only
    refine Course.foldl _ .refl fun s pair hpair hs => ?_
    rw [joinSlots]
    split
    case h_2 => exact hs
    case h_1 a b ha hb =>
      split
      case isTrue => exact hs
      case isFalse hne =>
        refine hs.step (.join a b) (.join (List.mem_filterMap.mpr ⟨pair, hpair, ?_⟩))
        simp only [ha, hb, if_neg hne]

/-- The nodes that a call writes anew or takes the value out of. -/
def footprint (t : NodeTable) (c : CallSite) (destination : Place) : List NodeId :=
  t.written destination ++ c.taken t

/-- **A call writes only nodes of its footprint anew.** -/
theorem course_apply (c : CallSite) (destination : Place) (p : Progress) :
    Course (Act.Within (c.footprint t destination)) p.state (c.apply t destination p).state := by
  have hdrop : Course (Act.Within (c.footprint t destination)) p.state
      (c.drop t (c.use t p)).state := by
    rw [drop_eq]
    refine List.foldlRecOn (motive := fun q : Progress => Course _ p.state q.state) _ _ ?_
      fun q hq x _ => Progress.course_release hq _ _ _ _
    rw [state_use]
    exact .refl
  have hmove : Course (Act.Within (c.footprint t destination)) p.state
      (c.move t (c.drop t (c.use t p)).state) :=
    c.course_move (fun n hn => Act.within_of_mem (List.mem_append_right _ hn) rfl) hdrop
  rw [apply]
  dsimp only
  split
  · rw [Progress.state_checkUse]
    exact hmove
  case isFalse hd =>
    have hinto : t.subtree (t.lookup destination).1 ⊆ c.footprint t destination := by
      rw [footprint, NodeTable.written, if_neg hd]
      exact List.subset_append_left _ _
    exact (c.course_store hinto hmove).trans ((c.link_course _ _).mono fun a ha => ha.within _)

end CallSite

end Dangling
