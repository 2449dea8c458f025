import Dangling.Proofs.Path.Classes
import Dangling.Proofs.Path.Values

/-!
# Proofs — Path — Frame

What an assignment leaves alone.  An act names nodes, and reaches beyond them only to the other members
of their classes.  So where a set of nodes holds whole classes, acts that name nodes of the set leave
all other nodes as they are, and the set still holds whole classes.

* `Act.On`: an act names nodes of a set; `PathState.Whole`: a set of nodes holds whole classes.
* `PathState.Whole.course`: what acts on a set of whole classes leave alone.
* `Rvalue.touched`: the nodes that a write to a node may name.
* `Progress.assign_stays_within`: what an assignment leaves alone.
-/

namespace Dangling

/-- The act names only nodes of `C`, where it does more than to read them or to learn a value. -/
def Act.On (C : NodeId → Prop) : Act → Prop
  | .own n _ | .leave n | .forget n | .inherit n _ | .taint n => C n
  | .learn _ _ => True
  | .join a b => C a ∧ C b
  | .release ids _ _ _ => ∀ n ∈ ids, C n

/-- The nodes of which an act changes the known value. -/
def Act.learns : Act → List NodeId
  | .learn n _ | .forget n => [n]
  | _ => []

/-! ### Sets of whole classes -/

namespace PathState

/-- The classes form a partition, and `C` holds whole classes. -/
structure Whole (C : NodeId → Prop) (s : PathState) : Prop where
  partitioned : s.Partitioned
  closed : ∀ {n m}, C n → m ∈ s.aliases n → C m

variable {C : NodeId → Prop} {s s' : PathState} {n : NodeId}

/-- Where classes only lose members, a set holds whole classes as before. -/
theorem Whole.of_subset (h : s.Whole C) (hpart : s'.Partitioned)
    (hsub : ∀ n, s'.aliases n ⊆ s.aliases n) : s'.Whole C :=
  ⟨hpart, fun hn hm => h.closed hn (hsub _ hm)⟩

/-- A set of whole classes holds the join of two of them. -/
theorem Whole.of_mem_merged (h : s.Whole C) {a b : NodeId} (ha : C a) (hb : C b)
    (hn : n ∈ s.merged a b) : C n := by
  rcases mem_merged.mp hn with hn | hn
  · exact h.closed ha hn
  · exact h.closed hb hn

/-- **A set of whole classes stays one** under acts on it. -/
theorem Whole.apply (h : s.Whole C) {a : Act} (ha : a.On C) : (a.apply s).Whole C := by
  have hpart := h.partitioned.apply a
  have hsame : (∀ n, (a.apply s).aliases n = s.aliases n) → (a.apply s).Whole C := fun e =>
    h.of_subset hpart fun n => (e n).symm ▸ List.Subset.refl _
  cases a with
  | own n owned => exact hsame (aliases_update s n fun _ => rfl)
  | leave n => exact hsame (aliases_update s n fun _ => rfl)
  | learn n v => exact hsame (aliases_setKnown? s n v)
  | inherit dest src => exact hsame (aliases_update s dest fun _ => rfl)
  | taint n => exact hsame (aliases_taint s n)
  | release ids origin loc manual => exact hsame (aliases_markDropped s ids origin loc manual)
  | forget id =>
      refine h.of_subset hpart fun n m hm => ?_
      rw [Act.apply, h.partitioned.aliases_forget] at hm
      split at hm
      case isTrue e =>
        obtain rfl := List.mem_singleton.mp hm
        exact e.1 ▸ h.partitioned.self n e.2
      case isFalse => exact (List.mem_filter.mp hm).1
  | join a b =>
      refine ⟨hpart, fun {n m} hn hm => ?_⟩
      rw [Act.apply, h.partitioned.aliases_join] at hm
      split at hm
      · exact h.of_mem_merged ha.1 ha.2 hm
      · exact h.closed hn hm

/-- **Acts on a set of whole classes leave the other nodes as they are.** -/
theorem Whole.node_apply (h : s.Whole C) {a : Act} (ha : a.On C) (hn : ¬C n) :
    (a.apply s).node n = s.node n := by
  have hupdate : ∀ {id : NodeId} (f : NodeState → NodeState), C id →
      (s.update id f).node n = s.node n := fun {id} f hid => by
    have hne : n ≠ id := fun e => hn (e ▸ hid)
    rw [node_update, if_neg fun e => hne e.1]
  cases a with
  | own m owned => exact hupdate _ ha
  | leave m => exact hupdate _ ha
  | learn m v => exact node_setKnown? s m v n
  | inherit dest src => exact hupdate _ ha
  | taint m => rw [Act.apply, node_taint, if_neg fun e => hn (h.closed ha e.1)]
  | release ids origin loc manual =>
      rw [Act.apply, node_markDropped, if_neg fun e => hn (ha n e.1)]
  | forget id =>
      have hne : n ≠ id := fun e => hn (e ▸ ha)
      rw [Act.apply, node_forget, if_neg fun e => hne e.1, if_neg fun e => hn (h.closed ha e.1)]
  | join a b =>
      rw [Act.apply, PathState.node_join, if_neg fun e => hn (h.of_mem_merged ha.1 ha.2 e.1)]

/-- The state `s'` is as `s` outside of `C`, and `C` holds whole classes. -/
def Framed (C : NodeId → Prop) (s s' : PathState) : Prop :=
  s'.Whole C ∧ ∀ n, ¬C n → s'.node n = s.node n

/-- An act on the footprint stays inside it. -/
theorem Framed.step (h : Framed C s s') {a : Act} (ha : a.On C) : Framed C s (a.apply s') :=
  ⟨h.1.apply ha, fun n hn => (h.1.node_apply ha hn).trans (h.2 n hn)⟩

/-- What a course of acts on a set of whole classes leaves alone. -/
theorem Whole.course (h : s.Whole C) (hc : Course (Act.On C) s s') : Framed C s s' :=
  hc.keeps (P := Framed C s) (fun _ _ ha hu => hu.step ha) ⟨h, fun _ _ => rfl⟩

theorem size_apply (s : PathState) (a : Act) : (a.apply s).size = s.size := by
  cases a with
  | own n owned => exact size_update s n _
  | leave n => exact size_update s n _
  | learn n v => exact size_setKnown? s n v
  | forget n => exact size_forget s n
  | inherit dest src => exact size_update s dest _
  | join a b => exact size_join s a b
  | taint n => exact size_taint s n
  | release ids origin loc manual => exact size_markDropped s ids origin loc manual

/-- No act adds or takes away a node. -/
theorem size_course {A : Act → Prop} (hc : Course A s s') : s'.size = s.size :=
  hc.keeps (P := fun u => u.size = s.size) (fun u a _ hu => (u.size_apply a).trans hu) rfl

/-- Some nodes with all members of their classes hold whole classes. -/
theorem Partitioned.whole (h : s.Partitioned) (T : List NodeId) :
    s.Whole fun n => n ∈ T ∨ ∃ m ∈ T, n ∈ s.aliases m := by
  refine ⟨h, fun {n m} hn hm => .inr ?_⟩
  rcases hn with hn | ⟨k, hk, hn⟩
  · exact ⟨n, hn, hm⟩
  · exact ⟨k, hk, h.trans hn hm⟩

/-- **Acts on some nodes leave all nodes alone that are in no class of these.** -/
theorem Partitioned.node_course (h : s.Partitioned) {T : List NodeId}
    (hc : Course (Act.On fun n => n ∈ T ∨ ∃ m ∈ T, n ∈ s.aliases m) s s')
    (hn : ∀ m ∈ T, n ∉ s.aliases m) : s'.node n = s.node n := by
  by_cases hlt : n < s.size
  · refine ((h.whole T).course hc).2 n ?_
    rintro (hmem | ⟨m, hm, hmem⟩)
    · exact hn n hmem (h.self n hlt)
    · exact hn m hm hmem
  · have hle : s.size ≤ n := Nat.le_of_not_lt hlt
    rw [node_of_size_le hle, node_of_size_le (size_course hc ▸ hle)]

/-! ### Known values -/

/-- An act changes no known value but of the node that it forgets or learns of. -/
theorem known_apply (s : PathState) {a : Act} (hn : n ∉ a.learns) : (a.apply s).known n = s.known n := by
  cases a with
  | own m owned => rfl
  | leave m => rfl
  | inherit dest src => rfl
  | join a b => exact known_congr (values_join s a b) n
  | taint m => exact known_congr (values_taint s m) n
  | release ids origin loc manual => exact known_congr (values_markDropped s ids origin loc manual) n
  | forget m =>
      have hne : n ≠ m := fun e => hn (e ▸ List.mem_singleton_self _)
      rw [Act.apply, known_forget, if_neg hne]
  | learn m v =>
      have hne : n ≠ m := fun e => hn (e ▸ List.mem_singleton_self _)
      cases v with
      | none => rfl
      | some v => exact (known_setKnown s m v n).trans (if_neg hne)

/-- Outside of what a course learns, values stay. -/
theorem known_course {W : List NodeId} (hc : Course (fun a => a.learns ⊆ W) s s') (hn : n ∉ W) :
    s'.known n = s.known n :=
  hc.keeps (P := fun u => u.known n = s.known n)
    (fun u _ ha hu => (u.known_apply fun hm => hn (ha hm)).trans hu) rfl

end PathState

/-! ### What a right-hand side names -/

namespace Rvalue

/-- The places that a right-hand side reads, borrows, points to or inspects. -/
def places (r : Rvalue) : List Place := r.operands.filterMap (·.place?) ++ r.target?.toList

/-- The nodes of these places with all below them. -/
def reached (t : NodeTable) (r : Rvalue) : List NodeId :=
  r.places.flatMap fun p => t.subtree (t.lookup p).1

/-- The nodes that a write of a right-hand side to the node `dest` may name. -/
def touched (t : NodeTable) (dest : NodeId) (r : Rvalue) : List NodeId :=
  t.subtree dest ++ r.reached t

variable {t : NodeTable} {r : Rvalue} {o : Operand} {place : Place} {dest : NodeId}

/-- A right-hand side reaches the subtrees of its places. -/
theorem subtree_subset_reached (hp : place ∈ r.places) :
    t.subtree (t.lookup place).1 ⊆ r.reached t := fun _ hn =>
  List.mem_flatMap.mpr ⟨place, hp, hn⟩

theorem mem_places_of_operand (ho : o ∈ r.operands) (hp : o.place? = some place) :
    place ∈ r.places :=
  List.mem_append_left _ (List.mem_filterMap.mpr ⟨o, ho, hp⟩)

/-- So it reaches what its operands are read from. -/
theorem source_subset_reached (ho : o ∈ r.operands) : o.source t ⊆ r.reached t := by
  intro n hn
  rw [Operand.source] at hn
  split at hn
  case h_2 => exact absurd hn List.not_mem_nil
  case h_1 place hp =>
    split at hn
    · exact absurd hn List.not_mem_nil
    · obtain rfl := List.mem_singleton.mp hn
      exact subtree_subset_reached (mem_places_of_operand ho hp) (t.self_mem_subtree _)

/-- And what they take along. -/
theorem taken_subset_reached (ho : o ∈ r.operands) : o.taken t ⊆ r.reached t := by
  intro n hn
  obtain ⟨place, hp, hd, hmove⟩ := Operand.exists_of_taken (List.ne_nil_of_mem hn)
  rw [Operand.taken_eq hp hd hmove] at hn
  exact subtree_subset_reached (mem_places_of_operand ho hp) hn

/-- And the pointers they copy. -/
theorem copied_subset_reached (ho : o ∈ r.operands) : o.copied t ⊆ r.reached t := by
  intro n hn
  rw [Operand.copied] at hn
  split at hn
  · exact absurd hn List.not_mem_nil
  · exact source_subset_reached ho (List.mem_filter.mp hn).1

/-- Whatever a right-hand side takes, it reaches. -/
theorem taken_subset (r : Rvalue) : r.taken t ⊆ r.reached t := by
  intro n hn
  obtain ⟨o, ho, hn⟩ := List.mem_flatMap.mp hn
  exact taken_subset_reached ho hn

/-- Whatever it moves, it reaches. -/
theorem moved_subset (r : Rvalue) : r.moved t dest ⊆ r.reached t := by
  intro n hn
  cases r with
  | use o => exact taken_subset_reached List.mem_cons_self hn
  | aggregate items name =>
      obtain ⟨o, ho, hn⟩ := List.mem_flatMap.mp hn
      have hmem : o ∈ (aggregate items name).operands := List.mem_of_mem_take ho
      exact taken_subset_reached hmem hn
  | _ => exact absurd hn List.not_mem_nil

/-- Whatever it names, it reaches. -/
theorem named_subset (r : Rvalue) : r.named t dest ⊆ r.reached t := by
  intro n hn
  cases r with
  | use o =>
      rw [named] at hn
      split at hn
      case h_2 => exact absurd hn List.not_mem_nil
      case h_1 place hp =>
        split at hn
        case isFalse => exact copied_subset_reached List.mem_cons_self hn
        case isTrue =>
          split at hn
          · obtain rfl := List.mem_singleton.mp hn
            exact subtree_subset_reached (mem_places_of_operand List.mem_cons_self hp)
              (t.self_mem_subtree _)
          · exact absurd hn List.not_mem_nil
  | ref mutable target | addressOf mutable target =>
      obtain rfl := List.mem_singleton.mp hn
      exact subtree_subset_reached List.mem_cons_self (t.self_mem_subtree _)
  | aggregate items name =>
      rcases List.mem_append.mp hn with hn | hn
      · obtain ⟨o, ho, hn⟩ := List.mem_flatMap.mp hn
        have hmem : o ∈ (aggregate items name).operands := ho
        exact copied_subset_reached hmem hn
      · obtain ⟨o, ho, hn⟩ := List.mem_flatMap.mp hn
        have hmem : o ∈ (aggregate items name).operands := List.mem_of_mem_drop ho
        exact source_subset_reached hmem hn
  | cast o ty => exact source_subset_reached List.mem_cons_self (List.mem_filter.mp hn).1
  | binary op l r =>
      rw [named] at hn
      split at hn
      case isFalse => exact absurd hn List.not_mem_nil
      case isTrue =>
        obtain ⟨place, hp, rfl⟩ := Option.map_eq_some_iff.mp (Option.mem_toList.mp hn)
        exact subtree_subset_reached (mem_places_of_operand List.mem_cons_self hp)
          (t.self_mem_subtree _)
  | unary op o => exact absurd hn List.not_mem_nil
  | inspect what target => exact absurd hn List.not_mem_nil

end Rvalue

/-! ### Writes to a node -/

/-- An act that lays a value down is on the footprint, if its parts are. -/
theorem Laying.on {into named moved taken : List NodeId} {C : NodeId → Prop} {a : Act}
    (h : Laying into named moved taken a) (hinto : ∀ n ∈ into, C n) (hnamed : ∀ n ∈ named, C n)
    (hmoved : ∀ n ∈ moved, C n) (htaken : ∀ n ∈ taken, C n) : a.On C := by
  cases h with
  | own hn => exact hinto _ hn
  | learn hn => trivial
  | inherit hd hs => exact hinto _ hd
  | join hd hs => exact ⟨hinto _ hd, hs.elim (hnamed _) (hmoved _)⟩
  | leave hn => exact htaken _ hn

theorem Laying.learns_subset {into named moved taken : List NodeId} {a : Act}
    (h : Laying into named moved taken a) : a.learns ⊆ into := by
  cases h with
  | learn hn => exact List.cons_subset.mpr ⟨hn, List.nil_subset _⟩
  | own hn | inherit hd hs | join hd hs | leave hn => exact List.nil_subset _

namespace Progress

variable {t : NodeTable}

/-- A write to a node names only what it touches. -/
theorem course_assignTo (ht : t.Layered) (p : Progress) (loc : Location) (dest : NodeId) (r : Rvalue)
    {C : NodeId → Prop} (hC : ∀ n ∈ r.touched t dest, C n) :
    Course (Act.On C) p.state (p.assignTo t loc dest r).state := by
  have hdest : ∀ n ∈ t.subtree dest, C n := fun n hn => hC n (List.mem_append_left _ hn)
  have hreached : ∀ n ∈ r.reached t, C n := fun n hn => hC n (List.mem_append_right _ hn)
  rcases assignTo_course ht p loc dest r with hself | hcourse
  · rw [hself]
    exact .refl
  · refine Course.trans (.overwrite .refl hdest) (hcourse.mono fun a ha => ha.on hdest ?_ ?_ ?_)
    · exact fun n hn => hreached n (r.named_subset hn)
    · exact fun n hn => hreached n (r.moved_subset hn)
    · exact fun n hn => hreached n (r.taken_subset hn)

/-- A write to a node changes no known value but of the node and its fields. -/
theorem known_assignTo (ht : t.Layered) (p : Progress) (loc : Location) (dest : NodeId) (r : Rvalue)
    {n : NodeId} (hn : n ∉ t.subtree dest) :
    (p.assignTo t loc dest r).state.known n = p.state.known n := by
  rcases assignTo_course ht p loc dest r with hself | hcourse
  · rw [hself]
  · refine PathState.known_course (W := t.subtree dest) ?_ hn
    refine Course.trans (.overwrite .refl fun m hm => ?_) (hcourse.mono fun a ha => ha.learns_subset)
    exact List.cons_subset.mpr ⟨hm, List.nil_subset _⟩

end Progress

/-! ### Writes through a pointer -/

/-- A value is taken out once. -/
theorem NodeState.leave_leave (x : NodeState) : x.leave.leave = x.leave := by
  obtain ⟨owned, fate, tainted, aliases⟩ := x
  cases fate <;> rfl

/-- To take a value out of a node changes nothing but who owns it and whether it is there. -/
theorem NodeState.same_leave (x : NodeState) :
    x.leave.tainted = x.tainted ∧ x.leave.aliases = x.aliases ∧
      x.leave.fate.origin? = x.fate.origin? ∧ x.leave.fate.loc? = x.fate.loc? := by
  obtain ⟨owned, fate, tainted, aliases⟩ := x
  cases fate <;> exact ⟨rfl, rfl, rfl, rfl⟩

/-- Through a pointer exactly the taken nodes are left. -/
theorem PathState.takeMoved_eq {t : NodeTable} (s : PathState) (o : Operand) :
    s.takeMoved t o = s.updateAll (o.taken t) NodeState.leave := by
  cases o with
  | copy place => rfl
  | constant value ty => rfl
  | move place =>
      rw [takeMoved]
      dsimp only
      split
      case isTrue hd =>
        have hnone : (Operand.move place).taken t = [] := by
          simp [Operand.taken, Operand.source, Operand.place?, hd]
        rw [hnone]
        rfl
      case isFalse hd =>
        rw [Operand.taken_eq (o := .move place) rfl (by simpa using hd) rfl]
        rfl

namespace Progress

variable {t : NodeTable}

/-- A write through a pointer takes the moved values out of their nodes, and that is all. -/
theorem state_assignThrough (p : Progress) (loc : Location) (dest : NodeId) (r : Rvalue) :
    (p.assignThrough t loc dest r).state = p.state.updateAll (r.taken t) NodeState.leave := by
  have hfold : ∀ (os : List Operand) (q : Progress),
      (os.foldl (fun p o => (p.useOperand t loc "assignment" o).on fun s => s.takeMoved t o) q).state =
        q.state.updateAll (os.flatMap (·.taken t)) NodeState.leave := by
    intro os
    induction os with
    | nil => exact fun _ => rfl
    | cons o os ih =>
        intro q
        rw [List.foldl_cons, ih, state_on, state_useOperand, PathState.takeMoved_eq,
          List.flatMap_cons, PathState.updateAll, PathState.updateAll, PathState.updateAll,
          List.foldl_append]
  rw [assignThrough, hfold, state_checkUse, Rvalue.taken]

/-- **An assignment stays within the classes that it touches**, over the nodes of an accepted function
and in any state whose classes form a partition.

* A write to a node leaves every node alone that is in no class of a touched node, and changes known
  values only of the node and its fields.
* A write through a pointer changes only who owns the memory of moved nodes, and that it is there. -/
theorem assign_stays_within {ds : Declarations} {b : Body} {g : FunctionGraph}
    (hg : FunctionGraph.ofBody ds b = .ok g) (p : Progress) (hp : p.state.Partitioned)
    (loc : Location) (place : Place) (r : Rvalue) :
    ((g.nodes.lookup place).2 = false →
      (∀ n, (∀ m ∈ r.touched g.nodes (g.nodes.lookup place).1, n ∉ p.state.aliases m) →
        (p.assign g.nodes loc place r).state.node n = p.state.node n) ∧
      ∀ n ∉ g.nodes.subtree (g.nodes.lookup place).1,
        (p.assign g.nodes loc place r).state.known n = p.state.known n) ∧
    ((g.nodes.lookup place).2 = true →
      (∀ n ∉ r.taken g.nodes, (p.assign g.nodes loc place r).state.node n = p.state.node n) ∧
      (∀ n, ((p.assign g.nodes loc place r).state.node n).tainted = (p.state.node n).tainted ∧
        ((p.assign g.nodes loc place r).state.node n).aliases = (p.state.node n).aliases ∧
        ((p.assign g.nodes loc place r).state.node n).fate.origin? = (p.state.node n).fate.origin? ∧
        ((p.assign g.nodes loc place r).state.node n).fate.loc? = (p.state.node n).fate.loc?) ∧
      (p.assign g.nodes loc place r).state.values = p.state.values) := by
  have ht : g.nodes.Layered := (FunctionGraph.built_of_ofBody hg).layered
  rw [assign]
  refine ⟨fun hd => ?_, fun hd => ?_⟩
  · simp only [hd, if_neg Bool.false_ne_true]
    refine ⟨fun n hn => hp.node_course ?_ hn, fun n hn => known_assignTo ht p loc _ r hn⟩
    exact course_assignTo ht p loc _ r fun m hm => .inl hm
  · simp only [hd, if_pos]
    have hnode := PathState.node_updateAll NodeState.leave_leave (r.taken g.nodes) p.state
    rw [state_assignThrough]
    refine ⟨fun n hn => ?_, fun n => ?_, ?_⟩
    · rw [hnode, if_neg fun h => hn h.1]
    · rw [hnode]
      split
      · exact NodeState.same_leave _
      · exact ⟨rfl, rfl, rfl, rfl⟩
    · exact PathState.values_updateAll _ _ _

/-- A function of two pairs of a number and a pointer, a pointer and a number. -/
def handover : Body where
  name := "handover"
  argCount := 4
  locals := [{ ty := Ty.unit }, { ty := pair }, { ty := pair }, { ty := .rawPtr true Ty.int32 },
    { ty := Ty.int32 }]
  blocks := [{ id := 0, statements := [], terminator := ⟨default, .ret⟩ }]
  distinct := by decide
where
  /-- A number and a pointer. -/
  pair : Ty := .tuple [Ty.int32, .rawPtr true Ty.int32]

/-- Its graph: the fields of the first pair are the nodes 5 and 6, those of the second 7 and 8. -/
def handoverGraph : FunctionGraph := (FunctionGraph.ofBody .empty handover).toOption.get rfl

/-- The second pair holds the pointer 3, and the number 4 is known. -/
def handoverEntry : Progress :=
  { state := ((PathState.initial 9).join 8 3).setKnown 4 (.int 7) }

/-- The second pair becomes the first one: the pointer loses the pair from its class, and the number
stays known.  To store the first pair through the pointer takes the pair and no more. -/
theorem handover_stays_within :
    FunctionGraph.ofBody .empty handover = .ok handoverGraph ∧ handoverEntry.state.Partitioned ∧
      (∃ direct, direct = (handoverEntry.assign handoverGraph.nodes default { base := 2 }
          (.use (.move { base := 1 }))).state ∧
        handoverEntry.state.aliases 3 = [3, 8] ∧ direct.aliases 3 = [3] ∧
        (∀ n ∈ [0, 4], direct.node n = handoverEntry.state.node n) ∧
        direct.known 4 = some (.int 7)) ∧
      ∃ through, through = (handoverEntry.assign handoverGraph.nodes default
          { base := 3, steps := [.deref] } (.use (.move { base := 1 }))).state ∧
        (∀ n ∈ [0, 2, 3, 4, 7, 8], through.node n = handoverEntry.state.node n) ∧
        through.values = handoverEntry.state.values := by
  have hg : FunctionGraph.ofBody .empty handover = .ok handoverGraph := rfl
  have hp : handoverEntry.state.Partitioned :=
    ((PathState.partitioned_initial 9).join 8 3).apply (.learn 4 (some (.int 7)))
  have hdirect := (assign_stays_within hg handoverEntry hp default { base := 2 }
    (.use (.move { base := 1 }))).1 rfl
  have hthrough := (assign_stays_within hg handoverEntry hp default
    { base := 3, steps := [.deref] } (.use (.move { base := 1 }))).2 rfl
  refine ⟨hg, hp, ⟨_, rfl, rfl, rfl, fun n hn => hdirect.1 n ?_, ?_⟩, _, rfl, fun n hn => ?_,
    hthrough.2.2⟩
  · revert n
    decide
  · exact hdirect.2 4 (by decide)
  · refine hthrough.1 n ?_
    revert n
    decide

end Progress

end Dangling
