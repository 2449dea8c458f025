import Dangling.Proofs.Path.Footprint
import Dangling.Walk.Visit

/-!
# Proofs — Path — Classes

The alias classes of a path state form a partition of the nodes: a node is in its own class, and the
members of a class all have that class.  The acts that touch classes, joins and forgetting, make
partitions from partitions, so every state of a path has one.

* `PathState.Partitioned`: the classes form a partition; kept by every act.
* `PathState.Partitioned.aliases_join`, `PathState.Partitioned.aliases_forget`: the classes
  afterwards.
* `PathState.Partitioned.node_kill`: what is known of each node when nodes are forgotten.
* `PathState.stays_apply`, `PathState.Partitioned.mem_aliases_apply`: what an act leaves of nodes that
  it does not write anew.
* `FunctionGraph.partitioned_initialState`: the classes at the entry.
-/

namespace Dangling

namespace PathState

/-- The alias classes form a partition of the nodes. -/
structure Partitioned (s : PathState) : Prop where
  self : ∀ n < s.size, n ∈ s.aliases n
  same : ∀ {n m}, m ∈ s.aliases n → s.aliases m = s.aliases n

variable {s s' : PathState} {a b n m k : NodeId}

/-- Outside of the state there are no classes. -/
theorem aliases_of_size_le (h : s.size ≤ n) : s.aliases n = [] := by
  rw [aliases, node_of_size_le h]
  rfl

/-- Only nodes of the state have classes. -/
theorem lt_of_mem_aliases (h : m ∈ s.aliases n) : n < s.size := by
  rcases Nat.lt_or_ge n s.size with hn | hn
  · exact hn
  · rw [aliases_of_size_le hn] at h
    exact nomatch h

namespace Partitioned

/-- Members of one class name each other. -/
theorem symm (h : s.Partitioned) (hm : m ∈ s.aliases n) : n ∈ s.aliases m := by
  rw [h.same hm]
  exact h.self n (lt_of_mem_aliases hm)

/-- Members of a class are nodes of the state. -/
theorem lt (h : s.Partitioned) (hm : m ∈ s.aliases n) : m < s.size :=
  lt_of_mem_aliases (h.symm hm)

/-- The members of a member are members. -/
theorem trans (h : s.Partitioned) (hm : m ∈ s.aliases n) (hk : k ∈ s.aliases m) :
    k ∈ s.aliases n := by
  rw [← h.same hm]
  exact hk

/-- States with the same classes. -/
theorem congr (h : s.Partitioned) (hsize : s'.size = s.size)
    (haliases : ∀ n, s'.aliases n = s.aliases n) : s'.Partitioned := by
  refine ⟨fun n hn => ?_, fun {n m} hm => ?_⟩
  · rw [haliases]
    exact h.self n (hsize ▸ hn)
  · rw [haliases] at hm
    rw [haliases, haliases, h.same hm]

end Partitioned

/-! ### Changes of single nodes -/

/-- A change that leaves classes alone. -/
theorem aliases_update (s : PathState) (id : NodeId) {f : NodeState → NodeState}
    (hf : ∀ x, (f x).aliases = x.aliases) (n : NodeId) :
    (s.update id f).aliases n = s.aliases n := by
  rw [aliases, node_update]
  split
  · exact hf _
  · rfl

/-- A change that keeps the aliases of a node keeps all classes. -/
theorem Partitioned.update (h : s.Partitioned) (id : NodeId) {f : NodeState → NodeState}
    (hf : ∀ x, (f x).aliases = x.aliases) : (s.update id f).Partitioned :=
  h.congr (size_update s id f) (aliases_update s id hf)

@[simp] theorem aliases_taint (s : PathState) (id n : NodeId) :
    (s.taint id).aliases n = s.aliases n := by
  rw [aliases, node_taint]
  split <;> rfl

@[simp] theorem aliases_markDropped (s : PathState) (ids : List NodeId) (origin : NodeId)
    (loc : Option Location) (manual : Bool) (n : NodeId) :
    (s.markDropped ids origin loc manual).aliases n = s.aliases n := by
  rw [aliases, node_markDropped]
  split <;> rfl

@[simp] theorem aliases_setKnown? (s : PathState) (id : NodeId) (v : Option Scalar) (n : NodeId) :
    (s.setKnown? id v).aliases n = s.aliases n := by
  rw [aliases, node_setKnown?]
  rfl

/-! ### Joins -/

theorem Partitioned.lt_of_mem_merged (h : s.Partitioned) (hn : n ∈ s.merged a b) : n < s.size := by
  rcases mem_merged.mp hn with hn | hn
  · exact h.lt hn
  · exact h.lt hn

/-- A join takes whole classes. -/
theorem Partitioned.mem_merged_of_mem (h : s.Partitioned) (hn : n ∈ s.merged a b)
    (hm : m ∈ s.aliases n) : m ∈ s.merged a b := by
  rcases mem_merged.mp hn with hn | hn
  · exact mem_merged.mpr (.inl (h.trans hn hm))
  · exact mem_merged.mpr (.inr (h.trans hn hm))

/-- Every member of the two classes learns of all the others, and of a taint. -/
theorem Partitioned.node_join (h : s.Partitioned) (a b n : NodeId) :
    (s.join a b).node n =
      if n ∈ s.merged a b then
        { s.node n with
          aliases := s.merged a b
          tainted := (s.node n).tainted || s.anyTainted (s.merged a b) }
      else s.node n := by
  rw [PathState.node_join]
  by_cases hn : n ∈ s.merged a b
  · rw [if_pos ⟨hn, h.lt_of_mem_merged hn⟩, if_pos hn]
  · rw [if_neg fun hc => hn hc.1, if_neg hn]

/-- The classes of `a` and `b` become one, and the others stay as they are. -/
theorem Partitioned.aliases_join (h : s.Partitioned) (a b n : NodeId) :
    (s.join a b).aliases n = if n ∈ s.merged a b then s.merged a b else s.aliases n := by
  rw [aliases, h.node_join]
  split <;> rfl

/-- Two classes become one. -/
theorem Partitioned.join (h : s.Partitioned) (a b : NodeId) : (s.join a b).Partitioned := by
  -- a class that is not one of the two has no member in them
  have hapart : ∀ {n m}, m ∈ s.aliases n → n ∉ s.merged a b → m ∉ s.merged a b :=
    fun hm hn hmem => hn (h.mem_merged_of_mem hmem (h.symm hm))
  refine ⟨fun n hn => ?_, fun {n m} hm => ?_⟩
  · rw [size_join] at hn
    rw [h.aliases_join]
    split
    · assumption
    · exact h.self n hn
  · rw [h.aliases_join] at hm
    rw [h.aliases_join, h.aliases_join]
    split at hm
    case isTrue hn => rw [if_pos hm, if_pos hn]
    case isFalse hn => rw [if_neg (hapart hm hn), if_neg hn, h.same hm]

/-! ### Forgetting -/

/-- A forgotten node is alone, and gone from its class. -/
theorem Partitioned.aliases_forget (h : s.Partitioned) (id n : NodeId) :
    (s.forget id).aliases n =
      if n = id ∧ n < s.size then [id] else (s.aliases n).filter (· ≠ id) := by
  rw [aliases, node_forget]
  split
  · rfl
  split
  · rfl
  case isFalse hn hmem =>
    refine (List.filter_eq_self.mpr fun m hm => decide_eq_true ?_).symm
    rintro rfl
    exact hmem ⟨h.symm hm, lt_of_mem_aliases hm⟩

/-- A forgotten node is gone from the class of another, of which nothing else changes. -/
theorem Partitioned.node_forget (h : s.Partitioned) {id : NodeId} (hn : n ≠ id) :
    (s.forget id).node n = { s.node n with aliases := (s.aliases n).filter (· ≠ id) } := by
  have hnot : ¬(n = id ∧ n < s.size) := fun e => hn e.1
  have hrest := PathState.node_forget s id n
  rw [if_neg hnot] at hrest
  refine NodeState.ext ?_ ?_ ?_ ((h.aliases_forget id n).trans (if_neg hnot)) <;> rw [hrest] <;>
    split <;> rfl

/-- A node leaves its class and is alone. -/
theorem Partitioned.forget (h : s.Partitioned) (id : NodeId) : (s.forget id).Partitioned := by
  refine ⟨fun n hn => ?_, fun {n m} hm => ?_⟩
  · rw [size_forget] at hn
    rw [h.aliases_forget]
    split
    case isTrue e => exact List.mem_singleton.mpr e.1
    case isFalse hne =>
      exact List.mem_filter.mpr ⟨h.self n hn, decide_eq_true fun e => hne ⟨e, hn⟩⟩
  · rw [h.aliases_forget] at hm
    split at hm
    case isTrue e =>
      obtain rfl := List.mem_singleton.mp hm
      rw [e.1]
    case isFalse hne =>
      obtain ⟨hm, hid⟩ := List.mem_filter.mp hm
      rw [h.aliases_forget, h.aliases_forget, if_neg hne, if_neg fun e => of_decide_eq_true hid e.1,
        h.same hm]

/-- Nodes leave their classes one by one. -/
theorem Partitioned.kill (h : s.Partitioned) (ids : List NodeId) : (s.kill ids).Partitioned :=
  List.foldlRecOn (motive := fun u : PathState => u.Partitioned) ids _ h fun _ hu id _ => hu.forget id

/-- Of forgotten nodes nothing is known, and of all others they are gone from the classes. -/
theorem Partitioned.node_kill (h : s.Partitioned) (ids : List NodeId) (hn : n < s.size) :
    (s.kill ids).node n =
      if n ∈ ids then .fresh n
      else { s.node n with aliases := (s.aliases n).filter (· ∉ ids) } := by
  induction ids generalizing s with
  | nil =>
      rw [if_neg List.not_mem_nil]
      refine NodeState.ext rfl rfl rfl ?_
      exact (List.filter_eq_self.mpr fun _ _ => by simp).symm
  | cons id ids ih =>
      have hcons : s.kill (id :: ids) = (s.forget id).kill ids := rfl
      rw [hcons, ih (h.forget id) (by rwa [size_forget])]
      by_cases hmem : n ∈ ids
      · rw [if_pos hmem, if_pos (List.mem_cons_of_mem _ hmem)]
      · rw [if_neg hmem, aliases]
        by_cases e : n = id
        · subst e
          rw [PathState.node_forget, if_pos ⟨rfl, hn⟩, if_pos List.mem_cons_self]
          simp [NodeState.fresh, hmem]
        · rw [h.node_forget e, if_neg (by simp [e, hmem]), List.filter_filter]
          simp [Bool.and_comm]

/-- Forgotten nodes are alone, and gone from all classes. -/
theorem Partitioned.aliases_kill (h : s.Partitioned) (ids : List NodeId) (hn : n < s.size) :
    (s.kill ids).aliases n = if n ∈ ids then [n] else (s.aliases n).filter (· ∉ ids) := by
  rw [aliases, h.node_kill ids hn]
  split <;> rfl

/-! ### Courses -/

/-- **Every act makes a partition from a partition.** -/
theorem Partitioned.apply (h : s.Partitioned) (a : Act) : (a.apply s).Partitioned := by
  cases a with
  | own n owned => exact h.update n fun _ => rfl
  | leave n => exact h.update n fun _ => rfl
  | learn n v => exact h.congr (size_setKnown? s n v) (aliases_setKnown? s n v)
  | forget n => exact h.forget n
  | inherit dest src => exact h.update dest fun _ => rfl
  | join a b => exact h.join a b
  | taint n => exact h.congr (size_taint s n) (aliases_taint s n)
  | release ids origin loc manual =>
      exact h.congr (size_markDropped s ids origin loc manual)
        (aliases_markDropped s ids origin loc manual)

/-- By the acts of the course, one after the other. -/
theorem Partitioned.course {allowed : Act → Prop} (h : s.Partitioned) (hc : Course allowed s s') :
    s'.Partitioned :=
  hc.keeps (fun _ a _ hs => hs.apply a) h

/-! ### Nodes that are not written anew -/

/-- A node is owned as before, and what was tainted or released still is. -/
structure Stays (s s' : PathState) (n : NodeId) : Prop where
  owned : (s'.node n).owned = (s.node n).owned
  tainted : (s.node n).tainted = true → (s'.node n).tainted = true
  dropped : s.isDropped n = true → s'.isDropped n = true

theorem Stays.refl (s : PathState) (n : NodeId) : s.Stays s n := ⟨rfl, id, id⟩

theorem Stays.trans {s'' : PathState} (h : s.Stays s' n) (h' : s'.Stays s'' n) : s.Stays s'' n :=
  ⟨h'.owned.trans h.owned, h'.tainted ∘ h.tainted, h'.dropped ∘ h.dropped⟩

/-- A node of which only the class changes. -/
theorem stays_of_node {x : NodeState} (h : s'.node n = x) (ho : x.owned = (s.node n).owned)
    (ht : (s.node n).tainted = true → x.tainted = true)
    (hd : (s.node n).isDropped = true → x.isDropped = true) : s.Stays s' n := by
  subst h
  exact ⟨ho, ht, hd⟩

/-- A change of one node leaves the others. -/
theorem stays_update (s : PathState) {id : NodeId} (f : NodeState → NodeState) (hn : n ≠ id) :
    s.Stays (s.update id f) n := by
  refine stays_of_node (node_update s id n f) ?_ ?_ ?_ <;> simp [hn]

/-- **Nodes that an act does not write anew stay.** -/
theorem stays_apply (s : PathState) (a : Act) (hn : n ∉ a.rewrites) : s.Stays (a.apply s) n := by
  cases a with
  | own m owned => exact stays_update s _ fun e => hn (e ▸ List.mem_singleton_self _)
  | leave m => exact stays_update s _ fun e => hn (e ▸ List.mem_singleton_self _)
  | inherit dest src => exact stays_update s _ fun e => hn (e ▸ List.mem_singleton_self _)
  | learn m v => exact stays_of_node (node_setKnown? s m v n) rfl id id
  | forget m =>
      have hne : n ≠ m := fun e => hn (e ▸ List.mem_singleton_self _)
      refine stays_of_node (node_forget s m n) ?_ ?_ ?_ <;> rw [if_neg fun h => hne h.1]
      · split <;> rfl
      · split <;> exact id
      · split <;> exact id
  | join a b =>
      refine stays_of_node (PathState.node_join s a b n) ?_ (fun h => ?_) ?_
      · split <;> rfl
      · split
        · rw [h]
          rfl
        · exact h
      · split <;> exact id
  | taint m =>
      refine stays_of_node (node_taint s m n) ?_ (fun h => ?_) ?_
      · split <;> rfl
      · split
        · rfl
        · exact h
      · split <;> exact id
  | release ids origin loc manual =>
      refine stays_of_node (node_markDropped s ids origin loc manual n) ?_ (fun h => ?_) (fun h => ?_)
      · split <;> rfl
      · split
        · rw [h]
          rfl
        · exact h
      · split
        · rfl
        · exact h

/-- **Nodes outside of a footprint stay.** -/
theorem stays_course {W : List NodeId} (hc : Course (Act.Within W) s s') (hn : n ∉ W) :
    s.Stays s' n :=
  hc.keeps (P := fun u => s.Stays u n)
    (fun u a ha hu => hu.trans (u.stays_apply a fun hm => hn (ha hm))) (.refl s n)

/-- Two nodes of a class that are not written anew stay in one class. -/
theorem Partitioned.mem_aliases_apply (h : s.Partitioned) (a : Act) (hn : n ∉ a.rewrites)
    (hm : m ∉ a.rewrites) (hmem : m ∈ s.aliases n) : m ∈ (a.apply s).aliases n := by
  have hupdate : ∀ (k : NodeId) {f : NodeState → NodeState}, (∀ x, (f x).aliases = x.aliases) →
      m ∈ (s.update k f).aliases n := fun k f hf => by
    rw [aliases_update s k hf]
    exact hmem
  cases a with
  | own k owned => exact hupdate k fun _ => rfl
  | leave k => exact hupdate k fun _ => rfl
  | inherit dest src => exact hupdate dest fun _ => rfl
  | learn k v => exact (aliases_setKnown? s k v n).symm ▸ hmem
  | taint k => exact (aliases_taint s k n).symm ▸ hmem
  | release ids origin loc manual =>
      exact (aliases_markDropped s ids origin loc manual n).symm ▸ hmem
  | forget k =>
      have hne : n ≠ k := fun e => hn (e ▸ List.mem_singleton_self _)
      have hme : m ≠ k := fun e => hm (e ▸ List.mem_singleton_self _)
      rw [Act.apply, h.aliases_forget, if_neg fun e => hne e.1]
      exact List.mem_filter.mpr ⟨hmem, decide_eq_true hme⟩
  | join a b =>
      rw [Act.apply, h.aliases_join]
      split
      case isFalse => exact hmem
      case isTrue hin => exact h.mem_merged_of_mem hin hmem

/-! ### The entry -/

@[simp] theorem size_initial (size : Nat) : (PathState.initial size).size = size := by
  simp [initial, PathState.size]

/-- At the start every node is alone in its class. -/
theorem node_initial {size : Nat} (hn : n < size) :
    (PathState.initial size).node n = .fresh n := by
  have hget : (PathState.initial size).nodes[n]? = some (.fresh n) := by
    simp [initial, hn]
  rw [node_eq, hget]
  rfl

/-- At first nothing is released. -/
theorem fate_initial (size : Nat) (n : NodeId) :
    ((PathState.initial size).node n).fate = .live := by
  by_cases hn : n < size
  · rw [node_initial hn]
    rfl
  · rw [node_of_size_le (by rw [size_initial]; exact Nat.le_of_not_lt hn)]
    rfl

theorem partitioned_initial (size : Nat) : (PathState.initial size).Partitioned := by
  have hsize := size_initial size
  have halone : ∀ n < size, (PathState.initial size).aliases n = [n] := fun n hn => by
    rw [aliases, node_initial hn]
    rfl
  refine ⟨fun n hn => ?_, fun {n m} hm => ?_⟩
  · rw [halone n (hsize ▸ hn)]
    exact List.mem_cons_self
  · have hn : n < size := hsize ▸ lt_of_mem_aliases hm
    rw [halone n hn] at hm
    rw [List.mem_singleton.mp hm]

end PathState

/-- To enter a function is to make nodes owners or not, by their types. -/
theorem FunctionGraph.course_initialState (g : FunctionGraph) {A : Act → Prop}
    (hown : ∀ n owned, A (.own n owned)) :
    Course A (PathState.initial g.nodes.size) g.initialState :=
  Course.refl.foldl _ fun _ _ _ hs => hs.ownByType fun n _ owned => hown n owned

/-- Parameters own memory, but share none. -/
theorem FunctionGraph.partitioned_initialState (g : FunctionGraph) :
    g.initialState.Partitioned :=
  (PathState.partitioned_initial g.nodes.size).course
    (g.course_initialState (A := fun _ => True) fun _ _ => trivial)

end Dangling
