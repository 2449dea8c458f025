import Dangling.Path.Progress
import Dangling.Proofs.Order.Sorted

/-!
# Proofs — Path — State

What is known of each node after each operation on a path state.  All changes are changes of single
nodes, in turn; where doing a change twice does no more than doing it once, it does not matter how
often a node is among those to be changed (`node_updateAll`).
-/

namespace Dangling

attribute [ext] NodeState

namespace PathState

variable {s : PathState}

/-! ### Changes of nodes -/

@[simp] theorem size_update (s : PathState) (id : NodeId) (f : NodeState → NodeState) :
    (s.update id f).size = s.size :=
  Array.size_modify

@[simp] theorem size_updateAll (s : PathState) (ids : List NodeId) (f : NodeState → NodeState) :
    (s.updateAll ids f).size = s.size :=
  List.foldlRecOn (motive := fun u : PathState => u.size = s.size) ids _ rfl
    fun u hu id _ => (size_update u id f).trans hu

/-- Outside of the state the default is read. -/
theorem node_eq (s : PathState) (n : NodeId) : s.node n = s.nodes[n]?.getD default :=
  Array.getD_eq_getD_getElem?

/-- Of a node that does not exist nothing is known. -/
theorem node_of_size_le {n : NodeId} (h : s.size ≤ n) : s.node n = default := by
  have hnone : s.nodes[n]? = none := Array.getElem?_eq_none h
  rw [node_eq, hnone]
  rfl

/-- A change of one node. -/
theorem node_update (s : PathState) (id n : NodeId) (f : NodeState → NodeState) :
    (s.update id f).node n = if n = id ∧ n < s.size then f (s.node n) else s.node n := by
  have hnodes : (s.update id f).nodes = s.nodes.modify id f := rfl
  rw [node_eq, node_eq, hnodes, Array.getElem?_modify]
  by_cases e : id = n
  · subst e
    rw [if_pos rfl]
    by_cases hn : id < s.size
    · rw [if_pos ⟨rfl, hn⟩, Array.getElem?_eq_getElem hn]
      rfl
    · rw [if_neg fun h => hn h.2, Array.getElem?_eq_none (Nat.not_lt.mp hn)]
      rfl
  · rw [if_neg e, if_neg fun h => e h.1.symm]

/-- A change that is the same when it is done twice. -/
theorem node_updateAll {f : NodeState → NodeState} (hf : ∀ x, f (f x) = f x) (ids : List NodeId)
    (s : PathState) (n : NodeId) :
    (s.updateAll ids f).node n = if n ∈ ids ∧ n < s.size then f (s.node n) else s.node n := by
  induction ids generalizing s with
  | nil => simp [updateAll]
  | cons id ids ih =>
      have hcons : s.updateAll (id :: ids) f = (s.update id f).updateAll ids f := rfl
      rw [hcons, ih, node_update, size_update]
      by_cases hn : n < s.size
      · by_cases e : n = id
        · subst e
          by_cases hm : n ∈ ids <;> simp [hn, hm, hf]
        · simp [e]
      · simp [hn]

/-! ### Operations -/

@[simp] theorem node_setKnown? (s : PathState) (id : NodeId) (v : Option Scalar) (n : NodeId) :
    (s.setKnown? id v).node n = s.node n := by
  cases v <;> rfl

@[simp] theorem size_setKnown? (s : PathState) (id : NodeId) (v : Option Scalar) :
    (s.setKnown? id v).size = s.size := by
  cases v <;> rfl

/-- The members of two classes. -/
theorem mem_merged {a b n : NodeId} : n ∈ s.merged a b ↔ n ∈ s.aliases a ∨ n ∈ s.aliases b :=
  Sorted.mem_union

/-- One of the members of a class, or of two, was handled by hand. -/
def anyTainted (s : PathState) (members : List NodeId) : Bool :=
  members.any fun n => (s.node n).tainted

/-- Members of the two classes get the new class, and the taint of any of them. -/
theorem node_join (s : PathState) (a b n : NodeId) :
    (s.join a b).node n =
      if n ∈ s.merged a b ∧ n < s.size then
        { s.node n with
          aliases := s.merged a b
          tainted := (s.node n).tainted || s.anyTainted (s.merged a b) }
      else s.node n := by
  rw [join, node_updateAll fun x => by simp]
  rfl

/-- A taint spreads over the class. -/
theorem node_taint (s : PathState) (id n : NodeId) :
    (s.taint id).node n =
      if n ∈ s.aliases id ∧ n < s.size then { s.node n with tainted := true } else s.node n := by
  rw [taint, node_updateAll fun _ => by rfl]

/-- Every node that is named gets the same fate. -/
theorem node_markDropped (s : PathState) (ids : List NodeId) (origin : NodeId)
    (loc : Option Location) (manual : Bool) (n : NodeId) :
    (s.markDropped ids origin loc manual).node n =
      if n ∈ ids ∧ n < s.size then
        { s.node n with
          fate := .dropped origin loc
          tainted := (s.node n).tainted || manual }
      else s.node n := by
  rw [markDropped, node_updateAll fun x => by simp]

/-- The node starts anew, and the others of its class lose it. -/
theorem node_forget (s : PathState) (id n : NodeId) :
    (s.forget id).node n =
      if n = id ∧ n < s.size then .fresh id
      else if n ∈ s.aliases id ∧ n < s.size then
        { s.node n with aliases := (s.node n).aliases.filter (· ≠ id) }
      else s.node n := by
  have hforget : (s.forget id).node n =
      ((s.updateAll ((s.aliases id).filter (· ≠ id)) fun x =>
        { x with aliases := x.aliases.filter (· ≠ id) }).update id fun _ => .fresh id).node n := rfl
  rw [hforget, node_update, size_updateAll, node_updateAll fun x => by simp]
  by_cases e : n = id
  · subst e
    by_cases hn : n < s.size <;> simp [hn]
  · simp [e]

@[simp] theorem size_join (s : PathState) (a b : NodeId) : (s.join a b).size = s.size := by
  simp [join]

@[simp] theorem size_taint (s : PathState) (id : NodeId) : (s.taint id).size = s.size := by
  simp [taint]

@[simp] theorem size_markDropped (s : PathState) (ids : List NodeId) (origin : NodeId)
    (loc : Option Location) (manual : Bool) :
    (s.markDropped ids origin loc manual).size = s.size := by
  simp [markDropped]

@[simp] theorem size_forget (s : PathState) (id : NodeId) : (s.forget id).size = s.size := by
  have hforget : (s.forget id).size =
      ((s.updateAll ((s.aliases id).filter (· ≠ id)) fun x =>
        { x with aliases := x.aliases.filter (· ≠ id) }).update id fun _ => .fresh id).size := rfl
  rw [hforget, size_update, size_updateAll]

@[simp] theorem size_kill (s : PathState) (ids : List NodeId) : (s.kill ids).size = s.size :=
  List.foldlRecOn (motive := fun u : PathState => u.size = s.size) ids _ rfl
    fun u hu id _ => (size_forget u id).trans hu

end PathState

end Dangling
