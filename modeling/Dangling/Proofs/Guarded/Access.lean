import Dangling.Proofs.Graph.Locals
import Dangling.Proofs.Path.Classes

/-!
# Proofs — Guarded — Access

Node tables and path states with guarded access.  Where the operations of a path take a default for a
node that is not there, the operations here, which do the same step by step, stop with a `Lapse`.  In a
table that is `Closed` and a state that is `InBounds` none of them stops: each gives what its unguarded
counterpart gives, and leaves the state in bounds.

A default cannot be told from what is there by looking at a result, so an operation and its guarded
reading are two definitions.  One lemma ties them together, `gives_` before the name of the operation or
`_eq_ok` after it, and what is proved elsewhere rests on these lemmas only: no guarded reading is
unfolded outside the modules that define them.

* `Lapse`: an access to something that is not there.
* `Gives`: what a guarded computation comes to, and a property of it; `Gives.bind`, `Gives.foldlM` put
  computations together.
* `PathState.InBounds`: every node that a state speaks of is in the table.
* `gives_lookup`: the node of a declared place.
* `gives_join`, `gives_kill`, `gives_taint`, `gives_markDropped`: the changes of a state.
-/

namespace Dangling

/-- An access to something that is not there. -/
inductive Lapse where
  /-- The base of the place is no declared local. -/
  | undeclared (place : Place)
  /-- The node table has no such node. -/
  | noNode (id : NodeId)
  /-- The path state has no such node. -/
  | noState (id : NodeId)
  | noBlock (id : BlockId)
  /-- The block belongs to no class of blocks. -/
  | noFather (id : BlockId)
  deriving DecidableEq, Repr

namespace Guarded

/-! ### Guarded computations -/

/-- A guarded computation gives `a`, of which `P` holds. -/
structure Gives {α : Type} (x : Except Lapse α) (a : α) (P : α → Prop) : Prop where
  ok : x = .ok a
  holds : P a

namespace Gives

variable {α β : Type} {x : Except Lapse α} {a : α} {P : α → Prop} {b : β} {Q : β → Prop}

/-- What is at hand is given. -/
theorem pure (h : P a) : Gives (Pure.pure a) a P := ⟨rfl, h⟩

/-- One computation after another; the second may use what holds of the result of the first. -/
theorem bind {f : α → Except Lapse β} (hx : Gives x a P) (hf : P a → Gives (f a) b Q) :
    Gives (x >>= f) b Q := by
  rw [hx.ok]
  exact hf hx.holds

/-- As `Gives.bind`, after a computation of which only the result matters. -/
theorem bind_ok {f : α → Except Lapse β} (hx : x = .ok a) (hf : Gives (f a) b Q) :
    Gives (x >>= f) b Q := by
  rw [hx]
  exact hf

/-- Less may be said of the result. -/
theorem imp {P' : α → Prop} (h : Gives x a P) (hP : P a → P' a) : Gives x a P' :=
  ⟨h.ok, hP h.holds⟩

/-- What every step of a loop keeps, the loop keeps. -/
theorem foldlM {f : α → β → Except Lapse α} {g : α → β → α} (xs : List β) (ha : P a)
    (h : ∀ a x, x ∈ xs → P a → Gives (f a x) (g a x) P) :
    Gives (xs.foldlM f a) (xs.foldl g a) P := by
  induction xs generalizing a with
  | nil => exact .pure ha
  | cons x xs ih =>
      rw [List.foldlM_cons, List.foldl_cons]
      refine (h a x List.mem_cons_self ha).bind fun hx => ?_
      exact ih hx fun a y hy => h a y (List.mem_cons_of_mem _ hy)

/-- What holds of every result holds of all. -/
theorem mapM {f : α → Except Lapse β} {g : α → β} {xs : List α}
    (h : ∀ x ∈ xs, Gives (f x) (g x) Q) :
    Gives (xs.mapM f) (xs.map g) fun ys => ∀ y ∈ ys, Q y := by
  induction xs with
  | nil => exact .pure fun y hy => absurd hy List.not_mem_nil
  | cons x xs ih =>
      obtain ⟨hx, hxs⟩ := List.forall_mem_cons.mp h
      rw [List.mapM_cons, List.map_cons]
      refine hx.bind fun hy => (ih hxs).bind fun hys => .pure ?_
      exact List.forall_mem_cons.mpr ⟨hy, hys⟩

/-- Lists that are in order one by one are so together. -/
theorem flatMapM {f : α → Except Lapse (List β)} {g : α → List β} {xs : List α}
    (h : ∀ x ∈ xs, Gives (f x) (g x) fun ys => ∀ y ∈ ys, Q y) :
    Gives (xs.flatMapM f) (xs.flatMap g) fun ys => ∀ y ∈ ys, Q y := by
  induction xs with
  | nil => exact .pure fun y hy => absurd hy List.not_mem_nil
  | cons x xs ih =>
      obtain ⟨hx, hxs⟩ := List.forall_mem_cons.mp h
      rw [List.flatMapM_cons, List.flatMap_cons]
      refine hx.bind fun hys => (ih hxs).bind fun hzs => .pure ?_
      exact List.forall_mem_append.mpr ⟨hys, hzs⟩

/-- Of results that are left out nothing is said. -/
theorem filterMapM {f : α → Except Lapse (Option β)} {g : α → Option β} {xs : List α}
    (h : ∀ x ∈ xs, Gives (f x) (g x) fun y => ∀ z ∈ y, Q z) :
    Gives (xs.filterMapM f) (xs.filterMap g) fun ys => ∀ y ∈ ys, Q y := by
  induction xs with
  | nil => exact .pure fun y hy => absurd hy List.not_mem_nil
  | cons x xs ih =>
      obtain ⟨hx, hxs⟩ := List.forall_mem_cons.mp h
      rw [List.filterMapM_cons, List.filterMap_cons]
      refine hx.bind fun hy => ?_
      cases hg : g x with
      | none => exact ih hxs
      | some z =>
          exact (ih hxs).bind fun hzs => .pure (List.forall_mem_cons.mpr ⟨hy z hg, hzs⟩)

end Gives

/-- A search that stops at the first hit stops nowhere else. -/
theorem anyM_eq_ok {α : Type} {f : α → Except Lapse Bool} {g : α → Bool} {xs : List α}
    (h : ∀ x ∈ xs, f x = .ok (g x)) : xs.anyM f = .ok (xs.any g) := by
  induction xs with
  | nil => rfl
  | cons x xs ih =>
      obtain ⟨hx, hxs⟩ := List.forall_mem_cons.mp h
      rw [List.anyM, hx, List.any_cons]
      cases g x with
      | true => rfl
      | false => exact ih hxs

/-- The same for the first hit itself. -/
theorem findM?_eq_ok {α : Type} {f : α → Except Lapse Bool} {g : α → Bool} {xs : List α}
    (h : ∀ x ∈ xs, f x = .ok (g x)) : xs.findM? f = .ok (xs.find? g) := by
  induction xs with
  | nil => rfl
  | cons x xs ih =>
      obtain ⟨hx, hxs⟩ := List.forall_mem_cons.mp h
      rw [List.findM?, hx, List.find?_cons]
      cases g x with
      | true => rfl
      | false => exact ih hxs

/-! ### Node tables -/

/-- The node of a number. -/
def node (t : NodeTable) (id : NodeId) : Except Lapse Node :=
  match t.nodes[id]? with
  | some n => .ok n
  | none => .error (.noNode id)

/-- `id` and the nodes at most `depth` fields below it, in field order. -/
def subtreeWithin (t : NodeTable) : (depth : Nat) → NodeId → Except Lapse (List NodeId)
  | 0, id => do
    let _ ← node t id
    return [id]
  | depth + 1, id => do
    let n ← node t id
    let below ← n.children.flatMapM fun c => subtreeWithin t depth c.2
    return id :: below

/-- `id` and all nodes below it, in field order. -/
def subtree (t : NodeTable) (id : NodeId) : Except Lapse (List NodeId) :=
  subtreeWithin t maxFieldDepth id

/-- Descends from `id` along fields as far as nodes exist. -/
def childAt (t : NodeTable) : NodeId → List String → Except Lapse NodeId
  | id, [] => return id
  | id, f :: fs => do
    let n ← node t id
    match n.child? f with
    | some c => childAt t c fs
    | none => return id

/-- The node that steps lead to from `id`, and whether they pass a dereference. -/
def follow (t : NodeTable) : (descend : Bool) → NodeId → List Projection →
    Except Lapse (NodeId × Bool)
  | _, id, [] => return (id, false)
  | _, id, .deref :: _ => return (id, true)
  | true, id, .field f :: rest => do
    let n ← node t id
    match n.child? f with
    | some c => follow t true c rest
    | none => follow t false id rest
  | false, id, .field _ :: rest => follow t false id rest

/-- The node of a place, and whether the place lies behind a dereference of it. -/
def lookup (t : NodeTable) (p : Place) : Except Lapse (NodeId × Bool) :=
  if t.declares p then follow t true p.base p.steps else .error (.undeclared p)

/-- The local and the fields that lead to `id`, going up at most `depth` parents. -/
def fieldPathWithin (t : NodeTable) : (depth : Nat) → NodeId → (fields : List String) →
    Except Lapse (NodeId × List String)
  | 0, id, fields => do
    let _ ← node t id
    return (id, fields)
  | depth + 1, id, fields => do
    let n ← node t id
    match n.parent with
    | some p => fieldPathWithin t depth p (n.field.getD "" :: fields)
    | none => return (id, fields)

section Tables

variable {t : NodeTable} {id : NodeId}

/-- A node of the table is there. -/
theorem node_eq_ok (h : id < t.size) : node t id = .ok (t.node id) := by
  have hget : t.nodes[id]? = some (t.nodes[id]) := Array.getElem?_eq_getElem h
  rw [node, hget, NodeTable.node, Array.getD_eq_getD_getElem?, hget]
  rfl

/-- A closed table has the children of its nodes. -/
theorem child_lt (ht : t.Closed) {field : String} {c : NodeId}
    (h : (t.node id).child? field = some c) : c < t.size :=
  ht.child id (field, c) (NodeTable.mem_children_of_child? h)

/-- By induction on the depth: the descent meets nodes of the table only. -/
theorem gives_subtreeWithin (ht : t.Closed) (depth : Nat) : ∀ {id : NodeId}, id < t.size →
    Gives (subtreeWithin t depth id) (t.subtreeWithin depth id) fun ids => ∀ n ∈ ids, n < t.size := by
  induction depth with
  | zero =>
      intro id h
      refine .bind_ok (node_eq_ok h) (.pure fun n hn => ?_)
      obtain rfl := List.mem_singleton.mp hn
      exact h
  | succ depth ih =>
      intro id h
      refine .bind_ok (node_eq_ok h) ?_
      refine (Gives.flatMapM fun c hc => ih (ht.child id c hc)).bind fun hbelow => .pure ?_
      exact List.forall_mem_cons.mpr ⟨h, hbelow⟩

theorem gives_subtree (ht : t.Closed) (h : id < t.size) :
    Gives (subtree t id) (t.subtree id) fun ids => ∀ n ∈ ids, n < t.size :=
  gives_subtreeWithin ht maxFieldDepth h

/-- Fields lead to nodes of the table; where there is no node, the descent has ended. -/
theorem gives_childAt (ht : t.Closed) (fields : List String) : ∀ {id : NodeId}, id < t.size →
    Gives (childAt t id fields) (t.childAt id fields) (· < t.size) := by
  induction fields with
  | nil => exact fun h => .pure h
  | cons f fs ih =>
      intro id h
      rw [NodeTable.childAt, NodeTable.child?]
      refine .bind_ok (node_eq_ok h) ?_
      cases hc : (t.node id).child? f with
      | some c => exact ih (child_lt ht hc)
      | none => exact .pure h

/-- By induction on the steps of a place. -/
theorem gives_follow (ht : t.Closed) (steps : List Projection) : ∀ {descend : Bool} {id : NodeId},
    id < t.size → Gives (follow t descend id steps) (t.follow descend id steps) (·.1 < t.size) := by
  induction steps with
  | nil =>
      intro descend id h
      cases descend <;> exact .pure h
  | cons step steps ih =>
      intro descend id h
      cases step with
      | deref => cases descend <;> exact .pure h
      | field f =>
          cases descend with
          -- below a field without a node, the steps are only searched for a dereference
          | false => exact ih h
          | true =>
              rw [NodeTable.follow, NodeTable.child?]
              refine .bind_ok (node_eq_ok h) ?_
              cases hc : (t.node id).child? f with
              | some c => exact ih (child_lt ht hc)
              | none => exact ih h

/-- **A declared place has a node.** -/
theorem gives_lookup (ht : t.Closed) {p : Place} (hp : t.declares p = true) :
    Gives (lookup t p) (t.lookup p) (·.1 < t.size) := by
  rw [lookup, if_pos hp]
  exact gives_follow ht p.steps (of_decide_eq_true (Bool.and_eq_true_iff.mp hp).1)

/-- The way up from a node meets its parents, which are in the table too. -/
theorem fieldPathWithin_eq_ok (ht : t.Closed) (depth : Nat) : ∀ {id : NodeId} {fields : List String},
    id < t.size → fieldPathWithin t depth id fields = .ok (t.fieldPathWithin depth id fields) := by
  induction depth with
  | zero =>
      intro id fields h
      rw [fieldPathWithin, node_eq_ok h]
      rfl
  | succ depth ih =>
      intro id fields h
      rw [fieldPathWithin, node_eq_ok h, NodeTable.fieldPathWithin]
      dsimp only [bind, Except.bind]
      cases hp : (t.node id).parent with
      | some p => exact ih (ht.parent id p hp)
      | none => rfl

end Tables

end Guarded

/-! ### States in bounds -/

/-- The nodes that are named where something is known about a node are among `size` nodes. -/
structure NodeState.InBounds (size : Nat) (n : NodeState) : Prop where
  aliases : ∀ m ∈ n.aliases, m < size
  origin : ∀ m, n.fate.origin? = some m → m < size

namespace PathState

/-- Every node that a path state speaks of is a node of the table. -/
structure InBounds (t : NodeTable) (s : PathState) : Prop where
  size : s.size = t.size
  node : ∀ id, (s.node id).InBounds t.size
  values : ∀ x ∈ s.values, x.1 < t.size

variable {t : NodeTable} {s : PathState} {id : NodeId}

/-- At the entry every node is alone in its class. -/
theorem inBounds_initial (t : NodeTable) : (PathState.initial t.size).InBounds t := by
  have hsize := size_initial t.size
  refine ⟨hsize, fun n => ?_, fun x hx => absurd hx List.not_mem_nil⟩
  by_cases hn : n < t.size
  · rw [node_initial hn]
    refine ⟨fun m hm => ?_, fun m hm => ?_⟩
    · obtain rfl := List.mem_singleton.mp hm
      exact hn
    · cases hm
  · -- outside the table the default is read, which names no node
    rw [node_of_size_le (by rw [hsize]; exact Nat.le_of_not_lt hn)]
    exact ⟨fun m hm => absurd hm List.not_mem_nil, fun m hm => by cases hm⟩

/-- A change of one node keeps the bounds if it brings in no node from outside. -/
theorem InBounds.update (h : s.InBounds t) {f : NodeState → NodeState}
    (hf : ∀ n : NodeState, n.InBounds t.size → (f n).InBounds t.size) :
    (s.update id f).InBounds t := by
  refine ⟨(size_update s id f).trans h.size, fun n => ?_, h.values⟩
  rw [node_update]
  split
  · exact hf _ (h.node n)
  · exact h.node n

theorem InBounds.forgetValue (h : s.InBounds t) : (s.forgetValue id).InBounds t :=
  ⟨h.size, h.node, fun x hx => h.values x (List.mem_filter.mp hx).1⟩

/-- A value is kept for a node of the table. -/
theorem InBounds.setKnown? (h : s.InBounds t) (hid : id < t.size) (v : Option Scalar) :
    (s.setKnown? id v).InBounds t := by
  cases v with
  | none => exact h
  | some v => exact ⟨h.size, h.node, List.forall_mem_cons.mpr ⟨hid, h.forgetValue.values⟩⟩

end PathState

namespace Guarded

/-! ### Path states -/

/-- What is known about a node. -/
def nodeState (s : PathState) (id : NodeId) : Except Lapse NodeState :=
  match s.nodes[id]? with
  | some n => .ok n
  | none => .error (.noState id)

/-- Changes what is known about a node. -/
def update (s : PathState) (id : NodeId) (f : NodeState → NodeState) : Except Lapse PathState := do
  let _ ← nodeState s id
  return s.update id f

/-- Changes what is known about several nodes, in order. -/
def updateAll (s : PathState) (ids : List NodeId) (f : NodeState → NodeState) :
    Except Lapse PathState :=
  ids.foldlM (fun s id => update s id f) s

/-- The nodes that name the same memory as `id`. -/
def aliases (s : PathState) (id : NodeId) : Except Lapse (List NodeId) := do
  let n ← nodeState s id
  return n.aliases

/-- The members of the classes of `a` and `b`. -/
def merged (s : PathState) (a b : NodeId) : Except Lapse (List NodeId) := do
  let left ← aliases s a
  let right ← aliases s b
  return Sorted.union compare left right

/-- Makes one class of the classes of `a` and `b`. -/
def join (s : PathState) (a b : NodeId) : Except Lapse PathState := do
  let members ← merged s a b
  let tainted ← members.anyM fun m => do
    let n ← nodeState s m
    return n.tainted
  updateAll s members fun n => { n with aliases := members, tainted := n.tainted || tainted }

/-- Takes a node out of its class and forgets all about it. -/
def forget (s : PathState) (id : NodeId) : Except Lapse PathState := do
  let members ← aliases s id
  let s ← updateAll s (members.filter (· ≠ id)) fun n =>
    { n with aliases := n.aliases.filter (· ≠ id) }
  let s ← update s id fun _ => .fresh id
  return s.forgetValue id

/-- Forgets all about nodes that are about to be overwritten. -/
def kill (s : PathState) (ids : List NodeId) : Except Lapse PathState := ids.foldlM forget s

/-- The memory of a node was handled by hand. -/
def taint (s : PathState) (id : NodeId) : Except Lapse PathState := do
  let members ← aliases s id
  updateAll s members fun n => { n with tainted := true }

/-- The memory of a node, or that of the node whose drop released it, was handled by hand. -/
def isTainted (s : PathState) (id : NodeId) : Except Lapse Bool := do
  let n ← nodeState s id
  if n.tainted then return true
  else
    match n.fate.origin? with
    | some origin => do
      let n ← nodeState s origin
      return n.tainted
    | none => return false

/-- The memory of a node is released. -/
def isDropped (s : PathState) (id : NodeId) : Except Lapse Bool := do
  let n ← nodeState s id
  return n.isDropped

/-- The memory of nodes is released by a drop of `origin`. -/
def markDropped (s : PathState) (ids : List NodeId) (origin : NodeId) (loc : Option Location)
    (manual : Bool) : Except Lapse PathState :=
  updateAll s ids fun n => { n with fate := .dropped origin loc, tainted := n.tainted || manual }

section States

open PathState (InBounds)

variable {t : NodeTable} {s : PathState} {id a b : NodeId}

/-- A state in bounds has an entry for every node of the table. -/
theorem nodeState_eq_ok (hs : s.InBounds t) (h : id < t.size) :
    nodeState s id = .ok (s.node id) := by
  rw [← hs.size] at h
  have hget : s.nodes[id]? = some (s.nodes[id]) := Array.getElem?_eq_getElem h
  rw [nodeState, hget, PathState.node_eq, hget]
  rfl

theorem gives_update (hs : s.InBounds t) (h : id < t.size) {f : NodeState → NodeState}
    (hf : ∀ n : NodeState, n.InBounds t.size → (f n).InBounds t.size) :
    Gives (update s id f) (s.update id f) (InBounds t) :=
  .bind_ok (nodeState_eq_ok hs h) (.pure (hs.update hf))

/-- So does a change of many. -/
theorem gives_updateAll (hs : s.InBounds t) {ids : List NodeId} (h : ∀ n ∈ ids, n < t.size)
    {f : NodeState → NodeState}
    (hf : ∀ n : NodeState, n.InBounds t.size → (f n).InBounds t.size) :
    Gives (updateAll s ids f) (s.updateAll ids f) (InBounds t) :=
  .foldlM ids hs fun _ id hid hs => gives_update hs (h id hid) hf

/-- The members of a class are in the table. -/
theorem gives_aliases (hs : s.InBounds t) (h : id < t.size) :
    Gives (aliases s id) (s.aliases id) fun ids => ∀ n ∈ ids, n < t.size :=
  .bind_ok (nodeState_eq_ok hs h) (.pure (hs.node id).aliases)

/-- So are the members of two. -/
theorem gives_merged (hs : s.InBounds t) (ha : a < t.size) (hb : b < t.size) :
    Gives (merged s a b) (s.merged a b) fun ids => ∀ n ∈ ids, n < t.size :=
  (gives_aliases hs ha).bind fun hleft => (gives_aliases hs hb).bind fun hright =>
    .pure fun n hn => (PathState.mem_merged.mp hn).elim (hleft n) (hright n)

/-- A join reads all members of both classes and gives each of them the new list. -/
theorem gives_join (hs : s.InBounds t) (ha : a < t.size) (hb : b < t.size) :
    Gives (join s a b) (s.join a b) (InBounds t) := by
  refine (gives_merged hs ha hb).bind fun hmembers => ?_
  have htainted : ((s.merged a b).anyM fun m => do return (← nodeState s m).tainted) =
      .ok ((s.merged a b).any fun m => (s.node m).tainted) := by
    refine anyM_eq_ok fun m hm => ?_
    rw [nodeState_eq_ok hs (hmembers m hm)]
    rfl
  -- every member gets the list of all members for its class
  exact .bind_ok htainted (gives_updateAll hs hmembers fun n hn => ⟨hmembers, hn.origin⟩)

/-- To forget a node reaches for the members of its class first. -/
theorem gives_forget (hs : s.InBounds t) (h : id < t.size) :
    Gives (forget s id) (s.forget id) (InBounds t) := by
  refine (gives_aliases hs h).bind fun hmembers => ?_
  refine (gives_updateAll hs (fun n hn => hmembers n (List.mem_filter.mp hn).1) fun n hn => ?_).bind
    fun hs => (gives_update hs h fun n hn => ?_).bind fun hs => .pure hs.forgetValue
  · exact ⟨fun m hm => hn.aliases m (List.mem_filter.mp hm).1, hn.origin⟩
  · refine ⟨fun m hm => ?_, fun m hm => ?_⟩
    · obtain rfl := List.mem_singleton.mp hm
      exact h
    · cases hm

/-- What one forgetting keeps, a whole overwriting keeps. -/
theorem gives_kill (hs : s.InBounds t) {ids : List NodeId} (h : ∀ n ∈ ids, n < t.size) :
    Gives (kill s ids) (s.kill ids) (InBounds t) :=
  .foldlM ids hs fun _ id hid hs => gives_forget hs (h id hid)

/-- A taint spreads over a class, so inside the table. -/
theorem gives_taint (hs : s.InBounds t) (h : id < t.size) :
    Gives (taint s id) (s.taint id) (InBounds t) :=
  (gives_aliases hs h).bind fun hmembers => gives_updateAll hs hmembers fun _ hn => ⟨hn.aliases, hn.origin⟩

/-- Two accesses: the node, and the node whose drop released it. -/
theorem isTainted_eq_ok (hs : s.InBounds t) (h : id < t.size) :
    isTainted s id = .ok (s.isTainted id) := by
  rw [isTainted, nodeState_eq_ok hs h, PathState.isTainted]
  dsimp only [bind, Except.bind]
  cases (s.node id).tainted with
  | true => rfl
  | false =>
      cases ho : (s.node id).fate.origin? with
      | none => rfl
      | some origin =>
          -- the second access: the node whose drop released the memory is in the table as well
          dsimp only
          rw [nodeState_eq_ok hs ((hs.node id).origin origin ho)]
          rfl

theorem isDropped_eq_ok (hs : s.InBounds t) (h : id < t.size) :
    isDropped s id = .ok (s.isDropped id) := by
  rw [isDropped, nodeState_eq_ok hs h]
  rfl

/-- The one that is named as the origin has to be in the table too. -/
theorem gives_markDropped (hs : s.InBounds t) {ids : List NodeId} (h : ∀ n ∈ ids, n < t.size)
    {origin : NodeId} (ho : origin < t.size) (loc : Option Location) (manual : Bool) :
    Gives (markDropped s ids origin loc manual) (s.markDropped ids origin loc manual)
      (InBounds t) := by
  refine gives_updateAll hs h fun n hn => ⟨hn.aliases, fun m hm => ?_⟩
  obtain rfl := Option.some.inj hm
  exact ho

end States

end Guarded

end Dangling
