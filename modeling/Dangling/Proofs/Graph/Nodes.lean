import Dangling.Proofs.Graph.FunctionGraph

/-!
# Proofs — Graph — Nodes

Fields are flattened to a bounded depth, so a subtree, which is listed to that depth, holds everything
below its node: what lies below a node of a subtree lies in the subtree.  And the fields of a local
form a tree: each has one parent, so the subtrees of two fields of a node have nothing in common.

* `NodeTable.Roomy`: a bound on how deep fields lie below each node, and their parents; kept as nodes
  are appended.
* `NodeTable.Layered.subtree_subset`: the subtree of a node of a subtree is part of it.
* `NodeTable.Layered.subtrees_apart`: the subtrees of different fields are disjoint.
-/

namespace Dangling

namespace NodeTable

/-- Below `n` fields lie at most `room n` deep, and never deeper than fields are flattened; every
field is the field of one node. -/
structure Roomy (t : NodeTable) (room : NodeId → Nat) : Prop where
  bounded : ∀ n, room n ≤ maxFieldDepth
  child : ∀ n, ∀ c ∈ t.children n, c.2 < t.size ∧ room c.2 < room n
  parent : ∀ n, ∀ c ∈ t.children n, (t.node c.2).parent = some n
  distinct : ∀ n, ((t.children n).map (·.2)).Nodup

/-- Fields form trees, nowhere deeper than they are flattened. -/
def Layered (t : NodeTable) : Prop := ∃ room, t.Roomy room

/-! ### Subtrees -/

theorem self_mem_subtreeWithin (t : NodeTable) (depth : Nat) (n : NodeId) :
    n ∈ t.subtreeWithin depth n := by
  cases depth with
  | zero => exact List.mem_singleton_self n
  | succ depth => exact List.mem_cons_self

theorem self_mem_subtree (t : NodeTable) (n : NodeId) : n ∈ t.subtree n :=
  t.self_mem_subtreeWithin _ n

/-- A subtree is its root and the subtrees of the children. -/
theorem mem_subtreeWithin_succ {t : NodeTable} {depth : Nat} {n m : NodeId} :
    m ∈ t.subtreeWithin (depth + 1) n ↔
      m = n ∨ ∃ c ∈ t.children n, m ∈ t.subtreeWithin depth c.2 := by
  rw [subtreeWithin, List.mem_cons, List.mem_flatMap]

/-- What is no node is taken for the default one. -/
theorem node_eq_default {t : NodeTable} {n : NodeId} (h : t.size ≤ n) : t.node n = default := by
  rw [node, Array.getD_eq_getD_getElem?, Array.getElem?_eq_none h]
  rfl

/-- A child by name is a child. -/
theorem mem_children_of_child? {t : NodeTable} {n c : NodeId} {field : String}
    (h : t.child? n field = some c) : (field, c) ∈ t.children n := by
  obtain ⟨l₁, l₂, he, -⟩ := List.lookup_eq_some_iff.mp h
  rw [children, he]
  exact List.mem_append_right _ List.mem_cons_self

variable {t : NodeTable} {room : NodeId → Nat}

/-- To look deeper than there are fields brings nothing. -/
theorem Roomy.subtreeWithin_succ (h : t.Roomy room) {depth : Nat} {n : NodeId}
    (hn : room n ≤ depth) : t.subtreeWithin (depth + 1) n = t.subtreeWithin depth n := by
  induction depth generalizing n with
  | zero =>
      have hnil : t.children n = [] := List.eq_nil_iff_forall_not_mem.mpr fun c hc => by
        have := (h.child n c hc).2
        omega
      simp only [subtreeWithin, hnil, List.flatMap_nil]
  | succ depth ih =>
      have hbelow : ∀ c ∈ t.children n,
          t.subtreeWithin (depth + 1) c.2 = t.subtreeWithin depth c.2 := fun c hc => by
        have := (h.child n c hc).2
        exact ih (by omega)
      conv => lhs; rw [subtreeWithin]
      rw [subtreeWithin, List.flatMap_def, List.flatMap_def, List.map_congr_left hbelow]

/-- The subtree of a child lies in that of the parent. -/
theorem Layered.subtree_child_subset (h : t.Layered) {n : NodeId} {c : String × NodeId}
    (hc : c ∈ t.children n) : t.subtree c.2 ⊆ t.subtree n := by
  obtain ⟨room, h⟩ := h
  have hroom : room c.2 ≤ 3 := by
    have hbound : room n ≤ 4 := h.bounded n
    have := (h.child n c hc).2
    omega
  have heq : t.subtree c.2 = t.subtreeWithin 3 c.2 := h.subtreeWithin_succ hroom
  intro m hm
  rw [heq] at hm
  exact mem_subtreeWithin_succ.mpr (.inr ⟨c, hc, hm⟩)

/-- **The subtree of a node of a subtree is part of it.** -/
theorem Layered.subtree_subset (h : t.Layered) {n m : NodeId} (hm : m ∈ t.subtree n) :
    t.subtree m ⊆ t.subtree n := by
  have hwithin : ∀ depth n, m ∈ t.subtreeWithin depth n → t.subtree m ⊆ t.subtree n := by
    intro depth
    induction depth with
    | zero =>
        intro n hm
        obtain rfl := List.mem_singleton.mp hm
        exact List.Subset.refl _
    | succ depth ih =>
        intro n hm
        rcases mem_subtreeWithin_succ.mp hm with rfl | ⟨c, hc, hm⟩
        · exact List.Subset.refl _
        · exact List.Subset.trans (ih c.2 hm) (h.subtree_child_subset hc)
  exact hwithin _ n hm

/-! ### Trees -/

/-- There is no more room further down. -/
theorem Roomy.room_le (h : t.Roomy room) {depth : Nat} {n m : NodeId}
    (hm : m ∈ t.subtreeWithin depth n) : room m ≤ room n := by
  induction depth generalizing n with
  | zero => exact Nat.le_of_eq (congrArg room (List.mem_singleton.mp hm))
  | succ depth ih =>
      rcases mem_subtreeWithin_succ.mp hm with rfl | ⟨c, hc, hm⟩
      · exact Nat.le_refl _
      · exact Nat.le_trans (ih hm) (Nat.le_of_lt (h.child n c hc).2)

/-- A node does not lie below its own fields. -/
theorem Roomy.not_below (h : t.Roomy room) {depth : Nat} {n : NodeId} {c : String × NodeId}
    (hc : c ∈ t.children n) : n ∉ t.subtreeWithin depth c.2 := fun hn =>
  Nat.lt_irrefl _ (Nat.lt_of_le_of_lt (h.room_le hn) (h.child n c hc).2)

/-- A node below another one has its parent there. -/
theorem Roomy.parent_below (h : t.Roomy room) {depth : Nat} {n m : NodeId}
    (hm : m ∈ t.subtreeWithin depth n) :
    m = n ∨ ∃ depth' < depth, ∃ q ∈ t.subtreeWithin depth' n, (t.node m).parent = some q := by
  induction depth generalizing n with
  | zero => exact .inl (List.mem_singleton.mp hm)
  | succ depth ih =>
      rcases mem_subtreeWithin_succ.mp hm with rfl | ⟨c, hc, hm⟩
      · exact .inl rfl
      right
      rcases ih hm with rfl | ⟨depth', hlt, q, hq, hp⟩
      · exact ⟨0, Nat.succ_pos _, n, List.mem_singleton_self n, h.parent n c hc⟩
      · exact ⟨depth' + 1, Nat.succ_lt_succ hlt, q, mem_subtreeWithin_succ.mpr (.inr ⟨c, hc, hq⟩), hp⟩

/-- Two fields of a node with a common node below them are one. -/
theorem Roomy.eq_of_below (h : t.Roomy room) {n : NodeId} {c d : String × NodeId}
    (hc : c ∈ t.children n) (hd : d ∈ t.children n) (depth : Nat) :
    ∀ {depth' : Nat} {m : NodeId}, m ∈ t.subtreeWithin depth c.2 → m ∈ t.subtreeWithin depth' d.2 →
      c.2 = d.2 := by
  induction depth using Nat.strongRecOn with
  | ind depth ih =>
      -- from the common node up to its parent, until one of the two fields is met
      intro depth' m hmc hmd
      rcases h.parent_below hmc with rfl | ⟨k, hk, q, hq, hp⟩
      · rcases h.parent_below hmd with e | ⟨k', -, q', hq', hp'⟩
        · exact e
        · obtain rfl := Option.some.inj (hp'.symm.trans (h.parent n c hc))
          exact absurd hq' (h.not_below hd)
      · rcases h.parent_below hmd with rfl | ⟨k', -, q', hq', hp'⟩
        · obtain rfl := Option.some.inj (hp.symm.trans (h.parent n d hd))
          exact absurd hq (h.not_below hc)
        · obtain rfl := Option.some.inj (hp.symm.trans hp')
          exact ih k hk hq hq'

theorem Layered.not_mem_subtree_child (h : t.Layered) {n : NodeId} {c : String × NodeId}
    (hc : c ∈ t.children n) : n ∉ t.subtree c.2 := by
  obtain ⟨room, h⟩ := h
  exact h.not_below hc

/-- **The subtrees of different fields are disjoint**, to whatever depth they are listed. -/
theorem Layered.subtrees_apart (h : t.Layered) (n : NodeId) (depth : Nat) :
    (t.children n).Pairwise fun c d =>
      ∀ m ∈ t.subtreeWithin depth c.2, m ∉ t.subtreeWithin depth d.2 := by
  obtain ⟨room, h⟩ := h
  have hne : (t.children n).Pairwise fun c d => c.2 ≠ d.2 := List.pairwise_map.mp (h.distinct n)
  refine hne.imp_of_mem fun hc hd hcd m hmc hmd => hcd (h.eq_of_below hc hd depth hmc hmd)

/-! ### Flattening -/

theorem size_addChild (ds : Declarations) (t : NodeTable) (p : NodeId) (field : String) (ty : Ty) :
    (t.addChild ds p field ty).size = t.size + 1 := by
  simp [addChild, size]

/-- The new node, the parent with one child more, and the others as they were. -/
theorem node_addChild (ds : Declarations) (t : NodeTable) {p : NodeId} (hp : p < t.size)
    (field : String) (ty : Ty) (n : NodeId) :
    (t.addChild ds p field ty).node n =
      if n = t.size then
        { id := t.size, ty, base := (t.node p).base, parent := some p, field := some field,
          path := (t.node p).path ++ "." ++ field,
          label := .text ((t.node p).label.shown ++ "." ++ field), needsDrop := ty.needsDrop ds }
      else if n = p then { t.node p with children := t.children p ++ [(field, t.size)] }
      else t.node n := by
  simp only [addChild, node, size, children, Array.getD_eq_getD_getElem?, Array.getElem?_push,
    Array.size_modify, Array.getElem?_modify]
  by_cases hn : n = t.nodes.size
  · simp [hn]
  · by_cases hnp : n = p
    · subst hnp
      have hlt : n < t.nodes.size := hp
      simp [hn, hlt]
    · simp [hn, hnp, Ne.symm hnp]

/-- The new child is the last. -/
theorem children_addChild (ds : Declarations) (t : NodeTable) {p : NodeId} (hp : p < t.size)
    (field : String) (ty : Ty) (n : NodeId) :
    (t.addChild ds p field ty).children n =
      if n = t.size then []
      else if n = p then t.children p ++ [(field, t.size)] else t.children n := by
  rw [children, node_addChild ds t hp]
  split
  · rfl
  · split <;> rfl

/-- A child is one that its node had, or the new one. -/
theorem mem_children_addChild (ds : Declarations) (t : NodeTable) {p : NodeId} (hp : p < t.size)
    {field : String} {ty : Ty} {n : NodeId} {c : String × NodeId} :
    c ∈ (t.addChild ds p field ty).children n ↔
      n ≠ t.size ∧ (c ∈ t.children n ∨ n = p ∧ c = (field, t.size)) := by
  rw [children_addChild ds t hp]
  split
  case isTrue hn => simp [hn]
  case isFalse hn =>
    split
    case isTrue e =>
      subst e
      simp [hn]
    case isFalse e => simp [hn, e]

theorem parent_addChild (ds : Declarations) (t : NodeTable) {p : NodeId} (hp : p < t.size)
    (field : String) (ty : Ty) (n : NodeId) :
    ((t.addChild ds p field ty).node n).parent =
      if n = t.size then some p else (t.node n).parent := by
  rw [node_addChild ds t hp]
  split
  · rfl
  split
  case isTrue e => rw [e]
  case isFalse => rfl

/-- One more field below a node that has room for it. -/
theorem Roomy.addChild (h : t.Roomy room) (ds : Declarations) {p : NodeId} (hp : p < t.size)
    (hroom : 0 < room p) (field : String) (ty : Ty) :
    (t.addChild ds p field ty).Roomy fun n => if n = t.size then room p - 1 else room n := by
  refine ⟨fun n => ?_, fun n c hc => ?_, fun n c hc => ?_, fun n => ?_⟩
  · split
    · exact Nat.le_trans (Nat.sub_le _ _) (h.bounded p)
    · exact h.bounded n
  · obtain ⟨hn, hold | ⟨rfl, rfl⟩⟩ := (mem_children_addChild ds t hp).mp hc
    · obtain ⟨hlt, hroom⟩ := h.child n c hold
      rw [size_addChild, if_neg (Nat.ne_of_lt hlt), if_neg hn]
      exact ⟨Nat.lt_succ_of_lt hlt, hroom⟩
    · rw [size_addChild, if_pos rfl, if_neg hn]
      exact ⟨Nat.lt_succ_self _, Nat.sub_lt hroom Nat.one_pos⟩
  · rw [parent_addChild ds t hp]
    obtain ⟨-, hold | ⟨rfl, rfl⟩⟩ := (mem_children_addChild ds t hp).mp hc
    · rw [if_neg (Nat.ne_of_lt (h.child n c hold).1), h.parent n c hold]
    · rw [if_pos rfl]
  · rw [children_addChild ds t hp]
    split
    · exact List.nodup_nil
    split
    case isFalse => exact h.distinct n
    case isTrue e =>
      rw [List.map_append, List.nodup_append]
      refine ⟨h.distinct p, List.pairwise_singleton _ _, fun a ha b hb => ?_⟩
      obtain ⟨c, hc, rfl⟩ := List.mem_map.mp ha
      obtain rfl := List.mem_singleton.mp hb
      exact Nat.ne_of_lt (h.child p c hc).1

/-- `t'` has the nodes of `t`, and perhaps more, with the same room below those of `t`. -/
def Extends (t : NodeTable) (room : NodeId → Nat) (t' : NodeTable) : Prop :=
  t.size ≤ t'.size ∧ ∃ room', t'.Roomy room' ∧ ∀ n < t.size, room' n = room n

/-- The fields of a type below a node that has room for them. -/
theorem Roomy.flatten (ds : Declarations) (depth : Nat) :
    ∀ {t : NodeTable} {room : NodeId → Nat} {id : NodeId} (ty : Ty), t.Roomy room → id < t.size →
      depth ≤ room id → t.Extends room (flatten ds depth t id ty) := by
  induction depth with
  | zero =>
      intro t room id ty h hid _
      rw [NodeTable.flatten]
      exact ⟨Nat.le_refl _, room, h, fun _ _ => rfl⟩
  | succ depth ih =>
      intro t room id ty h hid hdepth
      rw [NodeTable.flatten]
      split
      case isFalse => exact ⟨Nat.le_refl _, room, h, fun _ _ => rfl⟩
      case isTrue =>
        -- field by field: the fields so far have left the room below `id` as it was
        refine List.foldlRecOn (motive := fun u : NodeTable => t.Extends room u) (ty.fields ds) _
          ⟨Nat.le_refl _, room, h, fun _ _ => rfl⟩ fun u hext f _ => ?_
        obtain ⟨hsize, roomU, hu, hsame⟩ := hext
        have hidU : id < u.size := Nat.lt_of_lt_of_le hid hsize
        have hroomId : roomU id = room id := hsame id hid
        have hadd := hu.addChild ds hidU (by omega) f.1 f.2
        have hnew : u.size < (u.addChild ds id f.1 f.2).size := by
          rw [size_addChild]
          exact Nat.lt_succ_self _
        obtain ⟨hsize', room', h', hsame'⟩ := ih f.2 hadd hnew (by rw [if_pos rfl]; omega)
        rw [size_addChild] at hsize' hsame'
        refine ⟨Nat.le_trans (Nat.le_succ_of_le hsize) hsize', room', h', fun n hn => ?_⟩
        have hlt : n < u.size := Nat.lt_of_lt_of_le hn hsize
        rw [hsame' n (Nat.lt_succ_of_lt hlt), ← hsame n hn]
        exact if_neg (Nat.ne_of_lt hlt)

/-- **The fields of a function's locals form trees, nowhere deeper than they are flattened.** -/
theorem layered_ofLocals (ds : Declarations) (locals : List LocalDecl) :
    (ofLocals ds locals).Layered := by
  -- the table before the fields are added
  obtain ⟨base, hbase⟩ : ∃ base : NodeTable,
      base = ⟨(locals.zipIdx.map fun x => localNode ds x.2 x.1).toArray⟩ := ⟨_, rfl⟩
  have hlocals : ofLocals ds locals =
      locals.zipIdx.foldl (fun t x => flatten ds maxFieldDepth t x.2 x.1.ty) base := by
    rw [hbase]
    rfl
  have hsize : base.size = locals.length := by
    rw [hbase]
    simp [size]
  have hchildren : ∀ n, base.children n = [] := fun n => by
    rw [hbase, children, node, Array.getD]
    split
    · simp [localNode]
    · rfl
  have hroomy : base.Roomy fun _ => maxFieldDepth := by
    have hnone : ∀ n, ∀ c, c ∉ base.children n := fun n c => by
      rw [hchildren n]
      exact List.not_mem_nil
    refine ⟨fun _ => Nat.le_refl _, fun n c hc => absurd hc (hnone n c),
      fun n c hc => absurd hc (hnone n c), fun n => ?_⟩
    rw [hchildren n]
    exact List.nodup_nil
  have hext : base.Extends (fun _ => maxFieldDepth) (ofLocals ds locals) := by
    rw [hlocals]
    refine List.foldlRecOn
      (motive := fun u : NodeTable => base.Extends (fun _ => maxFieldDepth) u) locals.zipIdx _
      ⟨Nat.le_refl _, _, hroomy, fun _ _ => rfl⟩ fun u hext x hx => ?_
    obtain ⟨hsizeU, room, hu, hsame⟩ := hext
    have hlt : x.2 < base.size := by
      rw [hsize]
      exact List.snd_lt_of_mem_zipIdx hx
    obtain ⟨hsize', room', h', hsame'⟩ := hu.flatten ds maxFieldDepth x.1.ty
      (Nat.lt_of_lt_of_le hlt hsizeU) (Nat.le_of_eq (hsame x.2 hlt).symm)
    exact ⟨Nat.le_trans hsizeU hsize', room', h', fun n hn =>
      (hsame' n (Nat.lt_of_lt_of_le hn hsizeU)).trans (hsame n hn)⟩
  obtain ⟨-, room, h, -⟩ := hext
  exact ⟨room, h⟩

end NodeTable

theorem FunctionGraph.Built.layered {ds : Declarations} {b : Body} {g : FunctionGraph}
    (h : FunctionGraph.Built ds b g) : g.nodes.Layered := by
  rw [h.nodes_eq]
  exact NodeTable.layered_ofLocals _ _

end Dangling
