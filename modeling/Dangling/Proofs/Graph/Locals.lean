import Dangling.Proofs.Graph.Nodes

/-!
# Proofs — Graph — Locals

What the node table of a function's locals holds from first to last.  The table starts with the bare
locals and grows by one field at a time, always below a node it has; what every such step keeps, the
finished table has (`NodeTable.ofLocals_induct`).

* `NodeTable.Closed`: fields and parents of nodes are nodes, so no walk up or down leaves the table.
* `NodeTable.declares_ofLocals`: a place is declared if its base is the number of a local.
* `NodeTable.Based`: every node is based on the local that it lies below; `NodeTable.Based.induct` is
  the induction from the locals down.
* `NodeTable.label_ofLocals`: if locals are named by texts, every node has a text for a label.
* `NodeTable.node_ofLocals`: a local whose type has no fields of its own keeps its bare node.
-/

namespace Dangling

/-- The local has no name, or its name is a text. -/
def LocalDecl.Legible (d : LocalDecl) : Prop := ∀ name, d.name = some name → ∃ s, name = .text s

namespace NodeTable

/-- The nodes of locals, before they have fields. -/
def bare (ds : Declarations) (locals : List LocalDecl) : NodeTable :=
  ⟨(locals.zipIdx.map fun x => localNode ds x.2 x.1).toArray⟩

theorem size_bare (ds : Declarations) (locals : List LocalDecl) :
    (bare ds locals).size = locals.length := by
  simp [bare, size]

/-- Before fields are added, each local is one node. -/
theorem node_bare (ds : Declarations) (locals : List LocalDecl) (n : NodeId) :
    (bare ds locals).node n = (locals[n]?.map fun d => localNode ds n d).getD default := by
  rw [bare, node, Array.getD_eq_getD_getElem?, List.getElem?_toArray, List.getElem?_map,
    List.getElem?_zipIdx]
  cases locals[n]? with
  | none => rfl
  | some d => simp

theorem parent_bare (ds : Declarations) (locals : List LocalDecl) (n : NodeId) :
    ((bare ds locals).node n).parent = none := by
  rw [node_bare]
  cases locals[n]? <;> rfl

theorem children_bare (ds : Declarations) (locals : List LocalDecl) (n : NodeId) :
    (bare ds locals).children n = [] := by
  rw [children, node_bare]
  cases locals[n]? <;> rfl

/-! ### Growth -/

/-- A property that every appended field keeps is kept as a type is flattened. -/
theorem flatten_induct {motive : NodeTable → Prop} (ds : Declarations)
    (add : ∀ t p field ty, p < t.size → motive t → motive (t.addChild ds p field ty)) (depth : Nat) :
    ∀ {t : NodeTable} {id : NodeId} (ty : Ty), id < t.size → motive t →
      t.size ≤ (flatten ds depth t id ty).size ∧ motive (flatten ds depth t id ty) := by
  induction depth with
  | zero =>
      intro t id ty _ ht
      rw [flatten]
      exact ⟨Nat.le_refl _, ht⟩
  | succ depth ih =>
      intro t id ty hid ht
      rw [flatten]
      split
      case isFalse => exact ⟨Nat.le_refl _, ht⟩
      case isTrue =>
        refine List.foldlRecOn (motive := fun u : NodeTable => t.size ≤ u.size ∧ motive u)
          (ty.fields ds) _ ⟨Nat.le_refl _, ht⟩ fun u hu f _ => ?_
        -- the new field is the last node; its own fields come after it
        have hadd := add u id f.1 f.2 (Nat.lt_of_lt_of_le hid hu.1) hu.2
        have hnew : u.size < (u.addChild ds id f.1 f.2).size := by
          rw [size_addChild]
          exact Nat.lt_succ_self _
        obtain ⟨hsize, hmotive⟩ := ih f.2 hnew hadd
        exact ⟨Nat.le_trans hu.1 (Nat.le_of_lt (Nat.lt_of_lt_of_le hnew hsize)), hmotive⟩

/-- **The induction that a node table is**: first the bare locals, then one field after the other. -/
theorem ofLocals_induct {motive : NodeTable → Prop} (ds : Declarations) (locals : List LocalDecl)
    (bare : motive (bare ds locals))
    (add : ∀ t p field ty, p < t.size → motive t → motive (t.addChild ds p field ty)) :
    motive (ofLocals ds locals) := by
  have hfold : ofLocals ds locals = locals.zipIdx.foldl
      (fun t x => flatten ds maxFieldDepth t x.2 x.1.ty) (NodeTable.bare ds locals) := rfl
  rw [hfold]
  refine (List.foldlRecOn (motive := fun u : NodeTable => locals.length ≤ u.size ∧ motive u)
    locals.zipIdx _ ⟨Nat.le_of_eq (size_bare ds locals).symm, bare⟩ fun u hu x hx => ?_).2
  have hlt : x.2 < u.size := Nat.lt_of_lt_of_le (List.snd_lt_of_mem_zipIdx hx) hu.1
  obtain ⟨hsize, hmotive⟩ := flatten_induct ds add maxFieldDepth x.1.ty hlt hu.2
  exact ⟨Nat.le_trans hu.1 hsize, hmotive⟩

/-! ### Locals and fields -/

/-- The locals come first and have no parents; all other nodes have parents in the table. -/
structure Rooted (t : NodeTable) (locals : Nat) : Prop where
  size : locals ≤ t.size
  root : ∀ n < locals, (t.node n).parent = none
  parent : ∀ n p, (t.node n).parent = some p → p < t.size

/-- A field has a parent, so the roots stay the locals. -/
theorem Rooted.addChild {t : NodeTable} {locals : Nat} (h : t.Rooted locals) (ds : Declarations)
    {p : NodeId} (hp : p < t.size) (field : String) (ty : Ty) :
    (t.addChild ds p field ty).Rooted locals := by
  refine ⟨?_, fun n hn => ?_, fun n q hq => ?_⟩
  · rw [size_addChild]
    exact Nat.le_succ_of_le h.size
  · have hne : n ≠ t.size := Nat.ne_of_lt (Nat.lt_of_lt_of_le hn h.size)
    rw [parent_addChild ds t hp, if_neg hne]
    exact h.root n hn
  · rw [parent_addChild ds t hp] at hq
    rw [size_addChild]
    split at hq
    · obtain rfl := Option.some.inj hq
      exact Nat.lt_succ_of_lt hp
    · exact Nat.lt_succ_of_lt (h.parent n q hq)

/-- **The roots of the table are the locals.** -/
theorem rooted_ofLocals (ds : Declarations) (locals : List LocalDecl) :
    (ofLocals ds locals).Rooted locals.length := by
  refine ofLocals_induct (motive := fun t : NodeTable => t.Rooted locals.length) ds locals ?_
    fun t p field ty hp ht => ht.addChild ds hp field ty
  refine ⟨Nat.le_of_eq (size_bare ds locals).symm, fun n _ => parent_bare ds locals n,
    fun n p hp => ?_⟩
  rw [parent_bare] at hp
  cases hp

/-- A place is declared if its base is the number of a local. -/
theorem declares_ofLocals (ds : Declarations) {locals : List LocalDecl} {p : Place}
    (hp : p.base < locals.length) : (ofLocals ds locals).declares p = true := by
  have h := rooted_ofLocals ds locals
  rw [declares, decide_eq_true (Nat.lt_of_lt_of_le hp h.size), Node.isField, h.root p.base hp]
  rfl

/-- The fields and the parent of a node are nodes. -/
structure Closed (t : NodeTable) : Prop where
  child : ∀ n, ∀ c ∈ t.children n, c.2 < t.size
  parent : ∀ n p, (t.node n).parent = some p → p < t.size

/-- **Parents and children are in the table.** -/
theorem closed_ofLocals (ds : Declarations) (locals : List LocalDecl) :
    (ofLocals ds locals).Closed := by
  obtain ⟨room, hroomy⟩ := layered_ofLocals ds locals
  exact ⟨fun n c hc => (hroomy.child n c hc).1, (rooted_ofLocals ds locals).parent⟩

/-! ### Bases -/

/-- A node without a parent is its own base; fields have the base of their node; and every field is
listed with its node, which comes before it. -/
structure Based (t : NodeTable) : Prop where
  root : ∀ n < t.size, (t.node n).parent = none → (t.node n).base = n
  child : ∀ n, ∀ c ∈ t.children n, c.2 < t.size ∧ (t.node c.2).base = (t.node n).base
  parent : ∀ n p, (t.node n).parent = some p → p < n ∧ ∃ field, (field, n) ∈ t.children p

/-- A field has the base of its parent. -/
theorem base_addChild (ds : Declarations) (t : NodeTable) {p : NodeId} (hp : p < t.size)
    (field : String) (ty : Ty) (n : NodeId) :
    ((t.addChild ds p field ty).node n).base =
      if n = t.size then (t.node p).base else (t.node n).base := by
  rw [node_addChild ds t hp]
  split
  · rfl
  split
  case isTrue e => rw [e]
  case isFalse => rfl

theorem Based.addChild {t : NodeTable} (h : t.Based) (ds : Declarations) {p : NodeId}
    (hp : p < t.size) (field : String) (ty : Ty) : (t.addChild ds p field ty).Based := by
  refine ⟨fun n hn hroot => ?_, fun n c hc => ?_, fun n q hq => ?_⟩
  · rw [parent_addChild ds t hp] at hroot
    rw [base_addChild ds t hp]
    split at hroot
    · cases hroot
    case isFalse hne =>
      rw [size_addChild] at hn
      rw [if_neg hne]
      exact h.root n (Nat.lt_of_le_of_ne (Nat.le_of_lt_succ hn) hne) hroot
  · rw [size_addChild, base_addChild ds t hp, base_addChild ds t hp]
    obtain ⟨hn, hold | ⟨rfl, rfl⟩⟩ := (mem_children_addChild ds t hp).mp hc
    · obtain ⟨hlt, hbase⟩ := h.child n c hold
      rw [if_neg (Nat.ne_of_lt hlt), if_neg hn]
      exact ⟨Nat.lt_succ_of_lt hlt, hbase⟩
    · rw [if_pos rfl, if_neg hn]
      exact ⟨Nat.lt_succ_self _, rfl⟩
  · rw [parent_addChild ds t hp] at hq
    split at hq
    case isTrue e =>
      obtain rfl := Option.some.inj hq
      subst e
      exact ⟨hp, field, (mem_children_addChild ds t hp).mpr ⟨Nat.ne_of_lt hp, .inr ⟨rfl, rfl⟩⟩⟩
    case isFalse hne =>
      obtain ⟨hlt, f, hf⟩ := h.parent n q hq
      have hlt' : q < t.size := Nat.lt_trans hlt (h.child q _ hf).1
      exact ⟨hlt, f, (mem_children_addChild ds t hp).mpr ⟨Nat.ne_of_lt hlt', .inl hf⟩⟩

/-- **Every node has its local for a base.** -/
theorem based_ofLocals (ds : Declarations) (locals : List LocalDecl) :
    (ofLocals ds locals).Based := by
  refine ofLocals_induct (motive := Based) ds locals ?_
    fun t p field ty hp ht => ht.addChild ds hp field ty
  refine ⟨fun n hn _ => ?_, fun n c hc => ?_, fun n p hp => ?_⟩
  · rw [size_bare] at hn
    rw [node_bare, List.getElem?_eq_getElem hn]
    rfl
  · rw [children_bare] at hc
    exact absurd hc List.not_mem_nil
  · rw [parent_bare] at hp
    cases hp

namespace Based

variable {t : NodeTable} {n m : NodeId}

/-- By induction on the depth: a subtree has one base. -/
theorem base_of_mem_subtreeWithin (h : t.Based) {depth : Nat} (hm : m ∈ t.subtreeWithin depth n) :
    (t.node m).base = (t.node n).base := by
  induction depth generalizing n with
  | zero => rw [List.mem_singleton.mp hm]
  | succ depth ih =>
      rcases mem_subtreeWithin_succ.mp hm with rfl | ⟨c, hc, hm⟩
      · rfl
      · exact (ih hm).trans (h.child n c hc).2

/-- All nodes of a subtree have one base. -/
theorem base_of_mem_subtree (h : t.Based) (hm : m ∈ t.subtree n) :
    (t.node m).base = (t.node n).base :=
  h.base_of_mem_subtreeWithin hm

/-- **Induction from the locals down**: what holds of the nodes without parents, and of the fields of
every node of which it holds, holds of all nodes. -/
theorem induct {motive : NodeId → Prop} (h : t.Based)
    (root : ∀ n < t.size, (t.node n).parent = none → motive n)
    (field : ∀ p, ∀ c ∈ t.children p, motive p → motive c.2) : ∀ {n : NodeId}, n < t.size → motive n := by
  intro n
  induction n using Nat.strongRecOn with
  | ind n ih =>
      intro hn
      cases hp : (t.node n).parent with
      | none => exact root n hn hp
      | some p =>
          obtain ⟨hlt, f, hf⟩ := h.parent n p hp
          exact field p _ hf (ih p hlt (Nat.lt_trans hlt hn))

/-- **Every node lies below its base.** -/
theorem mem_subtree_base (h : t.Based) (ht : t.Layered) :
    ∀ {n : NodeId}, n < t.size → n ∈ t.subtree (t.node n).base := by
  refine h.induct (motive := fun n => n ∈ t.subtree (t.node n).base) (fun n hn hp => ?_)
    fun p c hc hp => ?_
  · rw [h.root n hn hp]
    exact t.self_mem_subtree n
  · rw [(h.child p c hc).2]
    exact ht.subtree_subset hp (ht.subtree_child_subset hc (t.self_mem_subtree c.2))

/-- By induction on the fields. -/
theorem base_childAt (h : t.Based) (fields : List String) :
    ∀ {n : NodeId}, (t.node (t.childAt n fields)).base = (t.node n).base := by
  induction fields with
  | nil => exact rfl
  | cons f fields ih =>
      intro n
      rw [childAt]
      cases hc : t.child? n f with
      | none => rfl
      | some c => exact ih.trans (h.child n _ (mem_children_of_child? hc)).2

/-- By induction on the steps of a place. -/
theorem base_follow (h : t.Based) (steps : List Projection) :
    ∀ {descend : Bool} {n : NodeId},
      (t.node (t.follow descend n steps).1).base = (t.node n).base := by
  induction steps with
  | nil => exact rfl
  | cons step steps ih =>
      intro descend n
      cases step with
      | deref => rw [follow]
      | field f =>
          cases descend with
          | false => exact ih
          | true =>
              rw [follow]
              cases hc : t.child? n f with
              | none => exact ih
              | some c => exact ih.trans (h.child n _ (mem_children_of_child? hc)).2

/-- A declared place leads to a node of its local. -/
theorem base_lookup (h : t.Based) {place : Place} (hp : t.declares place = true) :
    (t.node (t.lookup place).1).base = place.base := by
  rw [declares, Bool.and_eq_true, decide_eq_true_eq, Node.isField, Bool.not_eq_true',
    Option.isSome_eq_false_iff, Option.isNone_iff_eq_none] at hp
  rw [lookup, h.base_follow, h.root _ hp.1 hp.2]

end Based

/-! ### Labels -/

/-- If locals are named by texts, every node has a text for a label. -/
theorem label_ofLocals (ds : Declarations) {locals : List LocalDecl}
    (h : ∀ d ∈ locals, d.Legible) (n : NodeId) :
    ∃ s, ((ofLocals ds locals).node n).label = .text s := by
  refine ofLocals_induct (motive := fun t : NodeTable => ∀ n, ∃ s, (t.node n).label = .text s)
    ds locals (fun n => ?_) (fun t p field ty hp ht n => ?_) n
  · rw [node_bare]
    cases hd : locals[n]? with
    | none => exact ⟨_, rfl⟩
    | some d =>
        cases hname : d.name with
        | none => exact ⟨s!"_{n}", by simp [localNode, hname]⟩
        | some name =>
            obtain ⟨s, rfl⟩ := h d (List.mem_of_getElem? hd) name hname
            exact ⟨s, by simp [localNode, hname]⟩
  · rw [node_addChild ds t hp]
    split
    · exact ⟨_, rfl⟩
    split
    · exact ht p
    · exact ht n

/-! ### Locals without fields -/

/-- Fields that are added below one node leave the other nodes as they are. -/
theorem node_flatten (ds : Declarations) (depth : Nat) :
    ∀ {t : NodeTable} {id n : NodeId} (ty : Ty), id < t.size → n < t.size → n ≠ id →
      t.size ≤ (flatten ds depth t id ty).size ∧ (flatten ds depth t id ty).node n = t.node n := by
  induction depth with
  | zero =>
      intro t id n ty _ _ _
      rw [flatten]
      exact ⟨Nat.le_refl _, rfl⟩
  | succ depth ih =>
      intro t id n ty hid hn hne
      rw [flatten]
      split
      case isFalse => exact ⟨Nat.le_refl _, rfl⟩
      case isTrue =>
        refine List.foldlRecOn (motive := fun u : NodeTable => t.size ≤ u.size ∧ u.node n = t.node n)
          (ty.fields ds) _ ⟨Nat.le_refl _, rfl⟩ fun u hu f _ => ?_
        have hidU : id < u.size := Nat.lt_of_lt_of_le hid hu.1
        have hnU : n < u.size := Nat.lt_of_lt_of_le hn hu.1
        have hnew : u.size < (u.addChild ds id f.1 f.2).size := by
          rw [size_addChild]
          exact Nat.lt_succ_self _
        obtain ⟨hle, hnode⟩ := ih f.2 hnew (Nat.lt_trans hnU hnew) (Nat.ne_of_lt hnU)
        refine ⟨Nat.le_trans hu.1 (Nat.le_trans (Nat.le_of_lt hnew) hle), ?_⟩
        rw [hnode, node_addChild ds u hidU, if_neg (Nat.ne_of_lt hnU), if_neg hne]
        exact hu.2

/-- A local whose type has no fields of its own keeps its bare node. -/
theorem node_ofLocals (ds : Declarations) {locals : List LocalDecl} {n : NodeId} {d : LocalDecl}
    (hd : locals[n]? = some d) (hplain : d.ty.kind.isFlattened = false) :
    (ofLocals ds locals).node n = localNode ds n d := by
  have hfold : ofLocals ds locals = locals.zipIdx.foldl
      (fun t x => flatten ds maxFieldDepth t x.2 x.1.ty) (NodeTable.bare ds locals) := rfl
  have hlt : n < locals.length := (List.getElem?_eq_some_iff.mp hd).1
  have hbare : (NodeTable.bare ds locals).node n = localNode ds n d := by
    rw [node_bare, hd]
    rfl
  rw [hfold, ← hbare]
  refine (List.foldlRecOn (motive := fun u : NodeTable =>
    locals.length ≤ u.size ∧ u.node n = (NodeTable.bare ds locals).node n) locals.zipIdx _
    ⟨Nat.le_of_eq (size_bare ds locals).symm, rfl⟩ fun u hu x hx => ?_).2
  by_cases e : n = x.2
  · -- nothing is added below the local itself
    have hx' : locals[x.2]? = some x.1 := List.mk_mem_zipIdx_iff_getElem?.mp hx
    obtain rfl : d = x.1 := Option.some.inj (hd.symm.trans (e ▸ hx'))
    rw [maxFieldDepth, flatten, hplain, if_neg Bool.false_ne_true]
    exact hu
  · have hidU : x.2 < u.size := Nat.lt_of_lt_of_le (List.snd_lt_of_mem_zipIdx hx) hu.1
    obtain ⟨hle, hnode⟩ := node_flatten ds maxFieldDepth x.1.ty hidU (Nat.lt_of_lt_of_le hlt hu.1) e
    exact ⟨Nat.le_trans hu.1 hle, hnode.trans hu.2⟩

end NodeTable

namespace FunctionGraph.Built

variable {ds : Declarations} {b : Body} {g : FunctionGraph}

theorem closed (h : Built ds b g) : g.nodes.Closed := by
  rw [h.nodes_eq]
  exact NodeTable.closed_ofLocals _ _

theorem based (h : Built ds b g) : g.nodes.Based := by
  rw [h.nodes_eq]
  exact NodeTable.based_ofLocals _ _

/-- Every place that an accepted function mentions is declared. -/
theorem declares (h : Built ds b g) {c : GraphBlock} (hc : c ∈ g.blocks) {x : Location × Place}
    (hx : x ∈ c.places) : g.nodes.declares x.2 = true := by
  obtain ⟨blk, hb, preds, rfl, -⟩ := h.mem_blocks.mp hc
  have hm : GraphBlock.ofBlock blk ∈ b.sortedBlocks.map GraphBlock.ofBlock :=
    List.mem_map_of_mem (Sorted.mem_sortBy.mpr hb)
  have hcheck := h.checked _ hm
  rw [check] at hcheck
  split at hcheck
  · cases hcheck
  split at hcheck
  · cases hcheck
  case h_2 hnone =>
    have hbase := List.find?_eq_none.mp hnone x hx
    rw [h.nodes_eq]
    exact NodeTable.declares_ofLocals ds (Nat.lt_of_not_le fun hle => hbase (decide_eq_true hle))

end FunctionGraph.Built

end Dangling
