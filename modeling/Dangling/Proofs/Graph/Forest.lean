import Dangling.Proofs.Graph.Flattening
import Dangling.Proofs.Text.Numeral
import Mathlib.Data.List.Nodup
import Mathlib.Logic.Relation

/-!
# Proofs — Graph — Forest

The nodes of a function form a forest with the locals as its roots: every other node is a field, one
step below the node that lists it, and at most four steps below its local, even where the types of
fields lead back to a type they stand in.  Subtrees then are what lies below a node, and those of the
locals divide the table among them.

* `Ty.nodup_fields`: types tell their fields apart by names.
* `NodeTable.Linked`: a node's own record agrees with the lists of children.
* `NodeTable.Leads`: a path of fields from one node down to another.
* `NodeTable.Layered.nodup_subtree`, `mem_subtree_iff`: a subtree lists what lies below its node, each
  node once.
* `NodeTable.Forest`, `FunctionGraph.nodes_forest`: all of this for the table of an accepted function.
-/

namespace Dangling

open Relation (ReflTransGen)

namespace Ty

/-- The elements of a tuple are told apart by their numbers. -/
theorem nodup_numbered (ts : List Ty) : ((numbered ts).map (·.1)).Nodup := by
  have hnumbers : (numbered ts).map (·.1) = (List.range' 0 ts.length).map toString := by
    rw [← List.zipIdx_map_snd 0 ts, numbered, List.map_map, List.map_map]
    rfl
  rw [hnumbers]
  refine List.Nodup.map (fun m n h => ?_) List.nodup_range'
  have hdigits := congrArg String.toList h
  exact Text.toDigits_injective (by simpa using hdigits)

/-- **Types tell their fields apart by names.** -/
theorem nodup_fields (ds : Declarations) (ty : Ty) : ((ty.fields ds).map (·.1)).Nodup := by
  cases ty with
  | tuple ts => exact nodup_numbered ts
  | nominal name args =>
      rw [fields]
      cases ds.find? name with
      | none => exact List.nodup_nil
      | some d => exact d.fields.2
  | struct name names types hasDrop distinct =>
      rw [fields, List.zip_eq_zip_take_min, List.map_fst_zip (by simp)]
      exact distinct.sublist (List.take_sublist _ _)
  | _ => exact List.nodup_nil

end Ty

namespace NodeTable

variable {ds : Declarations} {locals : List LocalDecl} {t : NodeTable} {n m p : NodeId}

/-! ### Records and lists of children -/

/-- Nodes know their numbers; the first are the locals, all others have parents; and fields know the
names that they are listed under. -/
structure Linked (ds : Declarations) (locals : List LocalDecl) (t : NodeTable) : Prop
    extends t.Ordered locals.length where
  id : ∀ n < t.size, (t.node n).id = n
  root : ∀ n d, locals[n]? = some d → { t.node n with children := [] } = localNode ds n d
  field : ∀ n < t.size, locals.length ≤ n → (t.node n).parent.isSome
  name : ∀ n, ∀ c ∈ t.children n, (t.node c.2).field = some c.1

theorem linked_bare (ds : Declarations) (locals : List LocalDecl) :
    (bare ds locals).Linked ds locals := by
  refine ⟨ordered_bare ds locals, fun n hn => ?_, fun n d hd => ?_, fun n hn hle => ?_,
    fun n c hc => ?_⟩
  · rw [size_bare] at hn
    rw [node_bare, List.getElem?_eq_getElem hn]
    rfl
  · rw [node_bare, hd]
    rfl
  · rw [size_bare] at hn
    exact absurd hn (Nat.not_lt_of_le hle)
  · rw [children_bare] at hc
    exact absurd hc List.not_mem_nil

theorem Linked.addChild (h : t.Linked ds locals) (hp : p < t.size) (field : String) (ty : Ty) :
    (t.addChild ds p field ty).Linked ds locals := by
  have hnode := node_addChild ds t hp field ty
  refine ⟨h.toOrdered.addChild ds hp field ty, fun n hn => ?_, fun n d hd => ?_, fun n hn hle => ?_,
    fun n c hc => ?_⟩
  · rw [size_addChild] at hn
    rw [hnode]
    split
    case isTrue e => exact e.symm
    case isFalse hne =>
      have hlt : n < t.size := Nat.lt_of_le_of_ne (Nat.le_of_lt_succ hn) hne
      split
      case isTrue e => exact e ▸ h.id n hlt
      case isFalse => exact h.id n hlt
  · have hlt : n < t.size := Nat.lt_of_lt_of_le (List.getElem?_eq_some_iff.mp hd).1 h.size
    rw [hnode, if_neg (Nat.ne_of_lt hlt)]
    split
    case isTrue e => exact e ▸ h.root n d hd
    case isFalse => exact h.root n d hd
  · rw [size_addChild] at hn
    rw [parent_addChild ds t hp]
    split
    case isTrue => rfl
    case isFalse hne => exact h.field n (Nat.lt_of_le_of_ne (Nat.le_of_lt_succ hn) hne) hle
  · rw [hnode]
    obtain ⟨-, hold | ⟨rfl, rfl⟩⟩ := (mem_children_addChild ds t hp).mp hc
    · rw [if_neg (Nat.ne_of_lt (h.child n c hold).2.2)]
      split
      case isTrue e => exact e ▸ h.name n c hold
      case isFalse => exact h.name n c hold
    · rw [if_pos rfl]

theorem linked_ofLocals (ds : Declarations) (locals : List LocalDecl) :
    (ofLocals ds locals).Linked ds locals :=
  ofLocals_induct (motive := fun t : NodeTable => t.Linked ds locals) ds locals
    (linked_bare ds locals) fun _ _ field ty hp ht => ht.addChild hp field ty

/-- **A node is listed under a name exactly by its parent, under the name of its field.** -/
theorem mem_children_iff (h : t.Linked ds locals) (hlayered : t.Layered) (hbased : t.Based)
    {field : String} {c : NodeId} :
    (field, c) ∈ t.children p ↔ (t.node c).parent = some p ∧ (t.node c).field = some field := by
  constructor
  · intro hc
    obtain ⟨room, hroomy⟩ := hlayered
    exact ⟨hroomy.parent p _ hc, h.name p _ hc⟩
  · rintro ⟨hparent, hfield⟩
    obtain ⟨-, field', hc⟩ := hbased.parent c p hparent
    obtain rfl := Option.some.inj (hfield.symm.trans (h.name p _ hc))
    exact hc

theorem base_lt (h : t.Linked ds locals) (hbased : t.Based) :
    ∀ {n : NodeId}, n < t.size → (t.node n).base < locals.length := by
  refine hbased.induct (motive := fun n => (t.node n).base < locals.length) (fun n hn hp => ?_)
    fun p c hc hp => ?_
  · rw [hbased.root n hn hp]
    refine Nat.lt_of_not_le fun hle => ?_
    have hsome := h.field n hn hle
    rw [hp] at hsome
    cases hsome
  · rw [(hbased.child p c hc).2]
    exact hp

/-! ### Paths of fields -/

/-- `fields` lead from `r` down to `n`. -/
def Leads (t : NodeTable) : NodeId → List String → NodeId → Prop
  | r, [], n => r = n
  | r, f :: fields, n => ∃ c, (f, c) ∈ t.children r ∧ Leads t c fields n

theorem leads_append {fields more : List String} :
    ∀ {r : NodeId}, t.Leads r (fields ++ more) n ↔ ∃ m, t.Leads r fields m ∧ t.Leads m more n := by
  induction fields with
  | nil => simp [Leads]
  | cons f fields ih =>
      intro r
      simp only [List.cons_append, Leads, ih]
      constructor
      · rintro ⟨c, hc, m, hm, hn⟩
        exact ⟨m, ⟨c, hc, hm⟩, hn⟩
      · rintro ⟨m, ⟨c, hc, hm⟩, hn⟩
        exact ⟨c, hc, m, hm, hn⟩

/-- One more field at the end of a path. -/
theorem leads_concat {fields : List String} {f : String} {r : NodeId} :
    t.Leads r (fields ++ [f]) n ↔ ∃ m, t.Leads r fields m ∧ (f, n) ∈ t.children m := by
  simp [leads_append, Leads]

/-- Every node is reached from its local. -/
theorem exists_leads (hbased : t.Based) :
    ∀ {n : NodeId}, n < t.size → ∃ fields, t.Leads (t.node n).base fields n := by
  refine hbased.induct (motive := fun n => ∃ fields, t.Leads (t.node n).base fields n)
    (fun n hn hp => ⟨[], hbased.root n hn hp⟩) fun p c hc hp => ?_
  obtain ⟨fields, hfields⟩ := hp
  rw [(hbased.child p c hc).2]
  exact ⟨fields ++ [c.1], leads_concat.mpr ⟨p, hfields, hc⟩⟩

/-- A child of a filled node is a field of its type, and filled to one level less. -/
theorem Filled.child {depth : Nat} {c : String × NodeId} (h : t.Filled ds depth n)
    (hc : c ∈ t.children n) :
    ∃ rest, rest + 1 = depth ∧ t.Filled ds rest c.2 ∧ (c.1, t.ty c.2) ∈ (t.ty n).fields ds := by
  cases depth with
  | zero =>
      rw [Filled] at h
      rw [h] at hc
      exact absurd hc List.not_mem_nil
  | succ depth => exact ⟨depth, rfl, h.2 c hc, h.1 ▸ List.mem_map_of_mem hc⟩

/-- Down a path nodes stay filled, each step to one level less. -/
theorem Filled.of_leads {fields : List String} : ∀ {depth : Nat} {r : NodeId},
    t.Filled ds depth r → t.Leads r fields n →
      ∃ rest, rest + fields.length = depth ∧ t.Filled ds rest n := by
  induction fields with
  | nil =>
      rintro depth r h rfl
      exact ⟨depth, rfl, h⟩
  | cons f fields ih =>
      rintro depth r h ⟨c, hc, hn⟩
      obtain ⟨below, rfl, hfilled, -⟩ := h.child hc
      obtain ⟨rest, rfl, hlast⟩ := ih hfilled hn
      exact ⟨rest, rfl, hlast⟩

/-! ### Subtrees -/

theorem Layered.nodup_subtree (h : t.Layered) (n : NodeId) : (t.subtree n).Nodup := by
  have hwithin : ∀ depth n, (t.subtreeWithin depth n).Nodup := by
    intro depth
    induction depth with
    | zero => exact fun n => List.nodup_singleton n
    | succ depth ih =>
        intro n
        rw [subtreeWithin, List.nodup_cons, List.nodup_flatMap]
        refine ⟨fun hn => ?_, fun c _ => ih c.2, ?_⟩
        · obtain ⟨room, hroomy⟩ := h
          obtain ⟨c, hc, hn⟩ := List.mem_flatMap.mp hn
          exact hroomy.not_below hc hn
        · exact h.subtrees_apart n depth
  exact hwithin _ n

/-- **A subtree holds exactly the nodes whose parents lead up to its node.** -/
theorem mem_subtree_iff (h : t.Layered) (hbased : t.Based) :
    m ∈ t.subtree n ↔ ReflTransGen (fun c p => (t.node c).parent = some p) m n := by
  constructor
  · have hwithin : ∀ depth n, m ∈ t.subtreeWithin depth n →
        ReflTransGen (fun c p => (t.node c).parent = some p) m n := by
      obtain ⟨room, hroomy⟩ := h
      intro depth
      induction depth with
      | zero =>
          intro n hm
          rw [List.mem_singleton.mp hm]
      | succ depth ih =>
          intro n hm
          rcases mem_subtreeWithin_succ.mp hm with rfl | ⟨c, hc, hm⟩
          · exact .refl
          · exact .tail (ih c.2 hm) (hroomy.parent n c hc)
    exact hwithin _ n
  · intro hup
    induction hup using ReflTransGen.head_induction_on with
    | refl => exact t.self_mem_subtree n
    | head hparent _ ih =>
        obtain ⟨-, field, hc⟩ := hbased.parent _ _ hparent
        exact h.subtree_subset ih (h.subtree_child_subset hc (t.self_mem_subtree _))

theorem lt_of_mem_subtree (h : t.Closed) (hn : n < t.size) (hm : m ∈ t.subtree n) : m < t.size := by
  have hwithin : ∀ depth n, n < t.size → m ∈ t.subtreeWithin depth n → m < t.size := by
    intro depth
    induction depth with
    | zero =>
        intro n hn hm
        rw [List.mem_singleton.mp hm]
        exact hn
    | succ depth ih =>
        intro n hn hm
        rcases mem_subtreeWithin_succ.mp hm with rfl | ⟨c, hc, hm⟩
        · exact hn
        · exact ih c.2 (h.child n c hc) hm
  exact hwithin _ n hn hm

/-- **The subtrees of the locals divide the table among them.** -/
theorem subtrees_perm (h : t.Linked ds locals) (hlayered : t.Layered) (hbased : t.Based)
    (hclosed : t.Closed) :
    ((List.range locals.length).flatMap t.subtree).Perm (List.range t.size) := by
  have hroot : ∀ l < locals.length, l < t.size ∧ (t.node l).base = l := fun l hl => by
    refine ⟨Nat.lt_of_lt_of_le hl h.size, ?_⟩
    have hnode := h.root l _ (List.getElem?_eq_getElem hl)
    exact congrArg Node.base hnode
  refine (List.perm_ext_iff_of_nodup ?_ List.nodup_range).mpr fun n => ?_
  · refine List.nodup_flatMap.mpr ⟨fun l _ => hlayered.nodup_subtree l, ?_⟩
    refine List.nodup_range.imp_of_mem fun {l k} hl hk hne m hml hmk => hne ?_
    -- a common node has one base
    rw [← (hroot l (List.mem_range.mp hl)).2, ← (hroot k (List.mem_range.mp hk)).2,
      ← hbased.base_of_mem_subtree hml, hbased.base_of_mem_subtree hmk]
  · rw [List.mem_flatMap, List.mem_range]
    constructor
    · rintro ⟨l, hl, hn⟩
      exact lt_of_mem_subtree hclosed (hroot l (List.mem_range.mp hl)).1 hn
    · intro hn
      exact ⟨_, List.mem_range.mpr (base_lt h hbased hn), hbased.mem_subtree_base hlayered hn⟩

/-! ### Names -/

/-- Under distinct names a child is found by its name. -/
theorem child?_eq_some_iff (h : ((t.children n).map (·.1)).Nodup) {field : String} {c : NodeId} :
    t.child? n field = some c ↔ (field, c) ∈ t.children n := by
  refine ⟨mem_children_of_child?, fun hc => ?_⟩
  obtain ⟨before, after, he⟩ := List.append_of_mem hc
  refine List.lookup_eq_some_iff.mpr ⟨before, after, he, fun x hx => ?_⟩
  rw [he, List.map_append, List.nodup_append] at h
  have hne := h.2.2 x.1 (List.mem_map_of_mem hx) field List.mem_cons_self
  exact bne_iff_ne.mpr hne.symm

/-- Nodes tell their fields apart by names, since their types do. -/
theorem Filled.nodup_names {depth : Nat} (h : t.Filled ds depth n) :
    ((t.children n).map (·.1)).Nodup := by
  cases depth with
  | zero =>
      rw [Filled] at h
      rw [h]
      exact List.nodup_nil
  | succ depth =>
      have hnodup := (t.ty n).nodup_fields ds
      rw [← h.1, typedChildren, List.map_map] at hnodup
      exact hnodup

theorem nodup_names_ofLocals (ds : Declarations) (locals : List LocalDecl) (n : NodeId) :
    (((ofLocals ds locals).children n).map (·.1)).Nodup := by
  obtain hn | hn := Nat.lt_or_ge n (ofLocals ds locals).size
  · have hbased := based_ofLocals ds locals
    have hbase := base_lt (linked_ofLocals ds locals) hbased hn
    obtain ⟨fields, hfields⟩ := exists_leads hbased hn
    obtain ⟨rest, -, hfilled⟩ := (filled_ofLocals ds hbase).of_leads hfields
    exact hfilled.nodup_names
  · rw [children, node_eq_default hn]
    exact List.nodup_nil

/-! ### Forests -/

/-- The nodes of `t` form a forest whose roots are `locals`. -/
structure Forest (ds : Declarations) (locals : List LocalDecl) (t : NodeTable) : Prop where
  id : ∀ n < t.size, (t.node n).id = n
  /-- The first nodes are the locals, each as it is declared but for its children. -/
  root : ∀ n d, locals[n]? = some d → n < t.size ∧ { t.node n with children := [] } = localNode ds n d
  root_parent : ∀ n < locals.length, (t.node n).parent = none
  parent : ∀ n, locals.length ≤ n → n < t.size → ∃ p < n, (t.node n).parent = some p
  child : ∀ p field c, (field, c) ∈ t.children p ↔
    (t.node c).parent = some p ∧ (t.node c).field = some field
  /-- The child is found by its name. -/
  child? : ∀ p field c, t.child? p field = some c ↔
    (t.node c).parent = some p ∧ (t.node c).field = some field
  /-- At most four fields lead to a node from its local. -/
  depth : ∀ n < t.size, (t.node n).base < locals.length ∧
    ∃ fields, fields.length ≤ 4 ∧ t.Leads (t.node n).base fields n
  subtree_nodup : ∀ n, (t.subtree n).Nodup
  subtree : ∀ n m, m ∈ t.subtree n ↔ ReflTransGen (fun c p => (t.node c).parent = some p) m n
  subtrees : ((List.range locals.length).flatMap t.subtree).Perm (List.range t.size)

end NodeTable

/-- **The nodes of an accepted function form a forest whose roots are its locals**, whatever its types
are. -/
theorem FunctionGraph.nodes_forest {ds : Declarations} {b : Body} {g : FunctionGraph}
    (h : ofBody ds b = .ok g) : g.nodes.Forest ds b.locals := by
  rw [(built_of_ofBody h).nodes_eq]
  have hlinked := NodeTable.linked_ofLocals ds b.locals
  have hlayered := NodeTable.layered_ofLocals ds b.locals
  have hbased := NodeTable.based_ofLocals ds b.locals
  have hchild : ∀ p field c, (field, c) ∈ (NodeTable.ofLocals ds b.locals).children p ↔ _ :=
    fun p field c => NodeTable.mem_children_iff hlinked hlayered hbased
  exact
    { id := hlinked.id
      root := fun n d hd =>
        ⟨Nat.lt_of_lt_of_le (List.getElem?_eq_some_iff.mp hd).1 hlinked.size, hlinked.root n d hd⟩
      root_parent := (NodeTable.rooted_ofLocals ds b.locals).root
      parent := fun n hle hn => by
        obtain ⟨p, hp⟩ := Option.isSome_iff_exists.mp (hlinked.field n hn hle)
        exact ⟨p, (hbased.parent n p hp).1, hp⟩
      child := hchild
      child? := fun p field c =>
        (NodeTable.child?_eq_some_iff (NodeTable.nodup_names_ofLocals ds b.locals p)).trans
          (hchild p field c)
      depth := fun n hn => by
        have hbase := NodeTable.base_lt hlinked hbased hn
        obtain ⟨fields, hfields⟩ := NodeTable.exists_leads hbased hn
        obtain ⟨rest, hrest, -⟩ := (NodeTable.filled_ofLocals ds hbase).of_leads hfields
        have hle : fields.length ≤ maxFieldDepth := hrest ▸ Nat.le_add_left _ _
        exact ⟨hbase, fields, hle, hfields⟩
      subtree_nodup := hlayered.nodup_subtree
      subtree := fun n m => NodeTable.mem_subtree_iff hlayered hbased
      subtrees := NodeTable.subtrees_perm hlinked hlayered hbased
        (NodeTable.closed_ofLocals ds b.locals) }

/-- A chain of strings: a type that stands in itself. -/
def chains : Declarations :=
  ⟨[("Chain", ⟨false, [("value", Ty.container .string "String" []), ("next", .nominal "Chain" [])],
    by decide⟩)]⟩

/-- A function that drops a chain, and has a pair with a chain in it. -/
def links : Body where
  name := "links"
  argCount := 2
  locals := [{ ty := Ty.unit }, { ty := .nominal "Chain" [] },
    { ty := .tuple [.nominal "Chain" [], Ty.int32] }]
  blocks := [{ id := 0, statements := [], terminator := ⟨default, .drop { base := 1 } 1 none⟩ },
    { id := 1, statements := [], terminator := ⟨default, .ret⟩ }]
  distinct := by decide

/-- Its graph. -/
def linksGraph : FunctionGraph := (FunctionGraph.ofBody chains links).toOption.get rfl

/-- A chain has nodes for four of its links, inside a pair for three. -/
theorem links_forest :
    FunctionGraph.ofBody chains links = .ok linksGraph ∧
      linksGraph.nodes.Forest chains links.locals ∧
      linksGraph.nodes.subtree 1 = [1, 3, 4, 5, 6, 7, 8, 9, 10] ∧
      linksGraph.nodes.subtree 2 = [2, 11, 12, 13, 14, 15, 16, 17, 18] := by
  have hg : FunctionGraph.ofBody chains links = .ok linksGraph := rfl
  exact ⟨hg, FunctionGraph.nodes_forest hg, by decide, by decide⟩

end Dangling
