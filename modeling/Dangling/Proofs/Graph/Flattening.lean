import Dangling.Proofs.Graph.Locals

/-!
# Proofs — Graph — Flattening

What flattening leaves below a node: the fields of its type, in order and under their names, below
each of them the fields of its own type, and so on down to the depth where flattening ends
(`NodeTable.Filled`).  A node that is flattened is finished, because what is appended later lies below
other nodes.

* `NodeTable.Ordered`: children are fields, never locals, and come after their node.
* `NodeTable.filled_flatten`: flattening fills a node that has no children yet.
* `NodeTable.filled_ofLocals`: in the table of a function every local is filled.
-/

namespace Dangling

/-- Types whose fields have no nodes have no fields. -/
theorem Ty.fields_eq_nil (ds : Declarations) {ty : Ty} (h : ty.kind.isFlattened = false) :
    ty.fields ds = [] := by
  cases ty with
  | tuple => cases h
  | nominal => cases h
  | struct => cases h
  | _ => rfl

namespace NodeTable

variable {ds : Declarations} {t : NodeTable} {locals : Nat} {n : NodeId}

/-! ### Order -/

/-- The locals come first; children are no locals, and come after their node. -/
structure Ordered (t : NodeTable) (locals : Nat) : Prop where
  size : locals ≤ t.size
  child : ∀ n, ∀ c ∈ t.children n, locals ≤ c.2 ∧ n < c.2 ∧ c.2 < t.size

theorem Ordered.addChild (h : t.Ordered locals) (ds : Declarations) {p : NodeId} (hp : p < t.size)
    (field : String) (ty : Ty) : (t.addChild ds p field ty).Ordered locals := by
  refine ⟨?_, fun n c hc => ?_⟩
  · rw [size_addChild]
    exact Nat.le_succ_of_le h.size
  · rw [size_addChild]
    obtain ⟨-, hold | ⟨rfl, rfl⟩⟩ := (mem_children_addChild ds t hp).mp hc
    · obtain ⟨hlocal, hlt, hsize⟩ := h.child n c hold
      exact ⟨hlocal, hlt, Nat.lt_succ_of_lt hsize⟩
    · exact ⟨h.size, hp, Nat.lt_succ_self _⟩

theorem Ordered.flatten (h : t.Ordered locals) (ds : Declarations) (depth : Nat) (hn : n < t.size)
    (ty : Ty) : (flatten ds depth t n ty).Ordered locals :=
  (flatten_induct (motive := fun u : NodeTable => u.Ordered locals) ds
    (fun _ _ field ty hp hu => hu.addChild ds hp field ty) depth ty hn h).2

theorem ordered_bare (ds : Declarations) (locals : List LocalDecl) :
    (bare ds locals).Ordered locals.length := by
  refine ⟨Nat.le_of_eq (size_bare ds locals).symm, fun n c hc => ?_⟩
  rw [children_bare] at hc
  exact absurd hc List.not_mem_nil

/-- Nodes keep their types as fields are appended. -/
theorem ty_flatten (ds : Declarations) (depth : Nat) {id : NodeId} (hid : id < t.size) (ty : Ty)
    (hn : n < t.size) : (flatten ds depth t id ty).ty n = t.ty n := by
  refine (flatten_induct (motive := fun u : NodeTable => t.size ≤ u.size ∧ u.ty n = t.ty n) ds
    (fun u p field ty hp hu => ?_) depth ty hid ⟨Nat.le_refl _, rfl⟩).2.2
  obtain ⟨hsize, hty⟩ := hu
  rw [size_addChild]
  refine ⟨Nat.le_succ_of_le hsize, ?_⟩
  rw [NodeTable.ty, node_addChild ds u hp, if_neg (Nat.ne_of_lt (Nat.lt_of_lt_of_le hn hsize)), ← hty]
  split
  case isTrue e => rw [e, NodeTable.ty]
  case isFalse => rfl

/-! ### Filled nodes -/

/-- The children of a node, with their types. -/
def typedChildren (t : NodeTable) (n : NodeId) : List (String × Ty) :=
  (t.children n).map fun c => (c.1, t.ty c.2)

/-- The children of `n` are the fields of its type, those of each child the fields of the child's
type, and so on for `depth` levels; further down there is nothing. -/
def Filled (ds : Declarations) (t : NodeTable) : (depth : Nat) → NodeId → Prop
  | 0, n => t.children n = []
  | depth + 1, n =>
    t.typedChildren n = (t.ty n).fields ds ∧ ∀ c ∈ t.children n, Filled ds t depth c.2

/-- A node stays filled if nothing changes in a set of nodes that it lies in with all below it. -/
theorem Filled.congr {t' : NodeTable} {S : NodeId → Prop}
    (hclosed : ∀ m, S m → ∀ c ∈ t.children m, S c.2) (hsame : ∀ m, S m → t'.node m = t.node m) :
    ∀ {depth : Nat} {n : NodeId}, S n → t.Filled ds depth n → t'.Filled ds depth n := by
  have hchildren : ∀ m, S m → t'.children m = t.children m := fun m hm => by
    rw [children, children, hsame m hm]
  have hty : ∀ m, S m → t'.ty m = t.ty m := fun m hm => by
    rw [NodeTable.ty, NodeTable.ty, hsame m hm]
  intro depth
  induction depth with
  | zero =>
      intro n hn h
      rw [Filled, hchildren n hn]
      exact h
  | succ depth ih =>
      intro n hn h
      obtain ⟨hfields, hbelow⟩ := h
      refine ⟨?_, fun c hc => ?_⟩
      · rw [hty n hn, ← hfields, typedChildren, typedChildren, hchildren n hn]
        exact List.map_congr_left fun c hc => by rw [hty c.2 (hclosed n hn c hc)]
      · rw [hchildren n hn] at hc
        exact ih (hclosed n hn c hc) (hbelow c hc)

/-- Of the fields of `n` the first ones, `fields`, are there, and filled. -/
structure PartlyFilled (ds : Declarations) (locals depth : Nat) (n : NodeId)
    (fields : List (String × Ty)) (t : NodeTable) : Prop where
  mem : n < t.size
  ordered : t.Ordered locals
  children : t.typedChildren n = fields
  below : ∀ c ∈ t.children n, t.Filled ds depth c.2

/-- Flattening to `depth` fills every node without children. -/
def Fills (ds : Declarations) (locals depth : Nat) : Prop :=
  ∀ {t : NodeTable} {n : NodeId}, n < t.size → t.Ordered locals → t.children n = [] →
    (flatten ds depth t n (t.ty n)).Filled ds depth n

namespace PartlyFilled

variable {depth : Nat} {fields : List (String × Ty)}

/-- One more field, with all below it. -/
theorem field (hfills : Fills ds locals depth) (h : PartlyFilled ds locals depth n fields t)
    (f : String × Ty) :
    PartlyFilled ds locals depth n (fields ++ [f])
      (flatten ds depth (t.addChild ds n f.1 f.2) t.size f.2) := by
  obtain ⟨u, hu⟩ : ∃ u, u = t.addChild ds n f.1 f.2 := ⟨_, rfl⟩
  rw [← hu]
  have hsize : u.size = t.size + 1 := hu ▸ size_addChild ds t n f.1 f.2
  have hnew : t.size < u.size := by omega
  have hordered : u.Ordered locals := hu ▸ h.ordered.addChild ds h.mem f.1 f.2
  have hty : u.ty t.size = f.2 := by
    rw [NodeTable.ty, hu, node_addChild ds t h.mem, if_pos rfl]
  have hnone : u.children t.size = [] := by
    rw [hu, children_addChild ds t h.mem, if_pos rfl]
  have hfilled := hfills hnew hordered hnone
  rw [hty] at hfilled
  -- the nodes of `t` other than `n` are what they were
  have hkept : ∀ m < t.size, m ≠ n → (flatten ds depth u t.size f.2).node m = t.node m := by
    intro m hm hne
    rw [(node_flatten ds depth f.2 hnew (Nat.lt_trans hm hnew) (Nat.ne_of_lt hm)).2, hu,
      node_addChild ds t h.mem, if_neg (Nat.ne_of_lt hm), if_neg hne]
  have hchildren : (flatten ds depth u t.size f.2).children n = t.children n ++ [(f.1, t.size)] := by
    rw [NodeTable.children,
      (node_flatten ds depth f.2 hnew (Nat.lt_trans h.mem hnew) (Nat.ne_of_lt h.mem)).2,
      ← NodeTable.children, hu, children_addChild ds t h.mem, if_neg (Nat.ne_of_lt h.mem), if_pos rfl]
  have hold : ∀ c ∈ t.children n, n < c.2 ∧ c.2 < t.size := fun c hc => (h.ordered.child n c hc).2
  refine ⟨?_, hordered.flatten ds depth hnew f.2, ?_, fun c hc => ?_⟩
  · exact Nat.lt_of_lt_of_le (Nat.lt_trans h.mem hnew)
      (node_flatten ds depth f.2 hnew (Nat.lt_trans h.mem hnew) (Nat.ne_of_lt h.mem)).1
  · have hlast : (flatten ds depth u t.size f.2).ty t.size = f.2 := by
      rw [ty_flatten ds depth hnew f.2 hnew, hty]
    rw [typedChildren, hchildren, List.map_append, List.map_singleton, hlast, ← h.children,
      typedChildren]
    congr 1
    refine List.map_congr_left fun c hc => ?_
    rw [NodeTable.ty, hkept c.2 (hold c hc).2 (Nat.ne_of_gt (hold c hc).1), NodeTable.ty]
  · rw [hchildren] at hc
    rcases List.mem_append.mp hc with hc | hc
    · -- what lies below an old child has larger numbers than `n`
      refine Filled.congr (S := fun m => c.2 ≤ m ∧ m < t.size) (fun m hm d hd => ?_) (fun m hm => ?_)
        ⟨Nat.le_refl _, (hold c hc).2⟩ (h.below c hc)
      · obtain ⟨-, hlt, hsize⟩ := h.ordered.child m d hd
        exact ⟨Nat.le_trans hm.1 (Nat.le_of_lt hlt), hsize⟩
      · exact hkept m hm.2 (Nat.ne_of_gt (Nat.lt_of_lt_of_le (hold c hc).1 hm.1))
    · obtain rfl := List.mem_singleton.mp hc
      exact hfilled

theorem foldl (hfills : Fills ds locals depth) (more : List (String × Ty)) :
    ∀ {t : NodeTable} {fields : List (String × Ty)}, PartlyFilled ds locals depth n fields t →
      PartlyFilled ds locals depth n (fields ++ more)
        (more.foldl (fun t f => flatten ds depth (t.addChild ds n f.1 f.2) t.size f.2) t) := by
  induction more with
  | nil =>
      intro t fields h
      rw [List.append_nil]
      exact h
  | cons f more ih =>
      intro t fields h
      rw [List.append_cons]
      exact ih (h.field hfills f)

end PartlyFilled

/-- **Flattening fills a node**: its children become the fields of its type, to the depth that is
flattened. -/
theorem filled_flatten (ds : Declarations) (locals depth : Nat) : Fills ds locals depth := by
  induction depth with
  | zero =>
      intro t n _ _ hnone
      rw [flatten]
      exact hnone
  | succ depth ih =>
      intro t n hn hordered hnone
      have hty := ty_flatten ds (depth + 1) hn (t.ty n) hn
      rw [flatten] at hty ⊢
      split at hty
      case isTrue hflat =>
        rw [if_pos hflat]
        have hstart : PartlyFilled ds locals depth n [] t :=
          ⟨hn, hordered, by rw [typedChildren, hnone]; rfl, fun c hc => by
            rw [hnone] at hc
            exact absurd hc List.not_mem_nil⟩
        have hdone := hstart.foldl ih ((t.ty n).fields ds)
        exact ⟨hdone.children.trans (congrArg (Ty.fields ds) hty.symm), hdone.below⟩
      case isFalse hflat =>
        rw [if_neg hflat, Filled, typedChildren, hnone,
          Ty.fields_eq_nil ds (Bool.eq_false_iff.mpr hflat)]
        exact ⟨rfl, fun c hc => absurd hc List.not_mem_nil⟩

/-! ### Locals -/

/-- The first `k` locals are filled, and the others have no children yet. -/
structure FilledUpTo (ds : Declarations) (locals : List LocalDecl) (k : Nat) (t : NodeTable) :
    Prop where
  ordered : t.Ordered locals.length
  ty : ∀ n d, locals[n]? = some d → t.ty n = d.ty
  filled : ∀ n < k, n < locals.length → t.Filled ds maxFieldDepth n
  plain : ∀ n, k ≤ n → n < locals.length → t.children n = []

namespace FilledUpTo

variable {locals : List LocalDecl} {k : Nat}

/-- One more local. -/
theorem next (h : FilledUpTo ds locals k t) {d : LocalDecl} (hd : locals[k]? = some d) :
    FilledUpTo ds locals (k + 1) (flatten ds maxFieldDepth t k d.ty) := by
  have hk : k < locals.length := (List.getElem?_eq_some_iff.mp hd).1
  have hmem : ∀ n < locals.length, n < t.size := fun n hn => Nat.lt_of_lt_of_le hn h.ordered.size
  have hkept : ∀ n < t.size, n ≠ k → (flatten ds maxFieldDepth t k d.ty).node n = t.node n :=
    fun n hn hne => (node_flatten ds maxFieldDepth d.ty (hmem k hk) hn hne).2
  refine ⟨h.ordered.flatten ds maxFieldDepth (hmem k hk) d.ty, fun n d' hn => ?_, fun n hlt hn => ?_,
    fun n hle hn => ?_⟩
  · have hlt := hmem n (List.getElem?_eq_some_iff.mp hn).1
    rw [ty_flatten ds maxFieldDepth (hmem k hk) d.ty hlt]
    exact h.ty n d' hn
  · rcases Nat.lt_succ_iff_lt_or_eq.mp hlt with hlt | rfl
    · -- what lies below another local is no local, so not `k`
      refine Filled.congr (S := fun m => m = n ∨ locals.length ≤ m ∧ m < t.size) (fun m _ c hc => ?_)
        (fun m hm => ?_) (.inl rfl) (h.filled n hlt hn)
      · obtain ⟨hlocal, -, hsize⟩ := h.ordered.child m c hc
        exact .inr ⟨hlocal, hsize⟩
      · rcases hm with rfl | ⟨hlocal, hsize⟩
        · exact hkept m (hmem m hn) (Nat.ne_of_lt hlt)
        · exact hkept m hsize (Nat.ne_of_gt (Nat.lt_of_lt_of_le hk hlocal))
    · have hfilled := filled_flatten ds locals.length maxFieldDepth (hmem n hn) h.ordered
        (h.plain n (Nat.le_refl n) hn)
      rw [h.ty n d hd] at hfilled
      exact hfilled
  · rw [children, hkept n (hmem n hn) (Nat.ne_of_gt hle)]
    exact h.plain n (Nat.le_of_succ_le hle) hn

theorem foldl (rest : List LocalDecl) : ∀ {k : Nat} {t : NodeTable}, locals.drop k = rest →
    FilledUpTo ds locals k t → FilledUpTo ds locals locals.length
      ((rest.zipIdx k).foldl (fun t x => flatten ds maxFieldDepth t x.2 x.1.ty) t) := by
  induction rest with
  | nil =>
      intro k t hrest h
      have hk : locals.length ≤ k := List.drop_eq_nil_iff.mp hrest
      exact ⟨h.ordered, h.ty, fun n hn => h.filled n (Nat.lt_of_lt_of_le hn hk),
        fun n hle hn => absurd hn (Nat.not_lt_of_le hle)⟩
  | cons d rest ih =>
      intro k t hrest h
      have hd : locals[k]? = some d := by
        rw [← List.head?_drop, hrest]
        rfl
      have hrest' : locals.drop (k + 1) = rest := by
        rw [← List.tail_drop, hrest, List.tail_cons]
      rw [List.zipIdx_cons, List.foldl_cons]
      exact ih hrest' (h.next hd)

end FilledUpTo

theorem filledUpTo_ofLocals (ds : Declarations) (locals : List LocalDecl) :
    FilledUpTo ds locals locals.length (ofLocals ds locals) := by
  refine FilledUpTo.foldl (t := bare ds locals) locals List.drop_zero ?_
  refine ⟨ordered_bare ds locals, fun n d hd => ?_, fun n hn => absurd hn (Nat.not_lt_zero n),
    fun n _ _ => children_bare ds locals n⟩
  rw [NodeTable.ty, node_bare, hd]
  rfl

/-- **The locals of a function are filled**, to the depth that fields are flattened. -/
theorem filled_ofLocals (ds : Declarations) {locals : List LocalDecl} (hn : n < locals.length) :
    (ofLocals ds locals).Filled ds maxFieldDepth n :=
  (filledUpTo_ofLocals ds locals).filled n hn hn

end NodeTable

end Dangling
