import Dangling.Proofs.Graph.Forest
import Dangling.Walk.Visit
import Mathlib.Data.List.Induction

/-!
# Proofs — Graph — Addresses

A node is addressed in three ways: by a place, along whose steps an instruction descends
(`NodeTable.lookup`); by the fields that lead to it from its local (`NodeTable.fieldPath`), as a
summary exports it; and by descending from any node along fields as far as there are nodes
(`NodeTable.childAt`), as a caller imports it.  They agree.

* `NodeTable.follow_eq`: the steps of a place lead where the fields before its first dereference do.
* `NodeTable.fieldPath_of_leads`: going up from a node gives the fields that lead down to it.
* `NodeTable.Filled.childAt_eq`: fields lead to one node, the one that descending finds.
* `NodeTable.Filled.leads_of_ty_eq`: two nodes of one type have the same fields below them.
* `FunctionGraph.addresses_agree`: the three ways for the table of a function, and for the slots that
  its summary exports to a caller.
-/

namespace Dangling

/-- `part` is `ty`, or the type of a field in it, at any depth. -/
def Ty.HasPart (ds : Declarations) (ty part : Ty) : Prop :=
  Relation.ReflTransGen (fun whole field => ∃ name, (name, field) ∈ whole.fields ds) ty part

/-- No field in the type is named like a dereference. -/
def Ty.Unmarked (ds : Declarations) (ty : Ty) : Prop :=
  ∀ part, ty.HasPart ds part → Projection.derefMark ∉ (part.fields ds).map (·.1)

/-- The parts of a type lie in every list of types that holds it and the fields of its members. -/
theorem Ty.HasPart.mem {ds : Declarations} {ty part : Ty} (h : ty.HasPart ds part) {types : List Ty}
    (hclosed : ∀ whole ∈ types, (whole.fields ds).map (·.2) ⊆ types) (hty : ty ∈ types) :
    part ∈ types := by
  induction h with
  | refl => exact hty
  | tail _ hfield ih =>
      obtain ⟨name, hfield⟩ := hfield
      exact hclosed _ ih (List.mem_map.mpr ⟨_, hfield, rfl⟩)

namespace NodeTable

variable {ds : Declarations} {locals : List LocalDecl} {t : NodeTable} {n r : NodeId}
  {fields : List String}

/-! ### Places -/

/-- Where nothing descends any more, only a dereference counts. -/
theorem follow_false (t : NodeTable) (n : NodeId) (steps : List Projection) :
    t.follow false n steps = (n, steps.contains .deref) := by
  induction steps with
  | nil => rfl
  | cons step steps ih =>
      cases step with
      | deref => rfl
      | field f => exact ih

/-- **The steps of a place lead where the fields before its first dereference do.** -/
theorem follow_eq (t : NodeTable) (steps : List Projection) : ∀ n : NodeId,
    t.follow true n steps =
      (t.childAt n ((steps.takeWhile (· ≠ .deref)).map Projection.name), steps.contains .deref) := by
  induction steps with
  | nil => exact fun _ => rfl
  | cons step steps ih =>
      intro n
      cases step with
      | deref => rfl
      | field f =>
          have hfirst : (Projection.field f :: steps).takeWhile (· ≠ .deref) =
              .field f :: steps.takeWhile (· ≠ .deref) := rfl
          rw [follow, hfirst, List.map_cons, Projection.name, childAt]
          cases hc : t.child? n f with
          | some c => exact ih c
          | none => exact t.follow_false n steps

/-- Names without the mark are fields, all of them. -/
theorem names_of_unmarked (h : Projection.derefMark ∉ fields) :
    ((fields.map Projection.ofName).takeWhile (· ≠ .deref)).map Projection.name = fields ∧
      (fields.map Projection.ofName).contains .deref = false := by
  induction fields with
  | nil => exact ⟨rfl, rfl⟩
  | cons f fields ih =>
      rw [List.mem_cons, not_or] at h
      have hfield : Projection.ofName f = .field f := if_neg (Ne.symm h.1)
      obtain ⟨hnames, hderef⟩ := ih h.2
      rw [List.map_cons, hfield]
      exact ⟨congrArg (f :: ·) hnames, hderef⟩

theorem lookup_of_unmarked (t : NodeTable) (l : Nat) (h : Projection.derefMark ∉ fields) :
    t.lookup ⟨l, fields.map Projection.ofName⟩ = (t.childAt l fields, false) := by
  rw [lookup, follow_eq, (names_of_unmarked h).1, (names_of_unmarked h).2]

/-! ### Paths -/

/-- **Going up from a node gives the fields that lead down to it.** -/
theorem fieldPathWithin_eq (hlinked : t.Linked ds locals) (hlayered : t.Layered)
    (hroot : (t.node r).parent = none) (fields : List String) :
    ∀ {depth : Nat} {n : NodeId} (more : List String), fields.length ≤ depth → t.Leads r fields n →
      t.fieldPathWithin depth n more = (r, fields ++ more) := by
  -- the path is taken apart at its end, where the climb begins
  induction fields using List.reverseRecOn with
  | nil =>
      rintro depth n more - rfl
      cases depth with
      | zero => rfl
      | succ depth => rw [fieldPathWithin, hroot]; rfl
  | append_singleton fields f ih =>
      intro depth n more hle hn
      obtain ⟨p, hp, hc⟩ := leads_concat.mp hn
      obtain ⟨room, hroomy⟩ := hlayered
      rw [List.length_append, List.length_singleton] at hle
      cases depth with
      | zero => exact absurd hle (Nat.not_succ_le_zero _)
      | succ depth =>
          rw [fieldPathWithin, hroomy.parent p _ hc, hlinked.name p _ hc, List.append_assoc]
          exact ih (f :: more) (Nat.le_of_succ_le_succ hle) hp

/-- Descending along the fields of a path leads to its end. -/
theorem Filled.childAt_eq (fields : List String) : ∀ {depth : Nat} {r : NodeId},
    t.Filled ds depth r → t.Leads r fields n → t.childAt r fields = n := by
  induction fields with
  | nil => exact fun _ hn => hn
  | cons f fields ih =>
      rintro depth r h ⟨c, hc, hn⟩
      obtain ⟨rest, -, hfilled, -⟩ := h.child hc
      rw [childAt, (child?_eq_some_iff h.nodup_names).mpr hc]
      exact ih hfilled hn

/-- The names on a path are those of fields. -/
theorem Filled.name_mem (fields : List String) : ∀ {depth : Nat} {r : NodeId},
    t.Filled ds depth r → t.Leads r fields n → ∀ f ∈ fields,
      ∃ part, (t.ty r).HasPart ds part ∧ f ∈ (part.fields ds).map (·.1) := by
  induction fields with
  | nil => exact fun _ _ f hf => absurd hf List.not_mem_nil
  | cons f fields ih =>
      rintro depth r h ⟨c, hc, hn⟩ f' hf'
      obtain ⟨rest, -, hfilled, hfield⟩ := h.child hc
      rcases List.mem_cons.mp hf' with rfl | hf'
      · exact ⟨_, .refl, List.mem_map_of_mem hfield⟩
      · obtain ⟨part, hpart, hmem⟩ := ih hfilled hn f' hf'
        exact ⟨part, .head ⟨f, hfield⟩ hpart, hmem⟩

/-- **Two nodes of one type have the same fields below them**, as far as both are filled. -/
theorem Filled.leads_of_ty_eq {t' : NodeTable} (fields : List String) :
    ∀ {depth depth' : Nat} {r r' : NodeId}, t.Filled ds depth r → t'.Filled ds depth' r' →
      t'.ty r' = t.ty r → fields.length ≤ depth' → t.Leads r fields n →
        ∃ n', t'.Leads r' fields n' ∧ t'.ty n' = t.ty n := by
  induction fields with
  | nil =>
      rintro depth depth' r r' - - hty - rfl
      exact ⟨r', rfl, hty⟩
  | cons f fields ih =>
      rintro depth depth' r r' h h' hty hle ⟨c, hc, hn⟩
      cases depth' with
      | zero => exact absurd hle (Nat.not_succ_le_zero _)
      | succ depth' =>
          -- the field of the one type is a field of the other
          obtain ⟨rest, -, hfilled, hfield⟩ := h.child hc
          rw [← hty, ← h'.1, typedChildren, List.mem_map] at hfield
          obtain ⟨c', hc', he⟩ := hfield
          obtain ⟨rfl, hty'⟩ := Prod.mk.inj he
          obtain ⟨n', hn', hlast⟩ :=
            ih hfilled (h'.2 c' hc') hty' (Nat.le_of_succ_le_succ hle) hn
          exact ⟨n', ⟨c'.2, hc', hn'⟩, hlast⟩

theorem lt_of_leads (h : t.Closed) : ∀ {r : NodeId}, r < t.size → t.Leads r fields n →
    n < t.size := by
  induction fields with
  | nil =>
      rintro r hr rfl
      exact hr
  | cons f fields ih =>
      rintro r - ⟨c, hc, hn⟩
      exact ih (h.child r _ hc) hn

/-- The fields that lead to a node from a local are its field path. -/
theorem fieldPath_of_leads (ds : Declarations) {locals : List LocalDecl} {l : NodeId}
    (hl : l < locals.length) (h : (ofLocals ds locals).Leads l fields n) :
    (ofLocals ds locals).fieldPath n = (l, fields) := by
  obtain ⟨rest, hrest, -⟩ := (filled_ofLocals ds hl).of_leads h
  have hpath := fieldPathWithin_eq (linked_ofLocals ds locals) (layered_ofLocals ds locals)
    ((rooted_ofLocals ds locals).root l hl) fields [] (hrest ▸ Nat.le_add_left _ _) h
  rw [fieldPath, hpath, List.append_nil]

/-- **A field path starts at the node's local and leads to the node.** -/
theorem fieldPath_ofLocals (ds : Declarations) {locals : List LocalDecl}
    (hn : n < (ofLocals ds locals).size) :
    ∃ fields, ((ofLocals ds locals).node n).base < locals.length ∧
      (ofLocals ds locals).fieldPath n = (((ofLocals ds locals).node n).base, fields) ∧
      (ofLocals ds locals).Leads ((ofLocals ds locals).node n).base fields n := by
  have hbase := base_lt (linked_ofLocals ds locals) (based_ofLocals ds locals) hn
  obtain ⟨fields, hfields⟩ := exists_leads (based_ofLocals ds locals) hn
  exact ⟨fields, hbase, fieldPath_of_leads ds hbase hfields, hfields⟩

/-- Descending along the field path of a node leads back to the node. -/
theorem childAt_fieldPath (ds : Declarations) {locals : List LocalDecl}
    (hn : n < (ofLocals ds locals).size) :
    (ofLocals ds locals).childAt ((ofLocals ds locals).fieldPath n).1
      ((ofLocals ds locals).fieldPath n).2 = n := by
  obtain ⟨fields, hbase, hpath, hleads⟩ := fieldPath_ofLocals ds hn
  rw [hpath]
  exact (filled_ofLocals ds hbase).childAt_eq fields hleads

theorem unmarked_fieldPath (hunmarked : ∀ d ∈ locals, d.ty.Unmarked ds)
    (hn : n < (ofLocals ds locals).size) :
    Projection.derefMark ∉ ((ofLocals ds locals).fieldPath n).2 := by
  obtain ⟨fields, hbase, hpath, hleads⟩ := fieldPath_ofLocals ds hn
  rw [hpath]
  intro hmark
  obtain ⟨part, hpart, hmem⟩ := (filled_ofLocals ds hbase).name_mem fields hleads _ hmark
  rw [(filledUpTo_ofLocals ds locals).ty _ _ (List.getElem?_eq_getElem hbase)] at hpart
  exact hunmarked _ (List.getElem_mem hbase) part hpart hmem

/-- **Below a node of the same type lies the same field**, if the fields above it leave room for the
path. -/
theorem childAt_of_ty_eq {locals' : List LocalDecl} {l a : NodeId} (hl : l < locals.length)
    (hleads : (ofLocals ds locals).Leads l fields n)
    (ha : a < (ofLocals ds locals').size)
    (hty : (ofLocals ds locals').ty a = (ofLocals ds locals).ty l)
    (hroom : ((ofLocals ds locals').fieldPath a).2.length + fields.length ≤ maxFieldDepth) :
    ∃ m, (ofLocals ds locals').childAt a fields = m ∧ m < (ofLocals ds locals').size ∧
      (ofLocals ds locals').fieldPath m = (((ofLocals ds locals').fieldPath a).1,
        ((ofLocals ds locals').fieldPath a).2 ++ fields) ∧
      (ofLocals ds locals').ty m = (ofLocals ds locals).ty n := by
  obtain ⟨above, hbase, hpath, habove⟩ := fieldPath_ofLocals ds ha
  rw [hpath] at hroom ⊢
  obtain ⟨rest, hrest, hfilled⟩ := (filled_ofLocals ds hbase).of_leads habove
  have hle : fields.length ≤ rest := by
    rw [← hrest, Nat.add_comm] at hroom
    exact Nat.le_of_add_le_add_right hroom
  obtain ⟨m, hm, htym⟩ := (filled_ofLocals ds hl).leads_of_ty_eq fields hfilled hty hle hleads
  exact ⟨m, hfilled.childAt_eq fields hm, lt_of_leads (closed_ofLocals ds _) ha hm,
    fieldPath_of_leads ds hbase (leads_append.mpr ⟨a, habove, hm⟩), htym⟩

end NodeTable

/-! ### Slots -/

/-- A slot stands for what lies at its fields below the argument, or below the result. -/
theorem CallSite.slotNode_eq {t : NodeTable} {c : CallSite} {dest a : NodeId} {s : Slot}
    (h : c.slotNode t dest ⟨s.slot, []⟩ = some a) :
    c.slotNode t dest s = some (t.childAt a s.fields) := by
  rw [slotNode] at h ⊢
  split at h
  case h_1 e =>
    obtain rfl := Option.some.inj h
    rw [show s.slot = 0 from e]
    rfl
  case h_2 i e =>
    rw [show s.slot = i + 1 from e]
    obtain ⟨x, hx, rfl⟩ := Option.map_eq_some_iff.mp h
    exact Option.map_eq_some_iff.mpr ⟨x, hx, rfl⟩

namespace FunctionGraph

variable {ds : Declarations} {b : Body} {g : FunctionGraph}

/-- A slot is the field path of its node. -/
theorem slot_of_slot? (h : ofBody ds b = .ok g) {n : NodeId} (hn : n < g.nodes.size) {s : Slot}
    (hs : g.slot? n = some s) : g.nodes.fieldPath n = (s.slot, s.fields) := by
  rw [slot?] at hs
  split at hs
  · obtain rfl := Option.some.inj hs
    rw [(built_of_ofBody h).nodes_eq] at hn ⊢
    obtain ⟨fields, -, hpath, -⟩ := NodeTable.fieldPath_ofLocals ds hn
    rw [hpath]
  · cases hs

/-- An exported slot leads to the same field below a node of the parameter's type and depth. -/
theorem childAt_of_slot? (h : ofBody ds b = .ok g) {n : NodeId} (hn : n < g.nodes.size) {s : Slot}
    (hs : g.slot? n = some s) {caller : Body} {g' : FunctionGraph} (h' : ofBody ds caller = .ok g')
    {a : NodeId} (ha : a < g'.nodes.size) (hty : g'.nodes.ty a = g.nodes.ty s.slot)
    (hdepth : (g'.nodes.fieldPath a).2.length = (g.nodes.fieldPath s.slot).2.length) :
    ∃ m, g'.nodes.childAt a s.fields = m ∧ m < g'.nodes.size ∧
      g'.nodes.fieldPath m = ((g'.nodes.fieldPath a).1, (g'.nodes.fieldPath a).2 ++ s.fields) ∧
      g'.nodes.ty m = g.nodes.ty n := by
  have hslot := slot_of_slot? h hn hs
  rw [(built_of_ofBody h).nodes_eq] at hn hslot hty hdepth ⊢
  rw [(built_of_ofBody h').nodes_eq] at ha hty hdepth ⊢
  obtain ⟨fields, hbase, hpath, hleads⟩ := NodeTable.fieldPath_ofLocals ds hn
  obtain ⟨hl, rfl⟩ := Prod.mk.inj (hpath.symm.trans hslot)
  rw [hl] at hbase hleads
  -- the parameter is a local, so its own path is empty
  have hself : (NodeTable.ofLocals ds b.locals).Leads s.slot [] s.slot := rfl
  rw [NodeTable.fieldPath_of_leads ds hbase hself] at hdepth
  obtain ⟨rest, hrest, -⟩ := (NodeTable.filled_ofLocals ds hbase).of_leads hleads
  refine NodeTable.childAt_of_ty_eq hbase hleads ha hty ?_
  rw [hdepth, List.length_nil, Nat.zero_add]
  exact hrest ▸ Nat.le_add_left _ _

/-- **The ways to address a node agree.**  A place leads where its fields do that come before its first
dereference.  The field path of a node leads back to it, as fields and, unless a field has the name of a
dereference, as a place; so different nodes have different paths, and different slots.  And a slot of a
summary leads in a caller, whose argument has the type and the depth of the parameter, to the same field
of the argument. -/
theorem addresses_agree (h : ofBody ds b = .ok g) :
    (∀ place, g.nodes.lookup place =
      (g.nodes.childAt place.base ((place.steps.takeWhile (· ≠ .deref)).map Projection.name),
        place.hasDeref)) ∧
    (∀ n < g.nodes.size, ∀ l fields, g.nodes.fieldPath n = (l, fields) →
      l < b.locals.length ∧ g.nodes.childAt l fields = n ∧
      ((∀ d ∈ b.locals, d.ty.Unmarked ds) →
        g.nodes.lookup ⟨l, fields.map Projection.ofName⟩ = (n, false))) ∧
    (∀ n < g.nodes.size, ∀ m < g.nodes.size, g.nodes.fieldPath n = g.nodes.fieldPath m → n = m) ∧
    (∀ n < g.nodes.size, ∀ m < g.nodes.size, ∀ s, g.slot? n = some s → g.slot? m = some s → n = m) ∧
    ∀ n < g.nodes.size, ∀ s, g.slot? n = some s →
      ∀ (caller : Body) (g' : FunctionGraph), ofBody ds caller = .ok g' →
      ∀ (c : CallSite) (dest a : NodeId), c.slotNode g'.nodes dest ⟨s.slot, []⟩ = some a →
        a < g'.nodes.size → g'.nodes.ty a = g.nodes.ty s.slot →
        (g'.nodes.fieldPath a).2.length = (g.nodes.fieldPath s.slot).2.length →
        ∃ m, c.slotNode g'.nodes dest s = some m ∧ m < g'.nodes.size ∧
          g'.nodes.fieldPath m = ((g'.nodes.fieldPath a).1, (g'.nodes.fieldPath a).2 ++ s.fields) ∧
          g'.nodes.ty m = g.nodes.ty n := by
  have hnodes := (built_of_ofBody h).nodes_eq
  have hback : ∀ n < g.nodes.size,
      g.nodes.childAt (g.nodes.fieldPath n).1 (g.nodes.fieldPath n).2 = n := by
    rw [hnodes]
    exact fun n hn => NodeTable.childAt_fieldPath ds hn
  have hinj : ∀ n < g.nodes.size, ∀ m < g.nodes.size,
      g.nodes.fieldPath n = g.nodes.fieldPath m → n = m := fun n hn m hm e => by
    rw [← hback n hn, e, hback m hm]
  refine ⟨fun place => g.nodes.follow_eq place.steps place.base, fun n hn l fields hpath => ?_, hinj,
    fun n hn m hm s hsn hsm => ?_, fun n hn s hs caller g' h' c dest a harg ha hty hdepth => ?_⟩
  · have hchild := hback n hn
    rw [hpath] at hchild
    refine ⟨?_, hchild, fun hunmarked => ?_⟩
    · rw [hnodes] at hn hpath
      obtain ⟨_, hbase, hpath', -⟩ := NodeTable.fieldPath_ofLocals ds hn
      rw [hpath] at hpath'
      exact (Prod.mk.inj hpath').1 ▸ hbase
    · have hplain : Projection.derefMark ∉ (g.nodes.fieldPath n).2 := by
        rw [hnodes] at hn ⊢
        exact NodeTable.unmarked_fieldPath hunmarked hn
      rw [hpath] at hplain
      rw [NodeTable.lookup_of_unmarked _ _ hplain, hchild]
  · exact hinj n hn m hm ((slot_of_slot? h hn hsn).trans (slot_of_slot? h hm hsm).symm)
  · obtain ⟨m, hm, hrest⟩ := childAt_of_slot? h hn hs h' ha hty hdepth
    exact ⟨m, (CallSite.slotNode_eq harg).trans (congrArg some hm), hrest⟩

end FunctionGraph

/-- The types that occur in `links`. -/
def linkTypes : List Ty :=
  [Ty.unit, .nominal "Chain" [], .tuple [.nominal "Chain" [], Ty.int32], Ty.int32,
    Ty.container .string "String" []]

theorem linkTypes_closed : ∀ ty ∈ linkTypes, (ty.fields chains).map (·.2) ⊆ linkTypes := by
  have hfields : linkTypes.map (fun ty => (ty.fields chains).map (·.2)) =
      [[], [Ty.container .string "String" [], .nominal "Chain" []], [.nominal "Chain" [], Ty.int32],
        [], []] := rfl
  have hparts : ∀ parts ∈ linkTypes.map (fun ty => (ty.fields chains).map (·.2)),
      parts ⊆ linkTypes := by
    rw [hfields]
    simp [linkTypes]
  exact List.forall_mem_map.mp hparts

/-- Their fields are those of a chain or of a pair. -/
theorem links_names {d : LocalDecl} (hd : d ∈ links.locals) {part : Ty}
    (h : d.ty.HasPart chains part) :
    (part.fields chains).map (·.1) ∈ [[], ["value", "next"], ["0", "1"]] := by
  have hty : d.ty ∈ linkTypes := by
    revert d
    simp [links, linkTypes]
  have hpart := h.mem linkTypes_closed hty
  simp only [linkTypes, List.mem_cons, List.not_mem_nil, or_false] at hpart
  obtain rfl | rfl | rfl | rfl | rfl := hpart <;> decide

/-- A caller of `links`, which passes the second of its chains. -/
def relinks : Body where
  name := "relinks"
  argCount := 2
  locals := [{ ty := Ty.unit }, { ty := .nominal "Chain" [] }, { ty := .nominal "Chain" [] }]
  blocks :=
    [{ id := 0, statements := [],
       terminator := ⟨default, .call "links" [.move { base := 2 }] { base := 0 } (some 1) none⟩ },
     { id := 1, statements := [], terminator := ⟨default, .ret⟩ }]
  distinct := by decide

/-- Its graph. -/
def relinksGraph : FunctionGraph := (FunctionGraph.ofBody chains relinks).toOption.get rfl

/-- The value of the second link, in the function and in its caller. -/
theorem links_second_value :
    linksGraph.nodes.childAt 1 ["next", "value"] = 5 ∧
      linksGraph.nodes.lookup ⟨1, [.field "next", .field "value"]⟩ = (5, false) ∧
      ∃ m, CallSite.slotNode relinksGraph.nodes ⟨default, "links", .unknown, [.move { base := 2 }]⟩ 0
          ⟨1, ["next", "value"]⟩ = some m ∧
        relinksGraph.nodes.fieldPath m = (2, ["next", "value"]) := by
  have hg : FunctionGraph.ofBody chains links = .ok linksGraph := rfl
  have hnames : ∀ names ∈ [[], ["value", "next"], ["0", "1"]], Projection.derefMark ∉ names := by
    decide
  have hunmarked : ∀ d ∈ links.locals, d.ty.Unmarked chains := fun d hd part hpart =>
    hnames _ (links_names hd hpart)
  obtain ⟨-, hpath, -, -, hslot⟩ := FunctionGraph.addresses_agree hg
  obtain ⟨-, hchild, hlookup⟩ := hpath 5 (by decide) 1 ["next", "value"] (by decide)
  have hty : relinksGraph.nodes.ty 2 = .nominal "Chain" [] ∧
      linksGraph.nodes.ty 1 = .nominal "Chain" [] := ⟨rfl, rfl⟩
  obtain ⟨m, hm, -, hfields, -⟩ := hslot 5 (by decide) ⟨1, ["next", "value"]⟩ (by decide) relinks
    relinksGraph rfl ⟨default, "links", .unknown, [.move { base := 2 }]⟩ 0 2 (by decide) (by decide)
    (hty.1.trans hty.2.symm) (by decide)
  exact ⟨hchild, hlookup hunmarked, m, hm, hfields⟩

end Dangling
