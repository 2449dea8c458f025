import Dangling.Proofs.Mir.Declared

/-!
# Proofs — Mir — Entries

The functions of a document are read one by one, over declared types that are settled before the
first.  So the body of an entry depends on the entry, the file name and the declared types, and on no
other entry: alone in a document it becomes the body that it has among others.

* `Document.functions_eq_ok`: the bodies of a document are those of its entries, in order.
* `Document.Opening`: a document whose declared types and function list are read.
* `Importer.entries_read_independently`: an entry has the same body alone and among others.
-/

namespace Dangling

/-! ### The function list -/

namespace DistinctBy

variable {α β : Type} {key : α → β} [DecidableEq β] {xs ys : DistinctBy key} {x : α}

theorem push?_eq_some : xs.push? x = some ys ↔ ys.1 = xs.1 ++ [x] := by
  rw [push?]
  split
  case isTrue h =>
    refine iff_of_false (by simp) fun hys => ?_
    have hnodup := ys.2
    rw [hys, List.map_append, List.nodup_append] at hnodup
    exact hnodup.2.2 (key x) h (key x) (.head _) rfl
  case isFalse =>
    rw [Option.some.injEq]
    exact ⟨fun h => h ▸ rfl, fun h => Subtype.ext h.symm⟩

/-- A member of a longer list can be added. -/
theorem push?_ne_none {more : List α} (h : ys.1 = xs.1 ++ x :: more) : xs.push? x ≠ none := by
  have hnodup : ((xs.1 ++ [x]).map key).Nodup := by
    have hys := ys.2
    rw [h, List.append_cons, List.map_append] at hys
    exact (List.nodup_append.mp hys).1
  have hpush : xs.push? x = some ⟨xs.1 ++ [x], hnodup⟩ := push?_eq_some.mpr rfl
  simp [hpush]

end DistinctBy

/-- What two related lists have at one position is related. -/
theorem forall₂_getElem? {α β : Type} {R : α → β → Prop} {xs : List α} {ys : List β}
    (h : List.Forall₂ R xs ys) {k : Nat} {a : α} (ha : xs[k]? = some a) :
    ∃ b, ys[k]? = some b ∧ R a b := by
  induction h generalizing k with
  | nil => cases ha
  | cons hab _ ih =>
      cases k with
      | zero =>
          obtain rfl := Option.some.inj ha
          exact ⟨_, rfl, hab⟩
      | succ k => exact ih ha

namespace Document

open Ty.Reader

variable {file : String} {table : Table} {entered : Entered}

/-- The bodies of a document are those of its entries, in order. -/
theorem functions_eq_ok {current : String} {done r : DistinctBy Body.name}
    {entries : List Json.Value} :
    (functions file table entered current done entries).1 = .ok r ↔
      ∃ bodies, List.Forall₂ (fun e b => function file table entered e = .ok b) entries bodies ∧
        r.1 = done.1 ++ bodies := by
  induction entries generalizing current done with
  | nil =>
      simp only [functions, List.forall₂_nil_left_iff, Except.ok.injEq]
      constructor
      · rintro rfl
        exact ⟨[], rfl, (List.append_nil _).symm⟩
      · rintro ⟨_, rfl, hr⟩
        exact Subtype.ext ((hr.trans (List.append_nil _)).symm)
  | cons e entries ih =>
      simp only [functions, List.forall₂_cons_left_iff]
      cases he : function file table entered e with
      | error cause =>
          refine iff_of_false (by simp) ?_
          rintro ⟨_, ⟨b, _, hb, -⟩, -⟩
          cases hb
      | ok b =>
          dsimp only
          cases hpush : done.push? b with
          | none =>
              refine iff_of_false (by simp) ?_
              rintro ⟨_, ⟨_, bodies, hb, -, rfl⟩, hr⟩
              obtain rfl := Except.ok.inj hb
              exact DistinctBy.push?_ne_none hr hpush
          | some next =>
              dsimp only
              rw [ih, DistinctBy.push?_eq_some.mp hpush]
              constructor
              · rintro ⟨bodies, hbodies, hr⟩
                exact ⟨b :: bodies, ⟨b, bodies, rfl, hbodies, rfl⟩, by simp [hr]⟩
              · rintro ⟨_, ⟨_, bodies, hb, hbodies, rfl⟩, hr⟩
                obtain rfl := Except.ok.inj hb
                exact ⟨bodies, hbodies, by simp [hr]⟩

/-! ### Opened documents -/

/-- What a document declares and lists, read without a fault. -/
structure Opening (file : String) (o : List (String × Json.Value)) where
  table : Table
  adts : List (String × Ty)
  entered : Entered
  entries : List Json.Value
  table_eq : Document.table file o = .ok table
  declarations_eq : ∀ current,
    declarations current table (table.map (·.1)) .none = .ok (adts, entered)
  entries_eq : functionList file o = .ok entries

/-- The function that faults are reported for does not matter where there is none. -/
theorem declarations_current {current : String} {names : List String} {s : Entered}
    {x : List (String × Ty) × Entered} (h : declarations current table names s = .ok x)
    (current' : String) : declarations current' table names s = .ok x := by
  induction names generalizing s x with
  | nil => exact h
  | cons name rest ih =>
      rw [declarations] at h ⊢
      cases hname : Ty.read table (.str name) s with
      | error e =>
          rw [hname] at h
          cases h
      | ok y =>
          rw [hname] at h
          obtain ⟨z, hz, hx⟩ := bind_eq_ok.mp h
          exact bind_eq_ok.mpr ⟨z, ih hz, hx⟩

/-- The declared types of an opened document are settled. -/
theorem Opening.settled {o : List (String × Json.Value)} (op : Opening file o) :
    Settled op.table op.entered :=
  settled_of_declarations (op.declarations_eq "")

end Document

namespace Importer

open Document Ty.Reader

variable {i : Importer} {file : String} {o : List (String × Json.Value)} {p : Program}

theorem document_eq (op : Opening file o) (i : Importer) :
    (i.document file (.obj o)).1 =
      (functions file op.table op.entered i.current .empty op.entries).1.map fun r =>
        { crate := (member o "crate" (.str "crate")).text, sourceFiles := [file], adts := op.adts,
          decls := op.entered.decls, library := i.library, bodies := r.1, distinct := r.2 } := by
  rw [document]
  simp only [op.table_eq, op.declarations_eq, op.entries_eq, ok_bind]

/-- A document that is not opened is refused for its declared types or its function list. -/
theorem opening_or_refused (i : Importer) (file : String) (o : List (String × Json.Value)) :
    Nonempty (Opening file o) ∨ ∃ e, (i.document file (.obj o)).1 = .error e ∧
      (Document.table file o = .error e ∨ functionList file o = .error e ∨
        ∃ table, Document.table file o = .ok table ∧
          declarations i.current table (table.map (·.1)) .none = .error e) := by
  rw [document]
  cases htable : Document.table file o with
  | error e =>
      refine .inr ⟨e, ?_, .inl rfl⟩
      simp only [error_bind]
  | ok table =>
      cases hdecls : declarations i.current table (table.map (·.1)) .none with
      | error e =>
          refine .inr ⟨e, ?_, .inr (.inr ⟨table, rfl, hdecls⟩)⟩
          simp only [hdecls, ok_bind, error_bind]
      | ok x =>
          cases hlist : functionList file o with
          | error e =>
              refine .inr ⟨e, ?_, .inr (.inl rfl)⟩
              simp only [hdecls, ok_bind, error_bind]
          | ok entries =>
              exact .inl ⟨⟨table, x.1, x.2, entries, htable, declarations_current hdecls, hlist⟩⟩

/-- A document that is read is opened first. -/
theorem exists_opening (h : (i.document file (.obj o)).1 = .ok p) : Nonempty (Opening file o) := by
  obtain hop | ⟨e, he, -⟩ := opening_or_refused i file o
  · exact hop
  · rw [h] at he
    cases he

/-- The program of an opened document has the bodies of its entries, in order. -/
theorem document_eq_ok (op : Opening file o) :
    (i.document file (.obj o)).1 = .ok p ↔
      p.crate = (member o "crate" (.str "crate")).text ∧ p.sourceFiles = [file] ∧
        p.adts = op.adts ∧ p.decls = op.entered.decls ∧ p.library = i.library ∧
        List.Forall₂ (fun e b => function file op.table op.entered e = .ok b) op.entries
          p.bodies := by
  rw [document_eq op]
  constructor
  · intro h
    cases hr : (functions file op.table op.entered i.current .empty op.entries).1 with
    | error e =>
        rw [hr] at h
        cases h
    | ok r =>
        rw [hr] at h
        obtain ⟨bodies, hbodies, hrest⟩ := functions_eq_ok.mp hr
        obtain ⟨_, _⟩ := r
        obtain rfl := hrest
        cases h
        exact ⟨rfl, rfl, rfl, rfl, rfl, hbodies⟩
  · rintro ⟨hcrate, hfiles, hadts, hdecls, hlibrary, hbodies⟩
    have hr : (functions file op.table op.entered i.current .empty op.entries).1 =
        .ok ⟨p.bodies, p.distinct⟩ := functions_eq_ok.mpr ⟨p.bodies, hbodies, rfl⟩
    rw [hr]
    cases p
    subst hcrate hfiles hadts hdecls hlibrary
    rfl

/-- Two documents that declare the same types are opened alike. -/
theorem opening_congr (op : Opening file o) {o' : List (String × Json.Value)}
    (hadts : member o' "adts" = member o "adts") {entries : List Json.Value}
    (hentries : functionList file o' = .ok entries) :
    ∃ op' : Opening file o', op'.table = op.table ∧ op'.adts = op.adts ∧
      op'.entered = op.entered ∧ op'.entries = entries := by
  have htable : Document.table file o' = .ok op.table := by
    rw [← op.table_eq, Document.table, Document.table, hadts]
  exact ⟨⟨op.table, op.adts, op.entered, entries, htable, op.declarations_eq, hentries⟩,
    rfl, rfl, rfl, rfl⟩

/-- **Entries are read independently.**  In a document that is read, every entry of the function list
has one body.  In every document that declares the same types,

* an entry alone is read too, to the same body;
* and among whatever other entries, in whatever order, it has the same body.

The declared types are settled before the first entry: reading a type text, be it refused or not,
leaves them as they are, and what comes out depends on the text and the declared names alone. -/
theorem entries_read_independently {entries : List Json.Value}
    (hread : (i.document file (.obj o)).1 = .ok p) (hentries : functionList file o = .ok entries) :
    p.bodies.length = entries.length ∧
      (∀ (k : Nat) (e : Json.Value), entries[k]? = some e →
        ∀ (i' : Importer) (o' : List (String × Json.Value)), member o' "adts" = member o "adts" →
          (member o' "crate" (.str "crate") = member o "crate" (.str "crate") →
            member o' "functions" (.arr []) = .arr [e] →
            ∃ p', (i'.document file (.obj o')).1 = .ok p' ∧ p'.crate = p.crate ∧
              p'.sourceFiles = p.sourceFiles ∧ p'.adts = p.adts ∧ p'.decls = p.decls ∧
              ∃ b, p'.bodies = [b] ∧ p.bodies[k]? = some b) ∧
          ∀ (entries' : List Json.Value) (p' : Program) (k' : Nat),
            functionList file o' = .ok entries' →
            (i'.document file (.obj o')).1 = .ok p' → entries'[k']? = some e →
            p'.bodies[k']? = p.bodies[k]?) ∧
      ∃ table entered, Document.table file o = .ok table ∧
        declarations i.current table (table.map (·.1)) .none = .ok (p.adts, entered) ∧
        entered.decls = p.decls ∧
        ∀ v, Ty.read table v entered = (scanned table v).map fun t => (t, entered) := by
  obtain ⟨op⟩ := exists_opening hread
  obtain rfl := Except.ok.inj (op.entries_eq.symm.trans hentries)
  obtain ⟨hcrate, hfiles, hadts, hdecls, -, hbodies⟩ := (document_eq_ok op).mp hread
  refine ⟨hbodies.length_eq.symm, fun k e he i' o' hadts' => ⟨fun hcrate' halone => ?_,
    fun entries' p' k' hentries' hread' he' => ?_⟩, op.table, op.entered, op.table_eq, ?_,
    hdecls.symm, op.settled.read_eq⟩
  · obtain ⟨b, hb, heb⟩ := forall₂_getElem? hbodies he
    have hlist : functionList file o' = .ok [e] := by
      rw [functionList, halone]
    obtain ⟨op', htable, hadts', hentered, hlist'⟩ := opening_congr op hadts' hlist
    let p' : Program :=
      { crate := p.crate, sourceFiles := [file], adts := op.adts, decls := op.entered.decls,
        library := i'.library, bodies := [b], distinct := List.pairwise_singleton _ _ }
    refine ⟨p', (document_eq_ok op').mpr ?_, rfl, hfiles.symm, hadts.symm, hdecls.symm, b, rfl, hb⟩
    rw [hlist', htable, hentered]
    refine ⟨hcrate.trans (by rw [hcrate']), rfl, hadts'.symm, rfl, rfl, .cons heb .nil⟩
  · obtain ⟨b, hb, heb⟩ := forall₂_getElem? hbodies he
    obtain ⟨op', htable, -, hentered, rfl⟩ := opening_congr op hadts' hentries'
    obtain ⟨-, -, -, -, -, hbodies'⟩ := (document_eq_ok op').mp hread'
    obtain ⟨b', hb', heb'⟩ := forall₂_getElem? hbodies' he'
    rw [htable, hentered, heb] at heb'
    rw [hb, hb', Except.ok.inj heb']
  · rw [hadts]
    exact op.declarations_eq i.current

/-- A declared type that points to itself. -/
def nodeTypes : Json.Value :=
  .obj [("Node", .obj [("fields", .obj [("next", .str "*mut Node")])])]

/-- An entry with a block that has no terminator. -/
def brokenEntry : Json.Value :=
  .obj [("name", .str "broken"), ("locals", .arr [.str "Node"]), ("blocks", .arr [.obj []])]

/-- An entry that uses the declared type. -/
def nodeEntry : Json.Value :=
  .obj [("name", .str "node"), ("locals", .arr [.str "()", .str "Vec<Node>"])]

/-- A document with both entries. -/
def twoEntries : List (String × Json.Value) :=
  [("adts", nodeTypes), ("functions", .arr [brokenEntry, nodeEntry])]

/-- A document with the second alone. -/
def nodeAlone : List (String × Json.Value) := [("adts", nodeTypes), ("functions", .arr [nodeEntry])]

/-- The program of the first document. -/
def twoEntriesProgram : Program :=
  (({} : Importer).document "two.json" (.obj twoEntries)).1.toOption.get rfl

/-- The second entry has the same body without the broken one before it. -/
theorem nodeEntry_read_alone :
    (({} : Importer).document "two.json" (.obj twoEntries)).1 = .ok twoEntriesProgram ∧
      functionList "two.json" twoEntries = .ok [brokenEntry, nodeEntry] ∧
      ∃ p', (({} : Importer).document "two.json" (.obj nodeAlone)).1 = .ok p' ∧
        ∃ b, p'.bodies = [b] ∧ twoEntriesProgram.bodies[1]? = some b := by
  have hread : (({} : Importer).document "two.json" (.obj twoEntries)).1 = .ok twoEntriesProgram :=
    rfl
  have hentries : functionList "two.json" twoEntries = .ok [brokenEntry, nodeEntry] := rfl
  obtain ⟨-, hentry, -⟩ := entries_read_independently hread hentries
  obtain ⟨p', hp', -, -, -, -, hb⟩ := (hentry 1 nodeEntry rfl {} nodeAlone rfl).1 rfl rfl
  exact ⟨hread, hentries, p', hp', hb⟩

end Importer

end Dangling
