import Dangling.Proofs.Mir.Entries

/-!
# Proofs — Mir — Histories

One importer reads dump after dump.  All that is left of those it has read, accepted or refused, is
the name of the function that was read last, and all that looks at this name is the wording of a
fault in the declared types of the next dump: they are read before its first function.

* `Dump`, `Importer.read`, `Importer.after`: a dump, reading it, and reading a history of dumps.
* `Document.declared`: the declared types, with their faults told for no function.
* `Dump.functionsRead`: the functions that reading a dump comes to.
* `Importer.after_eq`: what a history leaves behind.
* `Importer.history_leaves_last_function`: when a dump is read as by a new importer, and when not.
-/

namespace Dangling

/-- A dump to read, as a text or decoded, with the name of its file. -/
inductive Dump where
  | text (file source : String)
  | decoded (file : String) (value : Json.Value)

namespace Importer

/-- Reads a dump. -/
def read (i : Importer) : Dump → Except Refusal Program × Importer
  | .text file source => i.text file source
  | .decoded file v => i.document file v

/-- The importer when the dumps of a history are read, each accepted or refused. -/
def after (i : Importer) (history : List Dump) : Importer :=
  history.foldl (fun i d => (i.read d).2) i

end Importer

/-! ### Declared types -/

theorem mapError_eq_ok {ε ε' α : Type} {x : Except ε α} {f : ε → ε'} {a : α} :
    x.mapError f = .ok a ↔ x = .ok a := by
  cases x with
  | error e => simp [Except.mapError]
  | ok b => simp [Except.mapError]

namespace Document

open Ty.Reader

/-- The declared types of a document, or the first fault among them. -/
def declared (table : Table) :
    (names : List String) → Entered → Except TypeFault (List (String × Ty) × Entered)
  | [], s => .ok ([], s)
  | name :: rest, s => do
    let (t, s) ← Ty.read table (.str name) s
    let (ts, s) ← declared table rest s
    .ok ((name, t) :: ts, s)

/-- Who is at work counts for the wording of a fault only. -/
theorem declarations_eq (current : String) (table : Table) (names : List String) (s : Entered) :
    declarations current table names s =
      (declared table names s).mapError (typeRefusal current) := by
  induction names generalizing s with
  | nil => rfl
  | cons name rest ih =>
      rw [declarations, declared]
      cases Ty.read table (.str name) s with
      | error fault => rfl
      | ok x =>
          simp only [ok_bind, ih]
          cases declared table rest x.2 <;> rfl

/-- What a document declares and lists, before its functions are read. -/
structure Head where
  table : Table
  adts : List (String × Ty)
  entered : Entered
  entries : List Json.Value

/-- Why the head of a document is refused: by itself, or for a fault in its declared types. -/
inductive HeadFault where
  | refused (e : Refusal)
  | type (fault : TypeFault)

/-- The refusal, told by an importer that read the function `current` last. -/
def HeadFault.refusal (current : String) : HeadFault → Refusal
  | .refused e => e
  | .type fault => typeRefusal current fault

/-- Reads the head of a document. -/
def head (file : String) (o : List (String × Json.Value)) : Except HeadFault Head := do
  let table ← (Document.table file o).mapError .refused
  let x ← (declared table (table.map (·.1)) .none).mapError .type
  let entries ← (functionList file o).mapError .refused
  .ok ⟨table, x.1, x.2, entries⟩

/-! ### The functions of a document -/

/-- The entries that are read: all up to the first that is refused or whose name is taken. -/
def reached (file : String) (table : Table) (entered : Entered) :
    (done : DistinctBy Body.name) → List Json.Value → List Json.Value
  | _, [] => []
  | done, v :: rest =>
    match function file table entered v with
    | .error _ => [v]
    | .ok b =>
      match done.push? b with
      | none => [v]
      | some done => v :: reached file table entered done rest

theorem getLast?_getD_cons {α : Type} (x y : α) (xs : List α) :
    (x :: xs).getLast?.getD y = xs.getLast?.getD x := by
  rw [List.getLast?_cons]
  rfl

/-- Of the names read the last one stays. -/
theorem functions_current (file : String) (table : Table) (entered : Entered) (current : String)
    (done : DistinctBy Body.name) (entries : List Json.Value) :
    (functions file table entered current done entries).2 =
      ((reached file table entered done entries).filterMap functionName?).getLast?.getD current := by
  induction entries generalizing current done with
  | nil => rfl
  | cons v rest ih =>
      have hone : ((functionName? v).getD current : String) =
          ([v].filterMap functionName?).getLast?.getD current := by
        cases hv : functionName? v with
        | none => simp [hv]
        | some name => simp [hv]
      rw [functions, reached]
      cases function file table entered v with
      | error e => exact hone
      | ok b =>
          dsimp only
          cases done.push? b with
          | none => exact hone
          | some next =>
              dsimp only
              rw [ih, List.filterMap_cons]
              cases functionName? v with
              | none => rfl
              | some name => exact (getLast?_getD_cons name current _).symm

/-- The result of reading the functions does not depend on what was read before. -/
theorem functions_result (file : String) (table : Table) (entered : Entered)
    (current current' : String) (done : DistinctBy Body.name) (entries : List Json.Value) :
    (functions file table entered current done entries).1 =
      (functions file table entered current' done entries).1 := by
  induction entries generalizing current current' done with
  | nil => rfl
  | cons v rest ih =>
      rw [functions, functions]
      cases function file table entered v with
      | error e => rfl
      | ok b =>
          dsimp only
          cases done.push? b with
          | none => rfl
          | some next => exact ih _ _ next

/-- The names of the functions that reading a document comes to, in order. -/
def functionsRead (file : String) : Json.Value → List String
  | .obj o =>
    match head file o with
    | .error _ => []
    | .ok h => (reached file h.table h.entered .empty h.entries).filterMap functionName?
  | _ => []

end Document

namespace Dump

/-- The value of a dump, if its text is one. -/
def value? : Dump → Option Json.Value
  | .text _ source => (Json.read source).toOption
  | .decoded _ v => some v

def file : Dump → String
  | .text file _ => file
  | .decoded file _ => file

/-- The names of the functions that reading a dump comes to, in order. -/
def functionsRead (d : Dump) : List String :=
  d.value?.toList.flatMap (Document.functionsRead d.file)

/-- The declared types of a dump have a fault: `fault` is the first. -/
def DeclaresFaulty (d : Dump) (fault : TypeFault) : Prop :=
  ∃ o, d.value? = some (.obj o) ∧ Document.head d.file o = .error (.type fault) ∧
    ∀ n, fault ≠ .endless n

end Dump

namespace Importer

open Document

section Document

variable {i : Importer} {file : String} {o : List (String × Json.Value)}

/-- A document whose head is refused leaves nothing behind. -/
theorem document_refused {e : HeadFault} (he : head file o = .error e) :
    i.document file (.obj o) = (.error (e.refusal i.current), i) := by
  rw [head] at he
  rw [document]
  cases htable : Document.table file o with
  | error e' =>
      rw [htable] at he
      cases he
      rfl
  | ok table =>
      rw [htable] at he
      simp only [ok_bind, declarations_eq]
      cases hdecls : declared table (table.map (·.1)) .none with
      | error fault =>
          simp only [Except.mapError, ok_bind, hdecls] at he
          cases he
          rfl
      | ok x =>
          simp only [Except.mapError, ok_bind, hdecls] at he
          cases hlist : functionList file o with
          | error e' =>
              rw [hlist] at he
              cases he
              rfl
          | ok entries =>
              rw [hlist] at he
              cases he

/-- A document whose head is read leaves the name of the function read last. -/
theorem document_opened {h : Head} (hh : head file o = .ok h) :
    i.document file (.obj o) =
      ((functions file h.table h.entered i.current .empty h.entries).1.map fun r =>
        { crate := (member o "crate" (.str "crate")).text, sourceFiles := [file], adts := h.adts,
          decls := h.entered.decls, library := i.library, bodies := r.1, distinct := r.2 },
        { i with current := (functions file h.table h.entered i.current .empty h.entries).2 }) := by
  obtain ⟨table, htable, hh⟩ := bind_eq_ok.mp hh
  obtain ⟨x, hx, hh⟩ := bind_eq_ok.mp hh
  obtain ⟨entries, hentries, hh⟩ := bind_eq_ok.mp hh
  cases hh
  rw [mapError_eq_ok] at htable hx hentries
  rw [document]
  simp only [htable, declarations_eq, hx, hentries, Except.mapError, ok_bind]

end Document

/-- A document leaves the name of the function read last, and nothing else. -/
theorem document_snd (i : Importer) (file : String) (v : Json.Value) :
    (i.document file v).2 =
      { i with current := (Document.functionsRead file v).getLast?.getD i.current } := by
  cases v with
  | obj o =>
      rw [Document.functionsRead]
      cases hh : head file o with
      | error e => rw [document_refused hh]; rfl
      | ok h => rw [document_opened hh, functions_current]
  | _ => rfl

theorem read_snd (i : Importer) (d : Dump) :
    (i.read d).2 = { i with current := d.functionsRead.getLast?.getD i.current } := by
  cases d with
  | text file source =>
      rw [read, Importer.text, Dump.functionsRead, Dump.value?]
      cases Json.read source with
      | error e => rfl
      | ok v =>
          simp only [Except.toOption, Option.toList_some, List.flatMap_singleton]
          exact document_snd i file v
  | decoded file v =>
      simp only [read, Dump.functionsRead, Dump.value?, Option.toList_some, List.flatMap_singleton]
      exact document_snd i file v

/-- The function that a history read last. -/
def lastFunction (history : List Dump) : Option String :=
  (history.flatMap Dump.functionsRead).getLast?

/-- **All that a history leaves behind is the name of the function read last.** -/
theorem after_eq (i : Importer) (history : List Dump) :
    i.after history = { i with current := (lastFunction history).getD i.current } := by
  induction history generalizing i with
  | nil => rfl
  | cons d history ih =>
      have hstep : i.after (d :: history) = (i.read d).2.after history := rfl
      rw [hstep, ih, read_snd, lastFunction, lastFunction, List.flatMap_cons, List.getLast?_append]
      cases (history.flatMap Dump.functionsRead).getLast? <;> rfl

/-! ### The next dump -/

theorem read_of_value {d : Dump} {v : Json.Value} (hv : d.value? = some v) (i : Importer) :
    i.read d = i.document d.file v := by
  cases d with
  | decoded file v' =>
      obtain rfl := Option.some.inj hv
      rfl
  | text file source =>
      rw [read, Importer.text, Dump.file]
      cases hsource : Json.read source with
      | error e => simp [Dump.value?, hsource, Except.toOption] at hv
      | ok v' =>
          obtain rfl : v' = v := by simpa [Dump.value?, hsource, Except.toOption] using hv
          rfl

/-- A fault in the declared types is reported for the function that was read last. -/
theorem read_of_faulty {d : Dump} {fault : TypeFault} (hd : d.DeclaresFaulty fault)
    (i : Importer) : (i.read d).1 = .error (.fault (.function i.current (.type fault))) := by
  obtain ⟨o, hv, hhead, hfault⟩ := hd
  rw [read_of_value hv, document_refused hhead]
  exact congrArg Except.error (typeRefusal_eq_fault hfault i.current)

/-- A dump without such a fault is read alike, whichever function was read last. -/
theorem read_of_sound {d : Dump} (hd : ∀ fault, ¬d.DeclaresFaulty fault) (i : Importer)
    (current : String) : (({ i with current } : Importer).read d).1 = (i.read d).1 := by
  cases hv : d.value? with
  | none =>
      cases d with
      | decoded file v => cases hv
      | text file source =>
          cases hsource : Json.read source with
          | error e => simp only [read, Importer.text, hsource]
          | ok v => simp [Dump.value?, hsource, Except.toOption] at hv
  | some v =>
      rw [read_of_value hv, read_of_value hv]
      cases v with
      | obj o =>
          cases hhead : head d.file o with
          | ok h =>
              rw [document_opened hhead, document_opened hhead]
              exact congrArg (Except.map _) (functions_result ..)
          | error e =>
              rw [document_refused hhead, document_refused hhead]
              cases e with
              | refused e => rfl
              | type fault =>
                  -- only a type without end is left, and it is reported for no function
                  cases fault with
                  | endless n => rfl
                  | _ => exact absurd ⟨o, hv, hhead, fun n => by simp⟩ (hd _)
      | _ => rfl

end Importer

/-- What is told of a refusal: the wording of a fault, or that the reading broke down. -/
def Refusal.told : Refusal → Except Breakdown String
  | .fault cause => .ok cause.message
  | .breakdown cause => .error cause

/-- Faults that are told for different functions are told differently. -/
theorem told_function_inj {name name' : String} {cause : FunctionFault} :
    (Refusal.fault (.function name cause)).told = (Refusal.fault (.function name' cause)).told ↔
      name = name' := by
  refine ⟨fun h => ?_, fun h => h ▸ rfl⟩
  have hmessage : name ++ ": " ++ cause.message = name' ++ ": " ++ cause.message := Except.ok.inj h
  have hlist := congrArg String.toList hmessage
  simp only [String.toList_append, List.append_assoc] at hlist
  exact String.toList_inj.mp (List.append_cancel_right hlist)

namespace Importer

theorem withLibrary_current (library : Library) : (withLibrary library).current = "<unknown>" := by
  rw [withLibrary]
  split <;> rfl

/-- **All that one dump leaves to the next is a name in a message.**  After any history, accepted and
refused dumps alike, a dump is read as by a new importer, with the same program or the same refusal
in the same words, exactly if its declared types have no fault, or no function was read, or the last
one had the very name that a new importer puts in its place.  A fault in the declared types is always
reported for the function read last, whichever document that was in. -/
theorem history_leaves_last_function (library : Library) (history : List Dump) (d : Dump) :
    ((((withLibrary library).after history).read d).1 = ((withLibrary library).read d).1 ↔
      (lastFunction history).getD "<unknown>" = "<unknown>" ∨ ∀ fault, ¬d.DeclaresFaulty fault) ∧
    ((((withLibrary library).after history).read d).1.mapError Refusal.told =
        ((withLibrary library).read d).1.mapError Refusal.told ↔
      (lastFunction history).getD "<unknown>" = "<unknown>" ∨ ∀ fault, ¬d.DeclaresFaulty fault) ∧
    ∀ fault, d.DeclaresFaulty fault →
      (((withLibrary library).after history).read d).1 =
        .error (.fault (.function ((lastFunction history).getD "<unknown>") (.type fault))) ∧
      ((withLibrary library).read d).1 = .error (.fault (.function "<unknown>" (.type fault))) := by
  have hafter := after_eq (withLibrary library) history
  rw [withLibrary_current] at hafter
  rw [hafter]
  generalize (lastFunction history).getD "<unknown>" = last
  have hfaulty : ∀ fault, d.DeclaresFaulty fault →
      (({ withLibrary library with current := last } : Importer).read d).1 =
        .error (.fault (.function last (.type fault))) ∧
      ((withLibrary library).read d).1 = .error (.fault (.function "<unknown>" (.type fault))) :=
    fun fault hd => ⟨read_of_faulty hd _, withLibrary_current library ▸ read_of_faulty hd _⟩
  have hsame : last = "<unknown>" ∨ (∀ fault, ¬d.DeclaresFaulty fault) →
      (({ withLibrary library with current := last } : Importer).read d).1 =
        ((withLibrary library).read d).1 := by
    rintro (rfl | hd)
    · rw [← withLibrary_current library]
    · exact read_of_sound hd _ last
  have hdiffer : (({ withLibrary library with current := last } : Importer).read d).1.mapError
        Refusal.told = ((withLibrary library).read d).1.mapError Refusal.told →
      last = "<unknown>" ∨ ∀ fault, ¬d.DeclaresFaulty fault := by
    intro htold
    by_cases hd : ∃ fault, d.DeclaresFaulty fault
    · obtain ⟨fault, hd⟩ := hd
      obtain ⟨hlast, hnew⟩ := hfaulty fault hd
      rw [hlast, hnew] at htold
      exact .inl (told_function_inj.mp (Except.error.inj htold))
    · exact .inr (not_exists.mp hd)
  exact ⟨⟨fun h => hdiffer (h ▸ rfl), hsame⟩, ⟨hdiffer, fun h => hsame h ▸ rfl⟩, hfaulty⟩

/-- A dump with one function. -/
def farewell : Dump :=
  .decoded "first.json" (.obj [("functions", .arr [.obj [("name", .str "demo::farewell")]])])

/-- A dump that declares a type with the field type `fieldType`, and has no function. -/
def declaring (fieldType : String) : Dump :=
  .decoded "second.json"
    (.obj [("adts", .obj [("Open", .obj [("fields", .obj [("x", .str fieldType)])])])])

/-- A fault in the second dump is reported for the function of the first. -/
theorem earlier_function_in_message :
    (((withLibrary []).after [farewell]).read (declaring "(")).1.mapError Refusal.told =
        .error (.ok "demo::farewell: Unexpected end of type '('") ∧
      ((withLibrary []).read (declaring "(")).1.mapError Refusal.told =
        .error (.ok "<unknown>: Unexpected end of type '('") ∧
      (((withLibrary []).after [farewell]).read (declaring "(")).1 ≠
        ((withLibrary []).read (declaring "(")).1 := by
  have hafter : (((withLibrary []).after [farewell]).read (declaring "(")).1 =
      .error (.fault (.function "demo::farewell" (.type (.ended "(")))) := rfl
  have hnew : ((withLibrary []).read (declaring "(")).1 =
      .error (.fault (.function "<unknown>" (.type (.ended "(")))) := rfl
  have htold : (Fault.function "demo::farewell" (.type (.ended "("))).message =
      "demo::farewell: Unexpected end of type '('" := by decide +kernel
  have htoldNew : (Fault.function "<unknown>" (.type (.ended "("))).message =
      "<unknown>: Unexpected end of type '('" := by decide +kernel
  rw [hafter, hnew]
  simp only [Except.mapError, Refusal.told, htold, htoldNew, true_and]
  simp

/-- After a refused dump and one with a function, a dump that declares a sound type is read as by a
new importer. -/
theorem sound_type_after_history :
    lastFunction [declaring "(", farewell] = some "demo::farewell" ∧
      (∀ fault, ¬(declaring "u8").DeclaresFaulty fault) ∧
      (((withLibrary []).after [declaring "(", farewell]).read (declaring "u8")).1 =
        ((withLibrary []).read (declaring "u8")).1 := by
  have hsound : ∀ fault, ¬(declaring "u8").DeclaresFaulty fault := by
    rintro fault ⟨o, ho, hhead, -⟩
    obtain rfl := Json.Value.obj.inj (Option.some.inj ho)
    cases hhead
  exact ⟨rfl, hsound, (history_leaves_last_function [] _ _).1.mpr (.inr hsound)⟩

end Importer

end Dangling
