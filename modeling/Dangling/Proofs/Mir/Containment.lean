import Dangling.Proofs.Mir.Entries
import Mathlib.Data.List.Nodup

/-!
# Proofs — Mir — Containment

What is wrong with one function stays with it, if its entry has the shapes that the readers go by:
what stands for a list can be gone through, the operator of a binary operation is no list and no
object, a block written `bb` and digits has decimal digits, and lines and columns are finite.
Nothing else about an entry matters.  Of the declared types, only a generic one that leads back to
itself takes the document with it.

* `EntryShaped`: the shapes, one definition for each reader.
* `Contained`: a reading that does not break down; one lemma for each reader.
* `Importer.malformed_entries_contained`: of entries with these shapes each becomes one body, and
  every other document is refused for a fault.
-/

namespace Dangling.Document

open Ty.Reader

/-! ### Shapes -/

/-- A value that stands for a list can be gone through, and these are its items. -/
def Listed (item : Json.Value → Prop) (v : Json.Value) : Prop :=
  v.truthy = true → ∃ vs, v.elements? = some vs ∧ ∀ x ∈ vs, item x

/-- A line or column is not infinite. -/
def FiniteNumber (v : Json.Value) : Prop := ∀ negative, v ≠ .float (.infinite negative)

def SpanShaped (v : Json.Value) : Prop :=
  ∀ o, v = .obj o →
    FiniteNumber (member o "line" (.int 0)) ∧ FiniteNumber (member o "column" (.int 0))

/-- A block written `bb` and digits has decimal digits. -/
def BlockShaped (v : Json.Value) : Prop :=
  ∀ s digits, v = .str s → s.toList = 'b' :: 'b' :: digits → digits.all Text.isDigit = true →
    digits.all Text.isDecimal = true

/-- An operator is no list and no object. -/
def OperatorShaped (v : Json.Value) : Prop := (∀ vs, v ≠ .arr vs) ∧ ∀ o, v ≠ .obj o

def RvalueShaped (v : Json.Value) : Prop :=
  ∀ o, v = .obj o →
    (kindOf o = .str "aggregate" → Listed (fun _ => True) (member o "operands")) ∧
      (kindOf o = .str "binary" → OperatorShaped (member o "op"))

def StatementShaped (v : Json.Value) : Prop :=
  ∀ o, v = .obj o →
    SpanShaped (member o "span") ∧ (kindOf o = .str "assign" → RvalueShaped (member o "rvalue"))

def ArmShaped (v : Json.Value) : Prop :=
  ∀ value target, v = .arr [value, target] → BlockShaped target

/-- The parts of a terminator, by its kind. -/
structure BranchesShaped (o : List (String × Json.Value)) : Prop where
  target : BlockShaped (member o "target")
  otherwise : BlockShaped (member o "otherwise")
  unwind : BlockShaped (member o "unwind")
  targets : kindOf o = .str "switch_int" → Listed ArmShaped (member o "targets")
  args : kindOf o = .str "call" → Listed (fun _ => True) (member o "args")

def TerminatorShaped (v : Json.Value) : Prop :=
  ∀ o, v = .obj o → SpanShaped (member o "span") ∧ BranchesShaped o

def BasicBlockShaped (v : Json.Value) : Prop :=
  ∀ o, v = .obj o → Listed StatementShaped (member o "statements") ∧
    ∀ t, Json.Value.find? "terminator" o = some t → TerminatorShaped t

theorem spanShaped_null : SpanShaped .null := fun _ h => by cases h

theorem listed_null {item : Json.Value → Prop} : Listed item .null := fun h => by cases h

theorem blockShaped_null : BlockShaped .null := fun _ _ h => by cases h

/-- An entry of the function list has the shapes that the readers go by. -/
def EntryShaped (v : Json.Value) : Prop :=
  ∀ o, v = .obj o → SpanShaped (member o "span") ∧
    ∀ bs, member o "blocks" = .arr bs → ∀ b ∈ bs, BasicBlockShaped b

/-! ### Readings that do not break down -/

/-- A reason to refuse that is a fault. -/
def IsFault (e : Refusal) : Prop := ∀ cause, e ≠ .breakdown cause

/-- A reading has a result, or is refused for a fault. -/
abbrev Contained {α : Type} (x : Read α) : Prop := Ends (fun _ => True) IsFault x

theorem isFault_fault (cause : Fault) : IsFault (.fault cause) := fun _ h => by cases h

namespace Contained

variable {α β : Type} {cx : Context}

/-- A reading after a reading. -/
theorem bind {x : Read α} {f : α → Read β} (hx : Contained x) (hf : ∀ a, Contained (f a)) :
    Contained (x >>= f) := Ends.bind hx fun a _ => hf a

theorem map {x : Read α} (hx : Contained x) (f : α → β) : Contained (x.map f) := by
  cases x with
  | error e => exact .error (hx.of_error rfl)
  | ok a => exact .ok trivial

/-- Faults that are given as faults are contained. -/
theorem mapError {ε : Type} (x : Except ε α) (f : ε → Fault) :
    Contained (x.mapError fun e => .fault (f e)) := by
  cases x with
  | error e => exact .error (isFault_fault _)
  | ok a => exact .ok trivial

/-- A refusal is a fault of the entry. -/
theorem refuse (cx : Context) (cause : FunctionFault) : Contained (cx.refuse cause : Read α) :=
  .error (isFault_fault _)

/-- A place is read or refused. -/
theorem place (v : Json.Value) : Contained (Document.place v) := mapError _ _

/-- So is an operand. -/
theorem operand (v : Json.Value) : Contained (Document.operand v) := mapError _ _

/-- Where declared types are settled, a type is read, or refused for a fault. -/
theorem type (hcx : Settled cx.table cx.entered) (v : Json.Value) : Contained (type cx v) := by
  have hfinite := scanned_ne_endless cx.table v
  rw [Document.type, hcx.read_eq]
  cases hv : scanned cx.table v with
  | ok t => exact .ok trivial
  | error e =>
      refine .error ?_
      rw [typeRefusal_eq_fault fun n he => hfinite n (by rw [hv, he])]
      exact isFault_fault _

/-- What stands for a list is gone through. -/
theorem listed {item : Json.Value → Prop} {v : Json.Value} (hv : Listed item v) :
    Ends (fun vs => ∀ x ∈ vs, item x) IsFault (Document.listed v) := by
  rw [Document.listed]
  cases htrue : v.truthy with
  | false => exact .ok fun x hx => absurd hx List.not_mem_nil
  | true =>
      obtain ⟨vs, hvs, hitems⟩ := hv htrue
      simp only [hvs, if_true]
      exact .ok hitems

/-- A line or a column may be any finite number. -/
theorem coordinate (span : Json.Value) {v : Json.Value} (hv : FiniteNumber v) :
    Contained (coordinate cx span v) := by
  rw [Document.coordinate.eq_def]
  repeat' split
  all_goals first
    | exact .ok trivial
    | exact refuse cx _
    | exact absurd rfl (hv _)

/-- A span without a shape of its own would end the reading of the document. -/
theorem location (around : Option Location) {span : Json.Value} (hspan : SpanShaped span) :
    Contained (location cx around span) := by
  rw [Document.location.eq_def]
  split
  case h_3 o =>
    obtain ⟨hline, hcolumn⟩ := hspan o rfl
    exact (coordinate _ hline).bind fun _ => (coordinate _ hcolumn).bind fun _ => .ok trivial
  all_goals
    repeat' split
    all_goals first | exact .ok trivial | exact refuse cx _

/-- A place that has to be there is read, or its absence is the fault. -/
theorem requiredPlace (o : List (String × Json.Value)) (key : String) :
    Contained (requiredPlace cx o key) := by
  rw [Document.requiredPlace]
  split
  · exact place _
  · exact refuse cx _

/-- The number of a block is an integer or can be read as one. -/
theorem block {v : Json.Value} (hv : BlockShaped v) : Contained (block cx v) := by
  rw [Document.block.eq_def]
  split
  case h_2 s =>
    split
    case h_1 digits hdigits =>
      split
      case isTrue hall =>
        rw [Bool.and_eq_true] at hall
        rw [if_pos (hv s digits rfl hdigits hall.2)]
        exact .ok trivial
      case isFalse => exact refuse cx _
    case h_2 => exact refuse cx _
  all_goals first | exact .ok trivial | exact refuse cx _

theorem requiredBlock {o : List (String × Json.Value)} {key : String}
    (h : BlockShaped (member o key)) : Contained (requiredBlock cx o key) := by
  rw [Document.requiredBlock]
  split
  · exact refuse cx _
  · exact block h

theorem optionalBlock {o : List (String × Json.Value)} {key : String}
    (h : BlockShaped (member o key)) : Contained (optionalBlock cx o key) := by
  rw [Document.optionalBlock]
  split
  · exact .ok trivial
  · exact (block h).map some

/-- A right-hand side in one text is read or refused. -/
theorem rvalueText (given : String) : Contained (rvalueText cx given) := by
  rw [Document.rvalueText]
  dsimp only
  split
  · split
    · exact (place _).map _
    · split
      · exact (place _).map _
      · exact refuse cx _
  · split
    · exact (place _).map _
    · split
      · exact (place _).map _
      -- a fact of its own: unified with the goal right away, the text would be evaluated
      · have hoperand := (operand (.str (Text.strip given))).map Rvalue.use
        exact hoperand

/-- An operator that is no text would end the reading of the document. -/
theorem binaryOp {v : Json.Value} (hv : OperatorShaped v) : Contained (binaryOp cx v) := by
  rw [Document.binaryOp.eq_def]
  split
  case h_1 vs => exact absurd rfl (hv.1 vs)
  case h_2 o => exact absurd rfl (hv.2 o)
  all_goals
    repeat' split
    all_goals first | exact .ok trivial | exact refuse cx _

theorem unaryOp (v : Json.Value) : Contained (unaryOp cx v) := by
  rw [Document.unaryOp]
  split
  · exact .ok trivial
  · exact refuse cx _

/-- One case for each kind of right-hand side. -/
theorem rvalueObject (hcx : Settled cx.table cx.entered) {o : List (String × Json.Value)}
    (ho : RvalueShaped (.obj o)) : Contained (rvalueObject cx o) := by
  obtain ⟨hoperands, hop⟩ := ho o rfl
  rw [Document.rvalueObject]
  dsimp only
  split
  case h_1 => exact (operand _).bind fun _ => .ok trivial
  case h_2 => exact (requiredPlace o _).bind fun _ => .ok trivial
  case h_3 => exact (requiredPlace o _).bind fun _ => .ok trivial
  case h_4 hkind =>
    refine (listed (hoperands hkind)).bind fun vs _ => ?_
    exact (Ends.mapM fun v _ => operand v).bind fun _ _ => .ok trivial
  case h_5 hkind =>
    refine (binaryOp (hop hkind)).bind fun _ => ?_
    exact (operand _).bind fun _ => (operand _).bind fun _ => .ok trivial
  case h_6 => exact (unaryOp _).bind fun _ => (operand _).bind fun _ => .ok trivial
  case h_7 => exact (operand _).bind fun _ => (type hcx _).bind fun _ => .ok trivial
  case h_8 => exact (requiredPlace o _).bind fun _ => .ok trivial
  case h_9 => exact (requiredPlace o _).bind fun _ => .ok trivial
  case h_10 => exact refuse cx _

/-- A right-hand side is a text or an object. -/
theorem rvalue (hcx : Settled cx.table cx.entered) {v : Json.Value} (hv : RvalueShaped v) :
    Contained (rvalue cx v) := by
  cases v with
  | str s =>
      rw [Document.rvalue]
      exact rvalueText s
  | obj o =>
      rw [Document.rvalue]
      exact rvalueObject hcx hv
  | bool _ => exact .ok trivial
  | int _ => exact .ok trivial
  | null => exact .ok trivial
  | float _ => exact refuse cx _
  | arr _ => exact refuse cx _

theorem localNumber (v : Json.Value) : Contained (localNumber cx v) := by
  cases v with
  | str s => exact (place _).bind fun _ => .ok trivial
  | int _ => exact .ok trivial
  | _ => exact refuse cx _

/-- One case for each kind of statement. -/
theorem statement (hcx : Settled cx.table cx.entered) (around : Option Location) {v : Json.Value}
    (hv : StatementShaped v) : Contained (statement cx around v) := by
  cases v with
  | obj o =>
      obtain ⟨hspan, hrvalue⟩ := hv o rfl
      refine (location around hspan).bind fun loc => ?_
      split
      case h_1 hkind =>
        refine (requiredPlace o _).bind fun _ => ?_
        exact (rvalue hcx (hrvalue hkind)).bind fun _ => .ok trivial
      case h_2 => exact (localNumber _).bind fun _ => .ok trivial
      case h_3 => exact (localNumber _).bind fun _ => .ok trivial
      case h_4 => exact .ok trivial
      case h_5 => exact refuse cx _
  | _ => exact refuse cx _

/-- An arm of a switch is a pair of a value and a block. -/
theorem arm {v : Json.Value} (hv : ArmShaped v) : Contained (arm cx v) := by
  rw [Document.arm.eq_def]
  split
  case h_1 value target =>
    split
    · exact (block (hv value target rfl)).bind fun _ => .ok trivial
    · exact refuse cx _
  case h_2 => exact refuse cx _

/-- One case for each kind of terminator. -/
theorem terminatorKind {o : List (String × Json.Value)} (ho : BranchesShaped o) :
    Contained (terminatorKind cx o) := by
  rw [Document.terminatorKind]
  split
  case h_1 => exact (requiredBlock ho.target).bind fun _ => .ok trivial
  case h_2 hkind =>
    refine (listed (ho.targets hkind)).bind fun vs hvs => ?_
    refine (Ends.mapM fun v hv => arm (hvs v hv)).bind fun _ _ => ?_
    exact (operand _).bind fun _ => (optionalBlock ho.otherwise).bind fun _ => .ok trivial
  case h_3 => exact .ok trivial
  case h_4 hkind =>
    split
    · split
      · exact refuse cx _
      · refine (listed (ho.args hkind)).bind fun vs _ => ?_
        refine (Ends.mapM fun v _ => operand v).bind fun _ _ => (requiredPlace o _).bind fun _ => ?_
        refine (optionalBlock ho.target).bind fun _ => ?_
        exact (optionalBlock ho.unwind).bind fun _ => .ok trivial
    · exact refuse cx _
  case h_5 =>
    refine (requiredPlace o _).bind fun _ => (requiredBlock ho.target).bind fun _ => ?_
    exact (optionalBlock ho.unwind).bind fun _ => .ok trivial
  case h_6 =>
    refine (operand _).bind fun _ => (requiredBlock ho.target).bind fun _ => ?_
    exact (optionalBlock ho.unwind).bind fun _ => .ok trivial
  case h_7 => exact .ok trivial
  case h_8 => exact .ok trivial
  case h_9 => exact .ok trivial
  case h_10 => exact refuse cx _

/-- A terminator is a text or an object. -/
theorem terminator (around : Option Location) {v : Json.Value} (hv : TerminatorShaped v) :
    Contained (terminator cx around v) := by
  cases v with
  | str kind =>
      have hkind : BranchesShaped [("kind", .str kind)] :=
        ⟨blockShaped_null, blockShaped_null, blockShaped_null, fun _ => listed_null,
          fun _ => listed_null⟩
      exact (location around spanShaped_null).bind fun _ =>
        (terminatorKind hkind).bind fun _ => .ok trivial
  | obj o =>
      obtain ⟨hspan, hbranches⟩ := hv o rfl
      refine (location around hspan).bind fun _ => ?_
      exact (terminatorKind hbranches).bind fun _ => .ok trivial
  | _ => exact refuse cx _

/-- The parts of a block, one after the other: its number, its statements, its terminator. -/
theorem basicBlock (hcx : Settled cx.table cx.entered) (around : Option Location) (position : Nat)
    {v : Json.Value} (hv : BasicBlockShaped v) : Contained (basicBlock cx around position v) := by
  cases v with
  | obj o =>
      obtain ⟨hstatements, hterminator⟩ := hv o rfl
      rw [Document.basicBlock]
      split
      · refine (listed hstatements).bind fun vs hvs => ?_
        refine (Ends.mapM fun v hv => statement hcx around (hvs v hv)).bind fun _ _ => ?_
        split
        case h_1 t ht => exact (terminator around (hterminator t ht)).bind fun _ => .ok trivial
        case h_2 => exact refuse cx _
      · exact refuse cx _
  | _ => exact refuse cx _

/-- By induction on the blocks that are left. -/
theorem basicBlocks (hcx : Settled cx.table cx.entered) (around : Option Location)
    {rest : List (Json.Value × Nat)} (hrest : ∀ x ∈ rest, BasicBlockShaped x.1)
    (done : DistinctBy Block.id) : Contained (basicBlocks cx around done rest) := by
  induction rest generalizing done with
  | nil => exact .ok trivial
  | cons x rest ih =>
      refine (basicBlock hcx around x.2 (hrest x (.head _))).bind fun b => ?_
      split
      · exact refuse cx _
      · exact ih (fun y hy => hrest y (.tail _ hy)) _

/-- The type of a local is read from a settled table. -/
theorem localDecl (hcx : Settled cx.table cx.entered) (v : Json.Value) (index : Nat) :
    Contained (localDecl cx v index) := by
  cases v with
  | str s => exact (type hcx _).bind fun _ => .ok trivial
  | obj o => exact (type hcx _).bind fun _ => .ok trivial
  | _ => exact refuse cx _

end Contained

/-! ### Entries -/

section Entries

variable {cx : Context} {o : List (String × Json.Value)}

/-- The parts of a function carry its name; what else can become of them is decided by its span, its
locals and its blocks. -/
theorem functionParts_ends {Q : Refusal → Prop}
    (hrefuse : ∀ cause, Q (.fault (.function cx.function cause)))
    (hloc : Ends (fun _ => True) Q (location cx none (member o "span")))
    (hlocals : ∀ v i, Ends (fun _ => True) Q (localDecl cx v i))
    (hblocks : ∀ loc bs, member o "blocks" = .arr bs →
      Ends (fun _ => True) Q (basicBlocks cx (some loc) .empty bs.zipIdx)) :
    Ends (fun b => b.name = cx.function) Q (functionParts cx o) := by
  have hdecls : ∀ xs : List (Json.Value × Nat),
      Ends (fun _ => True) Q (xs.mapM fun x => localDecl cx x.1 x.2) :=
    fun _ => Ends.mapM fun x _ => hlocals x.1 x.2
  refine hloc.bind fun loc _ => ?_
  dsimp only
  split
  case h_1 =>
    split
    case h_1 vs _ =>
      refine (hdecls vs.zipIdx).bind fun locals _ => ?_
      split
      case h_1 => exact .ok rfl
      case h_2 bs hbs => exact (hblocks loc bs hbs).bind fun blocks _ => .ok rfl
      case h_3 => exact .error (hrefuse _)
    case h_2 => exact .error (hrefuse _)
  case h_2 => exact .error (hrefuse _)

/-- A body has the name under which its entry is read. -/
theorem functionParts_name {b : Body} (h : functionParts cx o = .ok b) : b.name = cx.function := by
  have hends : Ends (fun b => b.name = cx.function) (fun _ => True) (functionParts cx o) :=
    functionParts_ends (fun _ => trivial) (.of_any _) (fun _ _ => .of_any _) fun _ _ _ => .of_any _
  exact hends.of_ok h

/-- An entry with the shapes of its readers does not break down. -/
theorem functionParts_contained (hcx : Settled cx.table cx.entered) (ho : EntryShaped (.obj o)) :
    Ends (fun b => b.name = cx.function) IsFault (functionParts cx o) := by
  obtain ⟨hspan, hblocks⟩ := ho o rfl
  refine functionParts_ends (fun _ => isFault_fault _) (Contained.location none hspan)
    (Contained.localDecl hcx) fun loc bs hbs => Contained.basicBlocks hcx _ (fun x hx => ?_) _
  exact hblocks bs hbs x.1 (List.fst_mem_of_mem_zipIdx hx)

variable {file : String} {table : Table} {entered : Entered} {e : Json.Value} {b : Body}

/-- A function without code that carries the reason. -/
structure Unread (b : Body) (why : String) : Prop where
  argCount : b.argCount = 0
  locals : b.locals = []
  blocks : b.blocks = []
  loc : b.loc = none
  hasBody : b.hasBody = false
  parseError : b.parseError = some why

/-- What an entry becomes: the function that it writes out, or one without code that tells what is
wrong with it. -/
def Becomes (file : String) (table : Table) (entered : Entered) (e : Json.Value) (b : Body) :
    Prop :=
  ∃ o, e = .obj o ∧ functionName? e = some b.name ∧
    (functionParts ⟨file, b.name, table, entered⟩ o = .ok b ∨
      ∃ cause, functionParts ⟨file, b.name, table, entered⟩ o = .error (.fault cause) ∧
        Unread b cause.message)

/-- **What becomes of an entry.** -/
theorem function_eq_ok :
    function file table entered e = .ok b ↔ Becomes file table entered e b := by
  constructor
  · intro h
    rw [function.eq_def] at h
    split at h
    case h_1 o name hname =>
      split at h
      case h_1 parts hparts =>
        obtain rfl := Except.ok.inj h
        obtain rfl : _ = name := functionParts_name hparts
        exact ⟨o, rfl, hname, .inl hparts⟩
      case h_2 cause hparts =>
        obtain rfl := Except.ok.inj h
        exact ⟨o, rfl, hname, .inr ⟨cause, hparts, ⟨rfl, rfl, rfl, rfl, rfl, rfl⟩⟩⟩
      case h_3 => cases h
    case h_2 => cases h
  · rintro ⟨o, rfl, hname, hparts | ⟨cause, hparts, hunread⟩⟩
    · simp only [function, hname, hparts]
    · cases b
      obtain ⟨rfl, rfl, rfl, rfl, rfl, rfl⟩ := hunread
      simp only [function, hname, hparts]

/-- An entry with a name becomes a function, unless its reading breaks down. -/
theorem exists_becomes (hname : (functionName? e).isSome)
    (he : ∀ cause, function file table entered e ≠ .error (.breakdown cause)) :
    ∃ b, Becomes file table entered e b := by
  obtain ⟨name, hname⟩ := Option.isSome_iff_exists.mp hname
  cases e with
  | obj o =>
      cases hparts : functionParts ⟨file, name, table, entered⟩ o with
      | ok b => exact ⟨b, function_eq_ok.mp (by simp only [function, hname, hparts])⟩
      | error cause =>
          cases cause with
          | fault cause =>
              exact ⟨{ name, hasBody := false, parseError := some cause.message },
                function_eq_ok.mp (by simp only [function, hname, hparts])⟩
          | breakdown cause =>
              exact absurd (by simp only [function, hname, hparts, stop]) (he cause)
  | _ => cases hname

/-- An entry of a good shape becomes a body or a fault of its own. -/
theorem function_contained (hs : Settled table entered) (he : EntryShaped e) :
    Contained (function file table entered e) := by
  rw [function.eq_def]
  split
  case h_1 o name _ =>
    have hparts : Ends _ IsFault (functionParts ⟨file, name, table, entered⟩ o) :=
      functionParts_contained hs he
    split
    case h_3 cause hcause =>
      exact absurd rfl (hparts.of_error hcause cause)
    all_goals exact .ok trivial
  case h_2 => exact .error (isFault_fault _)

/-- If every entry is contained, the list of all is. -/
theorem functions_contained {current : String} {done : DistinctBy Body.name}
    {entries : List Json.Value} (h : ∀ e ∈ entries, Contained (function file table entered e)) :
    Contained (functions file table entered current done entries).1 := by
  induction entries generalizing current done with
  | nil => exact .ok trivial
  | cons e entries ih =>
      rw [functions]
      split
      case h_1 cause hcause => exact .error ((h e (.head _)).of_error hcause)
      case h_2 =>
        split
        · exact .error (isFault_fault _)
        · exact ih fun e he => h e (.tail _ he)

/-- The entries of a list have names, and these differ. -/
def Named (entries : List Json.Value) : Prop :=
  (∀ e ∈ entries, (functionName? e).isSome) ∧ (entries.map functionName?).Nodup

/-- The bodies have the names of their entries, in order. -/
theorem names_of_becomes {entries : List Json.Value} {bodies : List Body}
    (h : List.Forall₂ (Becomes file table entered) entries bodies) :
    entries.map functionName? = (bodies.map Body.name).map some := by
  induction h with
  | nil => rfl
  | cons hb _ ih =>
      obtain ⟨_, -, hname, -⟩ := hb
      simp only [List.map_cons, hname, ih]

/-- The entries of a list that becomes bodies of different names are named. -/
theorem named_of_becomes {entries : List Json.Value} {bodies : List Body}
    (h : List.Forall₂ (Becomes file table entered) entries bodies)
    (hdistinct : (bodies.map Body.name).Nodup) : Named entries := by
  have hnames := names_of_becomes h
  refine ⟨fun e he => ?_, hnames ▸ hdistinct.map fun _ _ => Option.some.inj⟩
  have hmem : functionName? e ∈ (bodies.map Body.name).map some :=
    hnames ▸ List.mem_map_of_mem he
  obtain ⟨name, -, hname⟩ := List.mem_map.mp hmem
  simp [← hname]

/-- Named entries become bodies of different names, unless one breaks down. -/
theorem exists_bodies {entries : List Json.Value} (hnamed : Named entries)
    (h : ∀ e ∈ entries, ∀ cause, function file table entered e ≠ .error (.breakdown cause)) :
    ∃ bodies, List.Forall₂ (Becomes file table entered) entries bodies ∧
      (bodies.map Body.name).Nodup := by
  have hbodies : ∃ bodies, List.Forall₂ (Becomes file table entered) entries bodies := by
    obtain ⟨hnames, -⟩ := hnamed
    induction entries with
    | nil => exact ⟨[], .nil⟩
    | cons e entries ih =>
        obtain ⟨b, hb⟩ := exists_becomes (hnames e (.head _)) (h e (.head _))
        obtain ⟨bodies, hbodies⟩ :=
          ih (fun e he => h e (.tail _ he)) fun e he => hnames e (.tail _ he)
        exact ⟨b :: bodies, .cons hb hbodies⟩
  obtain ⟨bodies, hbodies⟩ := hbodies
  refine ⟨bodies, hbodies, List.Nodup.of_map some ?_⟩
  rw [← names_of_becomes hbodies]
  exact hnamed.2

end Entries

/-! ### Documents -/

section Documents

variable {file : String} {o : List (String × Json.Value)}

/-- No generic type leads back to itself, and the entries have the shapes of their readers. -/
structure Shaped (file : String) (o : List (String × Json.Value)) : Prop where
  acyclic : ∀ table, Document.table file o = .ok table →
    ∀ name, ¬Relation.TransGen (LeadsTo table) name name
  entries : ∀ entries, functionList file o = .ok entries → ∀ e ∈ entries, EntryShaped e

/-- In an opened document no generic type leads back to itself. -/
theorem Opening.shaped (op : Opening file o) (h : ∀ e ∈ op.entries, EntryShaped e) :
    Shaped file o where
  acyclic table htable := by
    obtain rfl := Except.ok.inj (op.table_eq.symm.trans htable)
    exact acyclic_of_sound op.settled.sound
  entries entries hentries := by
    obtain rfl := Except.ok.inj (op.entries_eq.symm.trans hentries)
    exact h

/-- The declared types of a document are read or refused. -/
theorem table_contained : Contained (Document.table file o) := by
  rw [Document.table]
  repeat' split
  all_goals first | exact .ok trivial | exact .error (isFault_fault _)

theorem functionList_contained : Contained (functionList file o) := by
  rw [functionList]
  split
  · exact .ok trivial
  · exact .error (isFault_fault _)

end Documents

end Dangling.Document

namespace Dangling.Importer

open Document Ty.Reader

variable {file : String} {o : List (String × Json.Value)}

/-- A document with these shapes is read, or refused for a fault. -/
theorem document_contained (i : Importer) (h : Shaped file o) :
    Contained (i.document file (.obj o)).1 := by
  obtain ⟨⟨op⟩⟩ | ⟨e, he, hcause⟩ := opening_or_refused i file o
  · rw [document_eq op]
    refine Contained.map (functions_contained fun e he => ?_) _
    exact function_contained op.settled (h.entries op.entries op.entries_eq e he)
  · rw [he]
    obtain htable | hlist | ⟨table, htable, hdecls⟩ := hcause
    · exact .error (table_contained.of_error htable)
    · exact .error (functionList_contained.of_error hlist)
    · refine .error ((declarations_contained (h.acyclic table htable) _ _ ?_).of_error hdecls)
      exact ⟨⟨.nil, by simp [Entered.none]⟩, Nat.zero_le _⟩

/-- The program of an opened document has a body for each entry, and no other. -/
theorem bodies_of_document {i : Importer} {p : Program} (op : Opening file o)
    (h : (i.document file (.obj o)).1 = .ok p) :
    List.Forall₂ (Becomes file op.table op.entered) op.entries p.bodies := by
  obtain ⟨-, -, -, -, -, hbodies⟩ := (document_eq_ok op).mp h
  exact hbodies.imp fun _ _ hb => function_eq_ok.mp hb

/-- **Malformed entries are contained, as far as nothing breaks down.**  Let the declared types of a
document be read, and let it list entries with different names.

* It becomes a program with one body for each entry, in order, exactly if the reading of no entry
  breaks down.  What is wrong with an entry leaves it without code and stands in its body.
* The reading of an entry that has the shapes of its readers does not break down.

Every other value is refused for a fault, if no generic type leads back to itself and the entries
have these shapes. -/
theorem malformed_entries_contained (i : Importer) (file : String) (v : Json.Value) :
    (∀ (o : List (String × Json.Value)) (op : Opening file o), v = .obj o → Named op.entries →
      ((∃ p, (i.document file v).1 = .ok p ∧
          List.Forall₂ (Becomes file op.table op.entered) op.entries p.bodies) ↔
        ∀ e ∈ op.entries, ∀ cause,
          function file op.table op.entered e ≠ .error (.breakdown cause)) ∧
      ∀ e ∈ op.entries, EntryShaped e → ∀ cause,
        function file op.table op.entered e ≠ .error (.breakdown cause)) ∧
    ((¬∃ (o : List (String × Json.Value)) (op : Opening file o), v = .obj o ∧ Named op.entries) →
      (∀ o, v = .obj o → Shaped file o) →
        ∃ cause, (i.document file v).1 = .error (.fault cause)) := by
  constructor
  · rintro o op rfl hnamed
    refine ⟨⟨?_, fun h => ?_⟩, fun e he hshaped cause hcause => ?_⟩
    · rintro ⟨p, -, hbodies⟩ e he cause hcause
      obtain ⟨k, hk⟩ := List.getElem?_of_mem he
      obtain ⟨b, -, hb⟩ := forall₂_getElem? hbodies hk
      rw [function_eq_ok.mpr hb] at hcause
      cases hcause
    · obtain ⟨bodies, hbodies, hdistinct⟩ := exists_bodies hnamed h
      let p : Program :=
        { crate := (member o "crate" (.str "crate")).text, sourceFiles := [file], adts := op.adts,
          decls := op.entered.decls, library := i.library, bodies, distinct := hdistinct }
      refine ⟨p, (document_eq_ok op).mpr ⟨rfl, rfl, rfl, rfl, rfl, ?_⟩, hbodies⟩
      exact hbodies.imp fun _ _ hb => function_eq_ok.mpr hb
    · exact (function_contained op.settled hshaped).of_error hcause cause rfl
  · intro hother hshaped
    cases v with
    | obj o =>
        cases hresult : (i.document file (.obj o)).1 with
        | ok p =>
            obtain ⟨op⟩ := exists_opening hresult
            have hnamed := named_of_becomes (bodies_of_document op hresult) p.distinct
            exact absurd ⟨o, op, rfl, hnamed⟩ hother
        | error e =>
            have hfault := (document_contained i (hshaped o rfl)).of_error hresult
            cases e with
            | fault cause => exact ⟨cause, rfl⟩
            | breakdown cause => exact absurd rfl (hfault cause)
    | _ => exact ⟨.document file .notObject, rfl⟩

/-- An entry that can be read. -/
def soundEntry : Json.Value :=
  .obj [("name", .str "sound"), ("locals", .arr [.str "()"]),
    ("blocks", .arr [.obj [("terminator", .str "return")]])]

/-- An entry with one block. -/
def blockEntry (members : List (String × Json.Value)) : Json.Value :=
  .obj [("name", .str "faulty"), ("blocks", .arr [.obj members])]

/-- A document that declares no type. -/
def listing (entries : List Json.Value) : List (String × Json.Value) :=
  [("functions", .arr entries)]

/-- What is read of a document that declares no type. -/
def listingOpening (entries : List Json.Value) : Opening "lost.json" (listing entries) where
  table := []
  adts := []
  entered := .none
  entries
  table_eq := rfl
  declarations_eq _ := rfl
  entries_eq := rfl

/-- An entry of one block has the shape of that block. -/
theorem entryShaped_of_block {o members : List (String × Json.Value)}
    (hspan : member o "span" = .null) (hblocks : member o "blocks" = .arr [.obj members])
    (h : BasicBlockShaped (.obj members)) : EntryShaped (.obj o) := by
  intro o' ho
  obtain rfl := Json.Value.obj.inj ho
  refine ⟨?_, fun bs hbs b hb => ?_⟩
  · rw [hspan]
    exact spanShaped_null
  · obtain rfl := Json.Value.arr.inj (hblocks.symm.trans hbs)
    exact List.mem_singleton.mp hb ▸ h

theorem soundEntry_shaped : EntryShaped soundEntry := by
  refine entryShaped_of_block rfl rfl fun o ho => ?_
  obtain rfl := Json.Value.obj.inj ho
  refine ⟨listed_null, fun t ht o ho => ?_⟩
  obtain rfl := Option.some.inj ht
  cases ho

theorem blockEntry_shaped : EntryShaped (blockEntry []) := by
  refine entryShaped_of_block rfl rfl fun o ho => ?_
  obtain rfl := Json.Value.obj.inj ho
  exact ⟨listed_null, fun t ht => by cases ht⟩

/-- A block without a terminator costs its function the code, and the document nothing.  Two entries
of one name are a fault. -/
theorem unfinished_block_contained :
    (∃ p, (({} : Importer).document "lost.json" (.obj (listing [soundEntry, blockEntry []]))).1 =
        .ok p ∧ List.Forall₂ (Becomes "lost.json" [] .none) [soundEntry, blockEntry []] p.bodies) ∧
      ∃ cause, (({} : Importer).document "lost.json" (.obj (listing [soundEntry, soundEntry]))).1 =
        .error (.fault cause) := by
  constructor
  · have hread := (malformed_entries_contained {} "lost.json"
      (.obj (listing [soundEntry, blockEntry []]))).1
    obtain ⟨hiff, hshaped⟩ := hread _ (listingOpening _) rfl ⟨by decide, by decide⟩
    refine hiff.mpr fun e he => hshaped e he ?_
    obtain rfl | he := List.mem_cons.mp he
    · exact soundEntry_shaped
    · obtain rfl := List.mem_singleton.mp he
      exact blockEntry_shaped
  · have hother := (malformed_entries_contained {} "lost.json"
      (.obj (listing [soundEntry, soundEntry]))).2
    refine hother ?_ fun o ho => ?_
    · rintro ⟨o, op, ho, hnamed⟩
      obtain rfl := Json.Value.obj.inj ho
      have hentries : op.entries = [soundEntry, soundEntry] :=
        Except.ok.inj (op.entries_eq.symm.trans (listingOpening _).entries_eq)
      rw [hentries] at hnamed
      exact absurd hnamed.2 (by decide)
    · obtain rfl := Json.Value.obj.inj ho
      refine (listingOpening _).shaped fun e he => ?_
      obtain rfl : e = soundEntry := by simpa [listingOpening] using he
      exact soundEntry_shaped

/-- A document for each way to break down; all but the last list a sound entry first. -/
def lossOf : Breakdown → List (String × Json.Value)
  | .notList => listing [soundEntry, blockEntry [("statements", .int 5)]]
  | .notName =>
    let sum := .obj [("kind", .str "binary"), ("op", .arr [])]
    let st := .obj [("kind", .str "assign"), ("place", .str "_0"), ("rvalue", sum)]
    listing [soundEntry, blockEntry [("statements", .arr [st])]]
  | .numeral =>
    let goto := .obj [("kind", .str "goto"), ("target", .str "bb²")]
    listing [soundEntry, blockEntry [("terminator", goto)]]
  | .infinite =>
    let span := .obj [("line", .float (.infinite false))]
    listing [soundEntry, .obj [("name", .str "faulty"), ("span", span)]]
  | .endlessType => [("adts", .obj [("Rope", .obj [("fields", .obj [("rest", .str "Rope<u8>")])])])]

/-- Each way to break down takes a document with it: named entries of which one is sound are lost,
and a document with an endless type is refused without a fault. -/
theorem breakdowns_take_document (cause : Breakdown) :
    (({} : Importer).document "lost.json" (.obj (lossOf cause))).1 = .error (.breakdown cause) ∧
      (cause ≠ .endlessType → ∃ op : Opening "lost.json" (lossOf cause),
        Named op.entries ∧ soundEntry ∈ op.entries) := by
  cases cause with
  | notList => exact ⟨rfl, fun _ => ⟨listingOpening _, ⟨by decide, by decide⟩, .head _⟩⟩
  | notName => exact ⟨rfl, fun _ => ⟨listingOpening _, ⟨by decide, by decide⟩, .head _⟩⟩
  | numeral => exact ⟨rfl, fun _ => ⟨listingOpening _, ⟨by decide, by decide⟩, .head _⟩⟩
  | infinite => exact ⟨rfl, fun _ => ⟨listingOpening _, ⟨by decide, by decide⟩, .head _⟩⟩
  | endlessType => exact ⟨rfl, fun h => absurd rfl h⟩

/-- A number where the statements of a block should stand takes the sound function with it. -/
theorem number_for_statements_takes_document :
    ∃ op : Opening "lost.json" (listing [soundEntry, blockEntry [("statements", .int 5)]]),
      Named op.entries ∧ soundEntry ∈ op.entries ∧
        (({} : Importer).document "lost.json"
          (.obj (listing [soundEntry, blockEntry [("statements", .int 5)]]))).1 =
            .error (.breakdown .notList) := by
  obtain ⟨hlost, hopened⟩ := breakdowns_take_document .notList
  obtain ⟨op, hnamed, hmem⟩ := hopened (by decide)
  exact ⟨op, hnamed, hmem, hlost⟩

end Dangling.Importer
