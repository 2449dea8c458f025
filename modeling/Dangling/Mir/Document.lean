import Dangling.Library.Standard
import Dangling.Mir.Document.Fault
import Dangling.Mir.Program
import Dangling.Mir.Ty.Reader
import Dangling.Order.Distinct

/-!
# Mir — Document

Reading dumps.  The declared types come first, so that every function is read over the same
declarations.  A function with a fault becomes a function without code that carries the fault's
wording; a function without a name, or two of one name, are faults of the document.

* `Document.function`: one entry of the function list.
* `Importer.document`: a decoded dump.
* `Importer.text`: the text of a dump.
-/

namespace Dangling.Document

/-- Reading a part of a document. -/
abbrev Read := Except Refusal

/-- What the parts of one function are read against. -/
structure Context where
  file : String
  /-- The function that faults are reported for. -/
  function : String
  table : Ty.Reader.Table
  entered : Ty.Reader.Entered

/-- Refuses with a fault of the function. -/
def Context.refuse {α : Type} (cx : Context) (cause : FunctionFault) : Read α :=
  .error (.fault (.function cx.function cause))

/-- Stops on a breakdown. -/
def stop {α : Type} (cause : Breakdown) : Read α := .error (.breakdown cause)

/-- A type fault of the function; an endless type breaks the document. -/
def typeRefusal (function : String) : TypeFault → Refusal
  | .endless _ => .breakdown .endlessType
  | fault => .fault (.function function (.type fault))

/-- A type. -/
def type (cx : Context) (v : Json.Value) : Read Ty :=
  match Ty.read cx.table v cx.entered with
  | .ok (t, _) => .ok t
  | .error fault => .error (typeRefusal cx.function fault)

/-- A place. -/
def place (v : Json.Value) : Read Place :=
  (Place.read v).mapError fun fault => .fault (.place fault)

/-- An operand. -/
def operand (v : Json.Value) : Read Operand :=
  (Operand.read v).mapError fun fault => .fault (.operand fault)

/-- The items of a list that may be absent, null or empty in other ways; texts and objects are gone
through too. -/
def listed (v : Json.Value) : Read (List Json.Value) :=
  if v.truthy then
    match v.elements? with
    | some vs => .ok vs
    | none => stop .notList
  else .ok []

/-- The member `key`, or `default` if the object has none. -/
def member (o : List (String × Json.Value)) (key : String) (default : Json.Value := .null) :
    Json.Value := (Json.Value.find? key o).getD default

/-- The number that a line or column is given by. -/
def coordinate (cx : Context) (span : Json.Value) : Json.Value → Read Int
  | .int i => .ok i
  | .bool b => .ok (if b then 1 else 0)
  | .float x =>
    match x with
    | .infinite _ => stop .infinite
    | x => match x.truncate? with
      | some i => .ok i
      | none => cx.refuse (.span span)
  | .str s =>
    match Text.readInt? s with
    | some i => .ok i
    | none => cx.refuse (.span span)
  | _ => cx.refuse (.span span)

/-- Splits a text at its last two colons. -/
def splitSpan (s : String) : List String :=
  go 2 [] s.toList.reverse
where
  /-- The parts of the reversed text `cs`, the last one before the characters of `acc`. -/
  go : (cuts : Nat) → (acc : List Char) → List Char → List String
    | _, acc, [] => [String.ofList acc]
    | cuts + 1, acc, ':' :: rest => go cuts [] rest ++ [String.ofList acc]
    | cuts, acc, c :: rest => go cuts (c :: acc) rest

/-- The location of a span; without one, the function's, and else the file. -/
def location (cx : Context) (around : Option Location) (span : Json.Value) : Read Location :=
  match span with
  | .null => .ok (around.getD { file := cx.file, line := 0 })
  | .str s =>
    match splitSpan s with
    | [file, line, column] =>
      match Text.readInt? line, Text.readInt? column with
      | some line, some column => .ok { file, line, column }
      | _, _ => cx.refuse (.span span)
    | [file, line] =>
      match Text.readInt? line with
      | some line => .ok { file, line }
      | none => cx.refuse (.span span)
    | _ => cx.refuse (.span span)
  | .obj o => do
    let line ← coordinate cx span (member o "line" (.int 0))
    let column ← coordinate cx span (member o "column" (.int 0))
    .ok { file := (member o "file" (.str cx.file)).text, line, column,
          endLine := member o "end_line", endColumn := member o "end_column" }
  | _ => cx.refuse (.span span)

/-- The place under `key`, which has to be there. -/
def requiredPlace (cx : Context) (o : List (String × Json.Value)) (key : String) : Read Place :=
  match Json.Value.find? key o with
  | some v => place v
  | none => cx.refuse (.missing key (member o "kind"))

/-- A block by its number or as `bb` with its number. -/
def block (cx : Context) (v : Json.Value) : Read BlockId :=
  match v with
  | .int i => .ok i
  | .str s =>
    match s.toList with
    | 'b' :: 'b' :: digits =>
      if !digits.isEmpty && digits.all Text.isDigit then
        if digits.all Text.isDecimal then .ok (Text.decimalValue 0 digits) else stop .numeral
      else cx.refuse (.blockReference v)
    | _ => cx.refuse (.blockReference v)
  | _ => cx.refuse (.blockReference v)

/-- The block under `key`, which has to be there. -/
def requiredBlock (cx : Context) (o : List (String × Json.Value)) (key : String) : Read BlockId :=
  match member o key with
  | .null => cx.refuse (.missing key (member o "kind"))
  | v => block cx v

/-- The block under `key`, if one is given. -/
def optionalBlock (cx : Context) (o : List (String × Json.Value)) (key : String) :
    Read (Option BlockId) :=
  match member o key with
  | .null => .ok none
  | v => (block cx v).map some

/-- The text after `word`, if the text starts with it. -/
def after? (word : String) (s : String) : Option String :=
  (Operand.Reader.after? word s.toList).map String.ofList

/-- A right-hand side written as a text. -/
def rvalueText (cx : Context) (given : String) : Read Rvalue :=
  let text := Text.strip given
  match after? "&raw " text with
  | some rest =>
    let rest := Text.strip rest
    match after? "mut " rest with
    | some p => (place (.str p)).map (.addressOf true)
    | none =>
    match after? "const " rest with
    | some p => (place (.str p)).map (.addressOf false)
    | none => cx.refuse (.rawBorrow given)
  | none =>
  match after? "&mut " text with
  | some p => (place (.str p)).map (.ref true)
  | none =>
  match after? "&" text with
  | some p => (place (.str p)).map (.ref false)
  | none => (operand (.str text)).map .use

/-- The text that names an operator or a kind. -/
def kindOf (o : List (String × Json.Value)) : Json.Value := member o "kind"

/-- The binary operator under `op`. -/
def binaryOp (cx : Context) (v : Json.Value) : Read BinOp :=
  match v with
  | .arr _ | .obj _ => stop .notName
  | .str s =>
    match BinOp.ofName? s with
    | some op => .ok op
    | none => cx.refuse (.binaryOp v)
  | v => cx.refuse (.binaryOp v)

/-- The unary operator under `op`. -/
def unaryOp (cx : Context) (v : Json.Value) : Read UnOp :=
  match v.str?.bind UnOp.ofName? with
  | some op => .ok op
  | none => cx.refuse (.unaryOp v)

/-- A right-hand side written as an object. -/
def rvalueObject (cx : Context) (o : List (String × Json.Value)) : Read Rvalue :=
  let kind := kindOf o
  match kind with
  | .str "use" => do .ok (.use (← operand (member o "operand")))
  | .str "ref" => do
    let p ← requiredPlace cx o "place"
    .ok (.ref (member o "mutable").truthy p)
  | .str "address_of" => do
    let p ← requiredPlace cx o "place"
    .ok (.addressOf (member o "mutable" (.bool true)).truthy p)
  | .str "aggregate" => do
    let items ← (← listed (member o "operands")).mapM operand
    let name := member o "name"
    .ok (.aggregate items (if name.truthy then some name.text else none))
  | .str "binary" => do
    let op ← binaryOp cx (member o "op")
    let left ← operand (member o "left")
    let right ← operand (member o "right")
    .ok (.binary op left right)
  | .str "unary" => do
    let op ← unaryOp cx (member o "op")
    .ok (.unary op (← operand (member o "operand")))
  | .str "cast" => do
    let source ← operand (member o "operand")
    .ok (.cast source (← type cx (member o "ty" (.str "_"))))
  | .str "discriminant" => do .ok (.inspect .discriminant (← requiredPlace cx o "place"))
  | .str "len" => do .ok (.inspect .len (← requiredPlace cx o "place"))
  | _ => cx.refuse (.rvalueKind kind)

/-- A right-hand side. -/
def rvalue (cx : Context) (v : Json.Value) : Read Rvalue :=
  match v with
  | .str s => rvalueText cx s
  | .bool _ | .int _ | .null => .ok (.use (Operand.constantOf v))
  | .obj o => rvalueObject cx o
  | _ => cx.refuse (.rvalue v)

/-- The number of a local whose storage begins or ends. -/
def localNumber (cx : Context) (v : Json.Value) : Read Int :=
  match v with
  | .str _ => do .ok (← place v).base
  | .int i => .ok i
  | _ => cx.refuse (.localNumber v)

/-- A statement. -/
def statement (cx : Context) (around : Option Location) (v : Json.Value) : Read Statement :=
  match v with
  | .obj o => do
    let kind := kindOf o
    let loc ← location cx around (member o "span")
    match kind with
    | .str "assign" =>
      let p ← requiredPlace cx o "place"
      .ok { loc, kind := .assign p (← rvalue cx (member o "rvalue")) }
    | .str "storage_live" => .ok { loc, kind := .storageLive (← localNumber cx (member o "local")) }
    | .str "storage_dead" => .ok { loc, kind := .storageDead (← localNumber cx (member o "local")) }
    | .str "nop" => .ok { loc, kind := .nop }
    | _ => cx.refuse (.statementKind kind)
  | _ => cx.refuse (.statementNotObject v)

/-- An arm of a switch: a value and a block. -/
def arm (cx : Context) (v : Json.Value) : Read (Int × BlockId) :=
  match v with
  | .arr [value, target] =>
    match (Operand.constantOf value).scalar? with
    | some s => do .ok (s.toInt, ← block cx target)
    | none => cx.refuse .switchValue
  | _ => cx.refuse .switchArm

/-- What a terminator written as an object does. -/
def terminatorKind (cx : Context) (o : List (String × Json.Value)) : Read TerminatorKind :=
  let kind := kindOf o
  match kind with
  | .str "goto" => do .ok (.goto (← requiredBlock cx o "target"))
  | .str "switch_int" => do
    let arms ← (← listed (member o "targets")).mapM (arm cx)
    let discr ← operand (member o "discr")
    .ok (.switchInt discr arms (← optionalBlock cx o "otherwise"))
  | .str "return" => .ok .ret
  | .str "call" =>
    match member o "func" with
    | .str callee => do
      if callee = "" then cx.refuse .noCallee
      else
        let args ← (← listed (member o "args")).mapM operand
        let destination ← requiredPlace cx o "destination"
        let target ← optionalBlock cx o "target"
        .ok (.call callee args destination target (← optionalBlock cx o "unwind"))
    | _ => cx.refuse .noCallee
  | .str "drop" => do
    let p ← requiredPlace cx o "place"
    let target ← requiredBlock cx o "target"
    .ok (.drop p target (← optionalBlock cx o "unwind"))
  | .str "assert" => do
    let cond ← operand (member o "cond")
    let target ← requiredBlock cx o "target"
    .ok (.assert cond (member o "expected" (.bool true)).truthy target
      (← optionalBlock cx o "unwind"))
  | .str "unreachable" => .ok .unreachable
  | .str "resume" => .ok .resume
  | .str "abort" => .ok .abort
  | _ => cx.refuse (.terminatorKind kind)

/-- A terminator; a text stands for an object with that kind. -/
def terminator (cx : Context) (around : Option Location) (v : Json.Value) : Read Terminator :=
  match v with
  | .str kind => do
    let loc ← location cx around .null
    .ok { loc, kind := ← terminatorKind cx [("kind", .str kind)] }
  | .obj o => do
    let loc ← location cx around (member o "span")
    .ok { loc, kind := ← terminatorKind cx o }
  | _ => cx.refuse (.terminatorNotObject v)

/-- The block at a position of the block list; the position is its number unless it has one. -/
def basicBlock (cx : Context) (around : Option Location) (position : Nat) (v : Json.Value) :
    Read Block :=
  match v with
  | .obj o =>
    let given := member o "id" (.int position)
    match given with
    | .int id => do
      let statements ← (← listed (member o "statements")).mapM (statement cx around)
      match Json.Value.find? "terminator" o with
      | some t =>
        let terminator ← terminator cx around t
        .ok { id, statements, terminator, isCleanup := (member o "cleanup").truthy }
      | none => cx.refuse (.noTerminator id)
    | _ => cx.refuse (.blockId given)
  | _ => cx.refuse (.blockNotObject position)

/-- The blocks of a function after those of `done`; their numbers differ. -/
def basicBlocks (cx : Context) (around : Option Location) : (done : DistinctBy Block.id) →
    (rest : List (Json.Value × Nat)) → Read (DistinctBy Block.id)
  | done, [] => .ok done
  | done, (v, i) :: rest => do
    let b ← basicBlock cx around i v
    match done.push? b with
    | none => cx.refuse (.duplicateBlock b.id)
    | some done => basicBlocks cx around done rest

/-- The debug name of a local. -/
def localName (v : Json.Value) : Option LocalName :=
  if v.truthy then
    match v with
    | .str s => some (.text s)
    | v => some (.other v.text)
  else none

/-- The declaration of the local at an index. -/
def localDecl (cx : Context) (v : Json.Value) (index : Nat) : Read LocalDecl :=
  match v with
  | .str _ => do .ok { ty := ← type cx v }
  | .obj o => do
    let ty ← type cx (member o "ty" (.str "_"))
    .ok { ty, name := localName (member o "name") }
  | _ => cx.refuse (.localDecl index)

/-- The parts of a function entry, all but its name. -/
def functionParts (cx : Context) (o : List (String × Json.Value)) : Read Body := do
  let loc ← location cx none (member o "span")
  let given := member o "arg_count" (.int 0)
  match given with
  | .int (.ofNat argCount) =>
    match member o "locals" (.arr []) with
    | .arr vs =>
      let locals ← vs.zipIdx.mapM fun (v, i) => localDecl cx v i
      match member o "blocks" with
      | .null => .ok { name := cx.function, argCount, locals, loc := some loc, hasBody := false }
      | .arr bs =>
        let ⟨blocks, distinct⟩ ← basicBlocks cx (some loc) .empty bs.zipIdx
        .ok { name := cx.function, argCount, locals, blocks, distinct, loc := some loc }
      | _ => cx.refuse .blocksNotList
    | _ => cx.refuse .localsNotList
  | _ => cx.refuse (.argCount given)

/-- The name of a function entry. -/
def functionName? : Json.Value → Option String
  | .obj o => (Json.Value.find? "name" o).map (·.text)
  | _ => none

/-- An entry of the function list. A fault in a named entry makes it a function without code. -/
def function (file : String) (table : Ty.Reader.Table) (entered : Ty.Reader.Entered)
    (v : Json.Value) : Read Body :=
  match v, functionName? v with
  | .obj o, some name =>
    match functionParts { file, function := name, table, entered } o with
    | .ok body => .ok body
    | .error (.fault cause) => .ok { name, hasBody := false, parseError := some cause.message }
    | .error (.breakdown cause) => stop cause
  | _, _ => .error (.fault (.document file .namelessFunction))

/-- The functions of a document after those of `done`; their names differ.  Beside them stands the
name of the function read last, at first `current`. -/
def functions (file : String) (table : Ty.Reader.Table) (entered : Ty.Reader.Entered) :
    (current : String) → (done : DistinctBy Body.name) → (rest : List Json.Value) →
    Read (DistinctBy Body.name) × String
  | current, done, [] => (.ok done, current)
  | current, done, v :: rest =>
    let current := (functionName? v).getD current
    match function file table entered v with
    | .error e => (.error e, current)
    | .ok b =>
      match done.push? b with
      | none => (.error (.fault (.document file (.duplicateFunction b.name))), current)
      | some done => functions file table entered current done rest

/-- The declared types of a document; each is read as the type that its name writes. -/
def declarations (current : String) (table : Ty.Reader.Table) :
    (names : List String) → Ty.Reader.Entered → Read (List (String × Ty) × Ty.Reader.Entered)
  | [], s => .ok ([], s)
  | name :: rest, s =>
    match Ty.read table (.str name) s with
    | .error fault => .error (typeRefusal current fault)
    | .ok (t, s) => do
      let (ts, s) ← declarations current table rest s
      .ok ((name, t) :: ts, s)

/-- The declaration table of a document. -/
def table (file : String) (o : List (String × Json.Value)) : Read Ty.Reader.Table :=
  match member o "adts" with
  | .obj table => .ok table
  | v => if v.truthy then .error (.fault (.document file .adtsNotObject)) else .ok []

/-- The function list of a document. -/
def functionList (file : String) (o : List (String × Json.Value)) : Read (List Json.Value) :=
  match member o "functions" (.arr []) with
  | .arr vs => .ok vs
  | _ => .error (.fault (.document file .functionsNotList))

end Dangling.Document

namespace Dangling

/-- A reader of dumps.  Faults of declared types are reported for the function read last, in this
document or an earlier one. -/
structure Importer where
  library : Library := Library.standard
  current : String := "<unknown>"
  deriving Repr, Inhabited

namespace Importer

/-- A reader of dumps over a library; an empty library stands for the standard one. -/
def withLibrary (library : Library) : Importer :=
  if library.isEmpty then {} else { library }

/-- Reads a decoded dump. -/
def document (i : Importer) (file : String) (v : Json.Value) :
    Except Refusal Program × Importer :=
  match v with
  | .obj o =>
    let opening : Document.Read (Ty.Reader.Table × List (String × Ty) × Ty.Reader.Entered ×
        List Json.Value) := do
      let table ← Document.table file o
      let (adts, entered) ← Document.declarations i.current table (table.map (·.1)) .none
      let entries ← Document.functionList file o
      .ok (table, adts, entered, entries)
    match opening with
    | .error e => (.error e, i)
    | .ok (table, adts, entered, entries) =>
      let (bodies, current) := Document.functions file table entered i.current .empty entries
      let crate := (Document.member o "crate" (.str "crate")).text
      (bodies.map fun ⟨bodies, distinct⟩ =>
        { crate, sourceFiles := [file], adts, decls := entered.decls, library := i.library, bodies,
          distinct },
       { i with current })
  | _ => (.error (.fault (.document file .notObject)), i)

/-- Reads the text of a dump. -/
def text (i : Importer) (file : String) (s : String) : Except Refusal Program × Importer :=
  match Json.read s with
  | .ok v => i.document file v
  | .error e => (.error (.fault (.document file (.notJson e))), i)

end Importer

end Dangling
