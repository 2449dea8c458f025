import Dangling.Mir.Ty
import Dangling.Mir.Ty.Fault
import Dangling.Text.Blank
import Dangling.Text.Word

/-!
# Mir — Ty — Reader

Reading type texts.  A name that the document declares is entered as it is met: its field types are
read at once, so that what is wrong with them is told.  A use without arguments is entered only the
first time; a use with arguments is entered every time, and is refused when its own fields lead back
to it with nothing new on the way.

* `Ty.Reader.type`: one type at the front of a text.
* `Ty.Reader.enter`: the fields of a declared type.
* `Ty.read`: a whole type text.
-/

namespace Dangling.Ty.Reader

/-- What the reader of one text knows: the text, which names are declared, and what entering a
declared name does to the state `σ` (the flag tells a use with arguments). -/
structure Context (σ : Type) where
  text : String
  size : Nat
  declared : String → Bool
  enter : String → Bool → σ → Except TypeFault σ

/-- The position in the text that `rest` follows. -/
def Context.position {σ : Type} (cx : Context σ) (rest : List Char) : Nat := cx.size - rest.length

/-- The text after the blanks at its front. -/
def skip (cs : List Char) : List Char := cs.dropWhile Text.isBlank

/-- A character of a lifetime. -/
def isIdent (c : Char) : Bool := Text.isWord c || c == '_'

/-- A character of a path. -/
def isPath (c : Char) : Bool := Text.isWord c || c == '_' || c == ':'

/-- The text after a lifetime at its front, if one stands there. -/
def skipLifetime (cs : List Char) : List Char :=
  match skip cs with
  | '\x27' :: rest => rest.dropWhile isIdent
  | cs => cs

/-- The text after `mut`, if it stands at the front as a whole word. -/
def afterMut? (cs : List Char) : Option (List Char) :=
  match skip cs with
  | 'm' :: 'u' :: 't' :: rest =>
    match rest with
    | c :: _ => if isIdent c then none else some rest
    | [] => some rest
  | _ => none

/-- The text after the parenthesis that closes the one at its front. -/
def skipParens : (depth : Nat) → List Char → Option (List Char)
  | _, [] => none
  | depth, '(' :: rest => skipParens (depth + 1) rest
  | 0, ')' :: rest => skipParens 0 rest
  | 1, ')' :: rest => some rest
  | depth + 2, ')' :: rest => skipParens (depth + 1) rest
  | depth, _ :: rest => skipParens depth rest

/-- The last segment of a path. -/
def lastSegment (path : List Char) : String :=
  String.ofList (go [] path)
where
  /-- The characters after the last `::`, with those of `acc` before them. -/
  go (acc : List Char) : List Char → List Char
    | [] => acc.reverse
    | ':' :: ':' :: rest => go [] rest
    | c :: rest => go (c :: acc) rest

/-- The names of the integer types. -/
def intNames : List String :=
  ["i8", "i16", "i32", "i64", "i128", "isize", "u8", "u16", "u32", "u64", "u128", "usize"]

/-- The containers of the standard library. -/
def containerKind? : String → Option Kind
  | "Box" => some .box
  | "Vec" => some .vec
  | "String" | "CString" | "OsString" | "PathBuf" => some .string
  | "Rc" | "Arc" => some .rc
  | "ManuallyDrop" => some .manuallyDrop
  | _ => none

/-- The type that a name of the language stands for; arguments count for containers only. -/
def builtin? (name : String) (args : List Ty) : Option Ty :=
  if intNames.contains name then some (.scalar .int name)
  else if name == "f32" || name == "f64" then some (.scalar .float name)
  else if name == "bool" then some Ty.bool
  else if name == "char" then some (.scalar .char name)
  else if name == "str" then some (.scalar .str name)
  else if name == "_" then some Ty.unknown
  else (containerKind? name).map fun k => Ty.container k name args

/-- The type of a name with its arguments. -/
def named {σ : Type} (cx : Context σ) (name : String) (args : List Ty) (s : σ) :
    Except TypeFault (Ty × σ) :=
  match builtin? name args with
  | some t => .ok (t, s)
  | none =>
    if cx.declared name then do
      let s ← cx.enter name (!args.isEmpty) s
      .ok (.nominal name args, s)
    else .ok (.nominal name args, s)

mutual

/-- A type at the front of the text. -/
def type {σ : Type} (cx : Context σ) : (fuel : Nat) → List Char → σ →
    Except TypeFault (Ty × List Char × σ)
  | 0, _, _ => .error (.ended cx.text)
  | fuel + 1, cs, s =>
    match skip cs with
    | [] => .error (.ended cx.text)
    | '&' :: rest =>
      let rest := skipLifetime rest
      match afterMut? rest with
      | some rest => do
        let (t, rest, s) ← type cx fuel rest s
        .ok (.ref true t, rest, s)
      | none => do
        let (t, rest, s) ← type cx fuel rest s
        .ok (.ref false t, rest, s)
    | '*' :: rest =>
      match afterMut? rest with
      | some rest => do
        let (t, rest, s) ← type cx fuel rest s
        .ok (.rawPtr true t, rest, s)
      | none =>
        match skip rest with
        | 'c' :: 'o' :: 'n' :: 's' :: 't' :: rest => do
          let (t, rest, s) ← type cx fuel rest s
          .ok (.rawPtr false t, rest, s)
        | rest => .error (.expected "const" cx.text (cx.position rest))
    | '(' :: rest => do
      let (ts, rest, s) ← elements cx fuel rest s
      .ok (Ty.product ts, rest, s)
    | '[' :: rest => do
      let (t, rest, s) ← type cx fuel rest s
      let rest := match skip rest with
        | ';' :: rest => rest.dropWhile (· != ']')
        | rest => rest
      match rest with
      | ']' :: rest => .ok (.array t, rest, s)
      | rest => .error (.expected "]" cx.text (cx.position rest))
    | '!' :: rest => .ok (.bare .never, rest, s)
    | cs => path cx fuel cs s

/-- A path at the front of the text, with its generic arguments. -/
def path {σ : Type} (cx : Context σ) : (fuel : Nat) → List Char → σ →
    Except TypeFault (Ty × List Char × σ)
  | 0, _, _ => .error (.ended cx.text)
  | fuel + 1, cs, s =>
    let cs := skip cs
    let name := cs.takeWhile isPath
    let rest := cs.dropWhile isPath
    if name.isEmpty then .error (.nameless cx.text (cx.position cs))
    else if name == ['d', 'y', 'n'] || name == ['i', 'm', 'p', 'l'] then do
      let (inner, rest, s) ← path cx fuel rest s
      .ok (.nominal (String.ofList name ++ " " ++ inner.name?.getD "None") [], rest, s)
    else if name == ['f', 'n'] && (skip rest).head? == some '(' then
      match skipParens 0 (skip rest) with
      | none => .error (.unclosed cx.text)
      | some rest =>
        match skip rest with
        | '-' :: '>' :: rest => do
          let (_, rest, s) ← type cx fuel rest s
          .ok (.scalar .fn "fn", rest, s)
        | rest => .ok (.scalar .fn "fn", rest, s)
    else
      match skip rest with
      | '<' :: rest => do
        let (args, rest, s) ← arguments cx fuel rest s
        let (t, s) ← named cx (lastSegment name) args s
        .ok (t, rest, s)
      | rest => do
        let (t, s) ← named cx (lastSegment name) [] s
        .ok (t, rest, s)

/-- Generic arguments up to and with the closing bracket; lifetimes are passed over, and commas
between arguments may be missing or repeated. -/
def arguments {σ : Type} (cx : Context σ) : (fuel : Nat) → List Char → σ →
    Except TypeFault (List Ty × List Char × σ)
  | 0, _, _ => .error (.ended cx.text)
  | fuel + 1, cs, s =>
    match skip (skipLifetime cs) with
    | '>' :: rest => .ok ([], rest, s)
    | ',' :: rest => arguments cx fuel rest s
    | cs => do
      let (t, rest, s) ← type cx fuel cs s
      let rest := match skip rest with
        | ',' :: rest => rest
        | rest => rest
      let (ts, rest, s) ← arguments cx fuel rest s
      .ok (t :: ts, rest, s)

/-- The elements of a tuple up to and with the closing parenthesis. -/
def elements {σ : Type} (cx : Context σ) : (fuel : Nat) → List Char → σ →
    Except TypeFault (List Ty × List Char × σ)
  | 0, _, _ => .error (.ended cx.text)
  | fuel + 1, cs, s =>
    match skip cs with
    | ')' :: rest => .ok ([], rest, s)
    | cs => do
      let (t, rest, s) ← type cx fuel cs s
      match skip rest with
      | ',' :: rest => do
        let (ts, rest, s) ← elements cx fuel rest s
        .ok (t :: ts, rest, s)
      | ')' :: rest => .ok ([t], rest, s)
      | _ => .error (.unseparated cx.text)

end

/-- A whole text.  Three calls pass at most between one character and the next. -/
def whole {σ : Type} (declared : String → Bool) (enter : String → Bool → σ → Except TypeFault σ)
    (text : String) (s : σ) : Except TypeFault (Ty × σ) := do
  let cx : Context σ := { text, size := text.length, declared, enter }
  let (t, rest, s) ← type cx (3 * text.length + 3) text.toList s
  match skip rest with
  | [] => .ok (t, s)
  | rest => .error (.trailing text (cx.position rest))

/-- What reading has found out about the declared types. -/
structure Entered where
  /-- The names entered without arguments. -/
  known : List String
  /-- The declarations read to their end. -/
  decls : Declarations
  deriving Repr, Inhabited

/-- Nothing entered yet. -/
def Entered.none : Entered := ⟨[], .empty⟩

/-- The declaration table of a document. -/
abbrev Table := List (String × Json.Value)

/-- The names of a table. -/
def declaredIn (table : Table) (name : String) : Bool := (Json.Value.find? name table).isSome

/-- Enters a declared name.  `within` holds the generic uses on the way from the last use without
arguments: such a use that meets itself there has no end. -/
def enter (table : Table) : (fuel : Nat) → (within : List String) → String → Bool → Entered →
    Except TypeFault Entered
  | 0, _, name, _, _ => .error (.endless name)
  | fuel + 1, within, name, generic, s =>
    if !generic && s.known.contains name then .ok s
    else if generic && within.contains name then .error (.endless name)
    else
      match Json.Value.find? name table with
      | some (.obj decl) => do
        let s := if generic then s else { s with known := name :: s.known }
        let within := if generic then name :: within else []
        let hasDrop := ((Json.Value.find? "has_drop" decl).getD .null).truthy
        let given := (Json.Value.find? "fields" decl).getD .null
        let members ← match given with
          | .obj members => .ok members
          | v => if v.truthy then .error (.fields name) else .ok []
        let (fields, s) ← members.foldlM (fun (fields, s) (field, v) => do
          let (t, s) ← whole (declaredIn table) (enter table fuel within) v.text s
          .ok (fields ++ [(field, t)], s)) ([], s)
        .ok { s with decls := s.decls.add name { hasDrop, fields := .ofList fields } }
      | _ => .error (.declaration name)

/-- No chain of entries is longer: between two uses without arguments stand at most as many generic
ones as there are names, and each name is entered without arguments once. -/
def enterFuel (table : Table) : Nat := (table.length + 1) * (table.length + 1) + 1

/-- A whole text over a declaration table. -/
def declaredText (table : Table) (text : String) (s : Entered) : Except TypeFault (Ty × Entered) :=
  whole (declaredIn table) (enter table (enterFuel table) []) text s

end Dangling.Ty.Reader

namespace Dangling

/-- Reads a type that a document gives, over its declaration table. -/
def Ty.read (table : Ty.Reader.Table) (given : Json.Value) (s : Ty.Reader.Entered) :
    Except TypeFault (Ty × Ty.Reader.Entered) :=
  match given with
  | .str text => Ty.Reader.declaredText table text s
  | v => .error (.notText v)

end Dangling
