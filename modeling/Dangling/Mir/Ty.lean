import Dangling.Order.Distinct

/-!
# Mir — Ty

Types of locals and fields.  A nominal type is known by its name: its fields, if it has any, are in
the declarations, so a recursive type is a finite term.  What matters about a type here is whether
dropping a value of it releases memory (`needsDrop`), whether its values name other memory
(`isPointer`), and which fields it has.
-/

namespace Dangling

/-- What sort of type a type is. -/
inductive Kind where
  | int | float | bool | char | str | unit
  | ref | mutRef | rawPtr
  | box | vec | string | rc | manuallyDrop
  | tuple | array | adt | fn | never | unknown
  deriving DecidableEq, Repr, Inhabited

namespace Kind

/-- The word for a kind; it stands for a type of which nothing else is known. -/
def word : Kind → String
  | int => "int"
  | float => "float"
  | bool => "bool"
  | char => "char"
  | str => "str"
  | unit => "unit"
  | ref => "ref"
  | mutRef => "mut_ref"
  | rawPtr => "raw_ptr"
  | box => "box"
  | vec => "vec"
  | string => "string"
  | rc => "rc"
  | manuallyDrop => "manually_drop"
  | tuple => "tuple"
  | array => "array"
  | adt => "adt"
  | fn => "fn"
  | never => "never"
  | unknown => "unknown"

/-- Every kind. -/
def all : List Kind :=
  [int, float, bool, char, str, unit, ref, mutRef, rawPtr, box, vec, string, rc, manuallyDrop,
    tuple, array, adt, fn, never, unknown]

/-- Owners of heap memory: dropping one always releases something. -/
def ownsHeap : Kind → Bool
  | box | vec | string | rc => true
  | _ => false

/-- References and raw pointers. -/
def isPointer : Kind → Bool
  | ref | mutRef | rawPtr => true
  | _ => false

end Kind

/-- A type. -/
inductive Ty where
  /-- Nothing is known but the kind: unit, never, and what is not understood. -/
  | bare (kind : Kind)
  /-- A type without parts, known by a name of the language. -/
  | scalar (kind : Kind) (name : String)
  | ref (mutable : Bool) (pointee : Ty)
  | rawPtr (mutable : Bool) (pointee : Ty)
  | array (element : Ty)
  | tuple (elements : List Ty)
  /-- A container of the standard library. -/
  | owner (kind : Kind) (name : String) (args : List Ty) (pointee : Option Ty)
  /-- A type known by its name; the declarations tell its fields. -/
  | nominal (name : String) (args : List Ty)
  /-- A struct with the names and types of its fields written out. -/
  | struct (name : String) (names : List String) (types : List Ty) (hasDrop : Bool)
      (distinct : names.Nodup)
  deriving Repr, Inhabited

/-- What a document declares of a nominal type. -/
structure Decl where
  hasDrop : Bool
  /-- The fields are told apart by their names. -/
  fields : DistinctBy (Prod.fst : String × Ty → String)
  deriving Repr

/-- The declared types of a document. -/
structure Declarations where
  entries : List (String × Decl)
  deriving Repr, Inhabited

namespace Declarations

/-- No declarations. -/
def empty : Declarations := ⟨[]⟩

/-- The declaration of `name`. -/
def find? (ds : Declarations) (name : String) : Option Decl :=
  ds.entries.lookup name

/-- Declares `name`, unless it is declared already. -/
def add (ds : Declarations) (name : String) (d : Decl) : Declarations :=
  if (ds.find? name).isSome then ds else ⟨ds.entries ++ [(name, d)]⟩

end Declarations

namespace Ty

/-- The type with one value. -/
def unit : Ty := .bare .unit

/-- A type that is not known. -/
def unknown : Ty := .bare .unknown

/-- The thirty-two bit integers. -/
def int32 : Ty := .scalar .int "i32"

/-- The truth values. -/
def bool : Ty := .scalar .bool "bool"

/-- The product of `ts`; of none, the unit type. -/
def product (ts : List Ty) : Ty := if ts.isEmpty then unit else .tuple ts

/-- A standard container; its first argument is what it points to. -/
def container (kind : Kind) (name : String) (args : List Ty) : Ty := .owner kind name args args.head?

/-- The kind of a type. -/
def kind : Ty → Kind
  | .bare k | .scalar k _ | .owner k _ _ _ => k
  | .ref mutable _ => if mutable then .mutRef else .ref
  | .rawPtr _ _ => .rawPtr
  | .array _ => .array
  | .tuple _ => .tuple
  | .nominal _ _ | .struct _ _ _ _ _ => .adt

/-- The name of a named type. -/
def name? : Ty → Option String
  | .scalar _ n | .owner _ n _ _ | .nominal n _ | .struct n _ _ _ _ => some n
  | _ => none

/-- Values reached through the type may be written to. -/
def isMutable : Ty → Bool
  | .ref m _ | .rawPtr m _ => m
  | _ => false

/-- What a pointer, a box or an array holds. -/
def pointee? : Ty → Option Ty
  | .ref _ t | .rawPtr _ t | .array t => some t
  | .owner _ _ _ p => p
  | _ => none

/-- Generic arguments; the element of an array counts as one. -/
def args : Ty → List Ty
  | .owner _ _ ts _ | .nominal _ ts => ts
  | .array t => [t]
  | _ => []

/-- Elements numbered from zero. -/
def numbered (ts : List Ty) : List (String × Ty) :=
  ts.zipIdx.map fun (t, i) => (toString i, t)

/-- The fields of a type, in declaration order. -/
def fields (ds : Declarations) : Ty → List (String × Ty)
  | .tuple ts => numbered ts
  | .nominal n _ => ((ds.find? n).map (·.fields.1)).getD []
  | .struct _ names types _ _ => names.zip types
  | _ => []

/-- The type has a destructor of its own. -/
def hasDrop (ds : Declarations) : Ty → Bool
  | .nominal n _ => ((ds.find? n).map (·.hasDrop)).getD false
  | .struct _ _ _ h _ => h
  | _ => false

/-- References and raw pointers: values that name other memory. -/
def isPointer (t : Ty) : Bool := t.kind.isPointer

/-- Raw pointers. -/
def isRawPointer (t : Ty) : Bool := t.kind == .rawPtr

/-- Dropping a value releases memory that is found within `n` steps into the type: owners of heap
memory always do, types under `ManuallyDrop` never, and aggregates do when they have a destructor or
a part that does. -/
def needsDropWithin (ds : Declarations) : (n : Nat) → Ty → Bool
  | 0, _ => false
  | n + 1, t =>
    if t.kind.ownsHeap then true
    else
      match t with
      | .tuple ts => ts.any (needsDropWithin ds n)
      | .array t => needsDropWithin ds n t
      | .nominal _ args =>
        t.hasDrop ds || (t.fields ds).any (fun f => needsDropWithin ds n f.2) ||
          args.any (needsDropWithin ds n)
      | .struct _ _ _ _ _ => t.hasDrop ds || (t.fields ds).any (fun f => needsDropWithin ds n f.2)
      | _ => false

/-- How far `needsDrop` looks into a type. -/
def dropDepth : Nat := 9

/-- Dropping a value of the type releases memory. -/
def needsDrop (ds : Declarations) (t : Ty) : Bool := needsDropWithin ds dropDepth t

/-- Copying a value leaves nothing to release twice and no second writer. -/
def isCopy (ds : Declarations) (t : Ty) : Bool := !t.needsDrop ds && t.kind != .mutRef

/-- A name with its arguments in angle brackets. A type whose name is empty shows its kind. -/
def applied (kind : Kind) (name : String) (args : List String) : String :=
  if name = "" then kind.word
  else if args.isEmpty then name
  else name ++ "<" ++ ", ".intercalate args ++ ">"

mutual

/-- The text of a type. -/
def text : Ty → String
  | .bare k => if k = .unit ∨ k = .tuple then "()" else k.word
  | .scalar k n => applied k n []
  | .ref false t => "&" ++ text t
  | .ref true t => "&mut " ++ text t
  | .rawPtr false t => "*const " ++ text t
  | .rawPtr true t => "*mut " ++ text t
  | .array _ => Kind.array.word
  | .tuple ts => "(" ++ ", ".intercalate (texts ts) ++ ")"
  | .owner k n ts _ => applied k n (texts ts)
  | .nominal n ts => applied .adt n (texts ts)
  | .struct n _ _ _ _ => applied .adt n []

/-- The texts of several types. -/
def texts : List Ty → List String
  | [] => []
  | t :: ts => text t :: texts ts

end

end Ty

end Dangling
