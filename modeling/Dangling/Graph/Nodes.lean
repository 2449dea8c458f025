import Dangling.Mir.Body

/-!
# Graph — Nodes

The entities that an analysis tracks: the locals of a function, which keep their numbers, and the
fields of structs and tuples, flattened to a bounded depth and numbered after the locals.

* `NodeTable.ofLocals`: the table of a function's locals.
* `NodeTable.lookup`: the node of a place.  Fields lead to child nodes; a dereference stops at the
  pointer, whose alias class stands for what it points to.
* `NodeTable.subtree`: a node and all below it, in field order.
-/

namespace Dangling

/-- The number of a node. -/
abbrev NodeId := Nat

/-- A tracked entity. -/
structure Node where
  id : NodeId
  ty : Ty
  /-- The local that the node is part of. -/
  base : Nat
  parent : Option NodeId := none
  /-- The field that leads from the parent here. -/
  field : Option String := none
  children : List (String × NodeId) := []
  /-- Local and fields, as a place is written. -/
  path : String
  /-- What messages call the node. -/
  label : LocalName
  /-- Dropping the node releases memory. -/
  needsDrop : Bool
  deriving Repr, Inhabited

namespace Node

/-- The node is a field of another. -/
def isField (n : Node) : Bool := n.parent.isSome

/-- What messages call the node, if that is a text. -/
def labelText? (n : Node) : Option String :=
  match n.label with
  | .text s => some s
  | .other _ => none

/-- The child of a field. -/
def child? (n : Node) (field : String) : Option NodeId := n.children.lookup field

end Node

/-- All nodes of a function; a node's number is its position. -/
structure NodeTable where
  nodes : Array Node
  deriving Repr, Inhabited

/-- Fields nested deeper than this have no nodes. -/
def maxFieldDepth : Nat := 4

/-- Types whose fields have nodes. -/
def Kind.isFlattened : Kind → Bool
  | .tuple | .adt => true
  | _ => false

namespace NodeTable

/-- The number of nodes. -/
def size (t : NodeTable) : Nat := t.nodes.size

/-- The node of a number. -/
def node (t : NodeTable) (id : NodeId) : Node := t.nodes.getD id default

/-- The children of a node, by field. -/
def children (t : NodeTable) (id : NodeId) : List (String × NodeId) := (t.node id).children

/-- The type of a node. -/
def ty (t : NodeTable) (id : NodeId) : Ty := (t.node id).ty

/-- Dropping the node releases memory. -/
def needsDrop (t : NodeTable) (id : NodeId) : Bool := (t.node id).needsDrop

/-- The node is a reference or a raw pointer. -/
def isPointer (t : NodeTable) (id : NodeId) : Bool := (t.ty id).isPointer

/-- The child of a field. -/
def child? (t : NodeTable) (id : NodeId) (field : String) : Option NodeId :=
  (t.node id).child? field

/-- `id` and the nodes at most `depth` fields below it, in field order. -/
def subtreeWithin (t : NodeTable) : (depth : Nat) → NodeId → List NodeId
  | 0, id => [id]
  | depth + 1, id => id :: (t.children id).flatMap fun c => subtreeWithin t depth c.2

/-- `id` and all nodes below it, in field order. -/
def subtree (t : NodeTable) (id : NodeId) : List NodeId := t.subtreeWithin maxFieldDepth id

/-- Descends from `id` along fields as far as nodes exist. -/
def childAt (t : NodeTable) : NodeId → List String → NodeId
  | id, [] => id
  | id, f :: fs =>
    match t.child? id f with
    | some c => childAt t c fs
    | none => id

/-- The node that steps lead to from `id`, and whether they pass a dereference.  The first
dereference ends the walk; after a field without a node (`descend` is then false) no field counts. -/
def follow (t : NodeTable) : (descend : Bool) → NodeId → List Projection → NodeId × Bool
  | _, id, [] => (id, false)
  | _, id, .deref :: _ => (id, true)
  | true, id, .field f :: rest =>
    match t.child? id f with
    | some c => follow t true c rest
    | none => follow t false id rest
  | false, id, .field _ :: rest => follow t false id rest

/-- The place names a declared local. -/
def declares (t : NodeTable) (p : Place) : Bool :=
  decide (p.base < t.size) && !(t.node p.base).isField

/-- The node of a place, and whether the place lies behind a dereference of it. -/
def lookup (t : NodeTable) (p : Place) : NodeId × Bool := t.follow true p.base p.steps

/-- The local and the fields that lead to `id`, going up at most `depth` parents. -/
def fieldPathWithin (t : NodeTable) : (depth : Nat) → NodeId → (fields : List String) →
    NodeId × List String
  | 0, id, fields => (id, fields)
  | depth + 1, id, fields =>
    match (t.node id).parent with
    | some p => fieldPathWithin t depth p (((t.node id).field.getD "") :: fields)
    | none => (id, fields)

/-- The local and the fields that lead to a node. -/
def fieldPath (t : NodeTable) (id : NodeId) : NodeId × List String :=
  t.fieldPathWithin maxFieldDepth id []

/-- Appends a node below `parent` under a field, and links it. -/
def addChild (ds : Declarations) (t : NodeTable) (parent : NodeId) (field : String) (ty : Ty) :
    NodeTable :=
  let p := t.node parent
  let child : Node :=
    { id := t.size, ty, base := p.base, parent := some parent, field := some field,
      path := p.path ++ "." ++ field, label := .text (p.label.shown ++ "." ++ field),
      needsDrop := ty.needsDrop ds }
  ⟨(t.nodes.modify parent fun n => { n with children := n.children ++ [(field, t.size)] }).push child⟩

/-- Appends the fields of a type below `id`, at most `depth` levels deep, each with its own fields
right after it. -/
def flatten (ds : Declarations) : (depth : Nat) → NodeTable → NodeId → Ty → NodeTable
  | 0, t, _, _ => t
  | depth + 1, t, id, ty =>
    if ty.kind.isFlattened then
      (ty.fields ds).foldl (fun t (field, fieldTy) =>
        flatten ds depth (t.addChild ds id field fieldTy) t.size fieldTy) t
    else t

/-- The node of a local. -/
def localNode (ds : Declarations) (i : Nat) (d : LocalDecl) : Node :=
  { id := i, ty := d.ty, base := i, path := s!"_{i}", label := d.name.getD (.text s!"_{i}"),
    needsDrop := d.ty.needsDrop ds }

/-- The nodes of a function's locals. -/
def ofLocals (ds : Declarations) (locals : List LocalDecl) : NodeTable :=
  let base : NodeTable := ⟨(locals.zipIdx.map fun (d, i) => localNode ds i d).toArray⟩
  locals.zipIdx.foldl (fun t (d, i) => flatten ds maxFieldDepth t i d.ty) base

end NodeTable

end Dangling
