import Dangling.Constant.Term
import Dangling.Path.Progress

/-!
# Path — Assign

What an assignment does to a path state.

* A move takes ownership, fate and alias class along; a copied pointer joins the class it names.
* A borrow or an address joins the class of its target.
* A computed value is folded, if the operands allow it.
* A write through a pointer leaves the alias classes as they are.
-/

namespace Dangling

namespace PathState

/-- Gives `dest` what `src` has, and takes the value out of `src`. -/
def moveNode (s : PathState) (dest src : NodeId) : PathState :=
  let n := s.node src
  let s := s.update dest fun d => { d with owned := n.owned, fate := n.fate, tainted := n.tainted }
  let s := s.join dest src
  let s := s.setKnown? dest (s.known src)
  s.update src NodeState.leave

/-- Moves `src` into `dest` with the fields that both have, at most `depth` levels down. -/
def moveWithin (t : NodeTable) : (depth : Nat) → PathState → NodeId → NodeId → PathState
  | 0, s, dest, src => s.moveNode dest src
  | depth + 1, s, dest, src =>
    (t.children dest).foldl (fun s (field, d) =>
      match t.child? src field with
      | some c => moveWithin t depth s d c
      | none => s) (s.moveNode dest src)

/-- Moves `src` into `dest` with all fields that both have. -/
def moveInto (t : NodeTable) (s : PathState) (dest src : NodeId) : PathState :=
  s.moveWithin t maxFieldDepth dest src

/-- Stores an operand in the overwritten `dest`. -/
def storeOperand (t : NodeTable) (s : PathState) (dest : NodeId) (o : Operand) : PathState :=
  match o.place? with
  | none => (s.overwrite t dest).setKnown? dest o.scalar?
  | some place =>
    let (src, deref) := t.lookup place
    if deref then
      let s := s.overwrite t dest
      if t.isPointer dest then s.join dest src else s.ownByType t dest
    else if src = dest then s
    else if o.isMove then (s.overwrite t dest).moveInto t dest src
    else
      let value := s.known src
      let s := s.overwrite t dest
      if t.isPointer src then s.join dest src else s.setKnown? dest value

/-- Stores an operand in the field `child` of a new aggregate. -/
def fillField (t : NodeTable) (s : PathState) (child : NodeId) (o : Operand) : PathState :=
  match o.place? with
  | none => s.setKnown? child o.scalar?
  | some place =>
    let (src, deref) := t.lookup place
    if deref then s.ownByType t child
    else if o.isMove then s.moveInto t child src
    else if t.isPointer src then s.join child src
    else s

/-- Stores an operand in a new aggregate that has no node for the field: the aggregate itself names
the memory. -/
def fillWhole (t : NodeTable) (s : PathState) (dest : NodeId) (o : Operand) : PathState :=
  match o.place? with
  | none => s
  | some place =>
    let (src, deref) := t.lookup place
    if deref then s
    else if o.isMove then
      let s := if (s.node src).owned then s.setOwned dest true else s
      (s.join dest src).loseOwnership t src
    else if t.isPointer src then s.join dest src
    else s

/-- Stores operands in the fields of a new aggregate, in order. -/
def fill (t : NodeTable) (dest : NodeId) : PathState → List Operand → List NodeId → PathState
  | s, [], _ => s
  | s, o :: os, child :: children => fill t dest (s.fillField t child o) os children
  | s, o :: os, [] => fill t dest (s.fillWhole t dest o) os []

/-- The value of `v` at a type. -/
def castValue (kind : Kind) (v : Scalar) : Option Scalar :=
  match kind with
  | .int => some (.int v.toInt)
  | .bool => some (.bool v.toBool)
  | _ => none

/-- Stores an operand, read as of type `ty`, in `dest`. -/
def storeCast (t : NodeTable) (s : PathState) (dest : NodeId) (o : Operand) (ty : Ty) : PathState :=
  let value := s.valueOf t o
  let s := s.overwrite t dest
  match o.place? with
  | none => s.setKnown? dest value
  | some place =>
    let (src, deref) := t.lookup place
    if deref then s
    else if t.isPointer src || ty.isPointer || t.isPointer dest then
      let s := s.join dest src
      if o.isMove && (s.node src).owned then (s.setOwned dest true).loseOwnership t src else s
    else s.setKnown? dest (value.bind (castValue ty.kind))

/-- The term of an operand.  What is read through a pointer, and a constant that is no number, is a
symbol of its own, named for its `side` of the operator. -/
def termOf (t : NodeTable) (s : PathState) (side : String) (o : Operand) : Term :=
  match s.valueOf t o with
  | some v => .lit v
  | none =>
    match o.place? with
    | none => .sym side false
    | some place =>
      let (id, deref) := t.lookup place
      if deref then .sym side false else .sym s!"n{id}" ((t.ty id).kind == .bool)

/-- The value of a binary operation. -/
def foldBinary (t : NodeTable) (s : PathState) (op : BinOp) (l r : Operand)
    (simplify : Simplifier := Formula.simplify) : Option Scalar :=
  Term.binary op (s.termOf t "left" l) (s.termOf t "right" r) simplify

/-- The value of a unary operation. -/
def foldUnary (t : NodeTable) (s : PathState) (op : UnOp) (o : Operand)
    (simplify : Simplifier := Formula.simplify) : Option Scalar :=
  Term.unary op (s.termOf t "operand" o) simplify

/-- Stores the value of a computation in `dest`, if it is known. -/
def storeValue (t : NodeTable) (s : PathState) (dest : NodeId) (v : Option Scalar) : PathState :=
  (s.overwrite t dest).setKnown? dest v

/-- Makes `dest` name the memory that a place names. -/
def storeAddress (t : NodeTable) (s : PathState) (dest : NodeId) (target : Place) : PathState :=
  (s.overwrite t dest).join dest (t.lookup target).1

/-- Takes the value of a moved operand out of its node. -/
def takeMoved (t : NodeTable) (s : PathState) (o : Operand) : PathState :=
  match o with
  | .move place =>
    let (src, deref) := t.lookup place
    if deref then s else s.loseOwnership t src
  | _ => s

end PathState

namespace Progress

/-- A write through the pointer `dest`: what it points to must be there. -/
def assignThrough (t : NodeTable) (loc : Location) (dest : NodeId) (r : Rvalue) (p : Progress) :
    Progress :=
  r.operands.foldl
    (fun p o => (p.useOperand t loc "assignment" o).on fun s => s.takeMoved t o)
    (p.checkUse t dest loc "write through dereference")

/-- A write to the node `dest`. -/
def assignTo (t : NodeTable) (loc : Location) (dest : NodeId) (r : Rvalue) (p : Progress)
    (simplify : Simplifier := Formula.simplify) : Progress :=
  match r with
  | .use o => (p.useOperand t loc "assignment" o).on fun s => s.storeOperand t dest o
  | .ref _ target =>
    (p.checkUse t (t.lookup target).1 loc "borrow").on fun s => s.storeAddress t dest target
  | .addressOf _ target => p.on fun s => s.storeAddress t dest target
  | .aggregate items _ =>
    (items.foldl (fun p o => p.useOperand t loc "aggregate field" o) p).on fun s =>
      (s.overwrite t dest).fill t dest items ((t.children dest).map (·.2))
  | .cast o ty => (p.useOperand t loc "cast" o).on fun s => s.storeCast t dest o ty
  | .binary op l r =>
    ((p.useOperand t loc "operand" l).useOperand t loc "operand" r).on fun s =>
      if op = .offset then
        match l.place? with
        | some place => s.storeAddress t dest place
        | none => s.overwrite t dest
      else s.storeValue t dest (s.foldBinary t op l r simplify)
  | .unary op o =>
    (p.useOperand t loc "operand" o).on fun s =>
      s.storeValue t dest (s.foldUnary t op o simplify)
  | .inspect what target =>
    (p.checkUse t (t.lookup target).1 loc (what.name ++ " read")).on fun s => s.overwrite t dest

/-- An assignment. -/
def assign (t : NodeTable) (loc : Location) (place : Place) (r : Rvalue) (p : Progress)
    (simplify : Simplifier := Formula.simplify) : Progress :=
  let (dest, deref) := t.lookup place
  if deref then p.assignThrough t loc dest r else p.assignTo t loc dest r simplify

/-- A statement; only assignments have an effect. -/
def statement (t : NodeTable) (p : Progress) (st : Statement) : Progress :=
  match st.kind with
  | .assign place r => p.assign t st.loc place r
  | _ => p

end Progress

end Dangling
