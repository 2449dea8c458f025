import Dangling.Library.Model
import Dangling.Path.Assign
import Dangling.Summary.Summary

/-!
# Path — Call

What a call does to a path state, by what is known of the callee: in turn the arguments are used,
released and moved, the destination is overwritten, and classes are joined.
-/

namespace Dangling

/-- What is known of a callee. -/
inductive CalleeEffect where
  | unknown
  /-- A library function. -/
  | modelled (model : Model)
  /-- A function of the program. -/
  | summarised (summary : Summary)
  deriving Repr, Inhabited

/-- A call at a point of a path: the callee's path, what is known of it, the arguments and their
nodes. -/
structure CallSite where
  loc : Location
  callee : String
  effect : CalleeEffect
  args : List Operand
  deriving Repr, Inhabited

namespace CallSite

/-- The node that an operand reads, and whether it reads behind a dereference of it. -/
def nodeOf (t : NodeTable) (o : Operand) : Option (NodeId × Bool) := o.place?.map t.lookup

/-- The argument at a position; a negative one counts from the last. -/
def arg? (c : CallSite) (i : Int) : Option Operand :=
  if 0 ≤ i then c.args[i.toNat]?
  else if 0 ≤ i + c.args.length then c.args[(i + c.args.length).toNat]?
  else none

/-- The position lies before the first argument. -/
def isBefore (c : CallSite) (i : Int) : Bool := decide (i + c.args.length < 0)

/-- The node of the argument at a position. -/
def argNode (t : NodeTable) (c : CallSite) (i : Int) : Option NodeId :=
  ((c.arg? i).bind (nodeOf t)).map (·.1)

/-- Dropping the node by value releases something: a value of a type without drop glue frees
nothing, and of an unknown type is taken to free something. -/
def releasesOnDrop (t : NodeTable) (id : NodeId) : Bool :=
  (t.ty id).kind == .unknown || t.needsDrop id

/-- The positions and nodes of the arguments that a model releases. -/
def modelDrops (t : NodeTable) (c : CallSite) (m : Model) : List (Int × NodeId) :=
  m.drops.filterMap fun i =>
    match c.argNode t i with
    | some id => if m.throughPointer || releasesOnDrop t id then some (i, id) else none
    | none => none

/-- The positions of the arguments that the callee releases by hand: they are not used besides. -/
def manualDrops (t : NodeTable) (c : CallSite) : List Int :=
  match c.effect with
  | .unknown => []
  | .modelled m => if m.manual then (c.modelDrops t m).map (·.1) else []
  | .summarised s =>
    s.dropped.filterMap fun d =>
      if d.manual && 1 ≤ d.path.slot then some ((d.path.slot : Int) - 1) else none

/-- The positions of the arguments whose memory gets a new owner. -/
def reconstructs (c : CallSite) : List Int :=
  match c.effect with
  | .modelled m => m.reconstructs
  | _ => []

/-- The positions of the arguments that are consumed even when they are copied. -/
def forgets (c : CallSite) : List Int :=
  match c.effect with
  | .modelled m => m.forgets
  | _ => []

/-- Uses the argument at position `i`. -/
def useArg (t : NodeTable) (c : CallSite) (p : Progress) (arg : Operand × Nat) : Progress :=
  let (o, i) := arg
  if (c.manualDrops t).contains (i : Int) then p
  else
    match c.reconstructs.contains (i : Int), nodeOf t o with
    | true, some (id, _) =>
      p.checkUse t id c.loc ("ownership taken from dangling pointer by " ++ c.callee)
    | _, _ => p.useOperand t c.loc ("argument to " ++ c.callee) o

/-- First step: the arguments are used. -/
def use (t : NodeTable) (c : CallSite) (p : Progress) : Progress :=
  c.args.zipIdx.foldl (c.useArg t) p

/-- The node that a slot of the callee stands for, given the node of its result. -/
def slotNode (t : NodeTable) (c : CallSite) (dest : NodeId) (s : Slot) : Option NodeId :=
  match s.slot with
  | 0 => some (t.childAt dest s.fields)
  | i + 1 => (c.argNode t i).map fun id => t.childAt id s.fields

/-- Releases a slot that the callee releases. -/
def dropSlot (t : NodeTable) (c : CallSite) (p : Progress) (d : DroppedSlot) : Progress :=
  match d.path.slot with
  | 0 => p
  | i + 1 =>
    match c.argNode t i with
    | some id =>
      p.release t (t.childAt id d.path.fields) c.loc d.manual ("dropped inside " ++ c.callee)
    | none => p

/-- Second step: arguments are released. -/
def drop (t : NodeTable) (c : CallSite) (p : Progress) : Progress :=
  match c.effect with
  | .unknown => p
  | .modelled m =>
    (c.modelDrops t m).foldl
      (fun p (_, id) => p.release t id c.loc m.manual ("dropped by " ++ c.callee)) p
  | .summarised s => s.dropped.foldl (c.dropSlot t) p

/-- Third step: moved and forgotten arguments are taken out of their nodes. -/
def move (t : NodeTable) (c : CallSite) (s : PathState) : PathState :=
  c.args.zipIdx.foldl (fun s (o, i) =>
    match nodeOf t o with
    | some (id, false) =>
      if o.isMove || c.forgets.contains (i : Int) then s.loseOwnership t id else s
    | _ => s) s

/-- Fourth step: the result is stored. -/
def store (t : NodeTable) (c : CallSite) (dest : NodeId) (s : PathState) : PathState :=
  let owned := match c.effect with
    | .modelled m => m.retOwned
    | _ => none
  (s.overwrite t dest).ownAs t dest owned

/-- Joins the result with the memory of an argument. -/
def joinArg (t : NodeTable) (c : CallSite) (dest : NodeId) (s : PathState) (i : Int) : PathState :=
  match c.argNode t i with
  | some id => s.join dest id
  | none => s

/-- Makes the result an owner of the memory of an argument. -/
def reconstruct (t : NodeTable) (c : CallSite) (dest : NodeId) (s : PathState) (i : Int) :
    PathState :=
  match c.argNode t i with
  | some id => (s.join dest id).taint dest
  | none => s

/-- Joins two slots that name the same memory after the call. -/
def joinSlots (t : NodeTable) (c : CallSite) (dest : NodeId) (s : PathState) (pair : AliasPair) :
    PathState :=
  match c.slotNode t dest pair.1, c.slotNode t dest pair.2 with
  | some a, some b => if a = b then s else s.join a b
  | _, _ => s

/-- Fifth step: classes are joined. -/
def link (t : NodeTable) (c : CallSite) (dest : NodeId) (s : PathState) : PathState :=
  match c.effect with
  | .unknown => s
  | .modelled m =>
    m.reconstructs.foldl (c.reconstruct t dest) (m.retAliases.foldl (c.joinArg t dest) s)
  | .summarised sum => sum.aliases.foldl (c.joinSlots t dest) s

/-- The model names arguments before the first: released ones, or, where the result is stored in a
node, ones that the result is joined with. -/
def isMisplaced (t : NodeTable) (c : CallSite) (destination : Place) : Bool :=
  match c.effect with
  | .modelled m =>
    m.drops.any c.isBefore ||
      !(t.lookup destination).2 && (m.retAliases ++ m.reconstructs).any c.isBefore
  | _ => false

/-- A call that stores its result in a place.  Through a pointer the result is stored unseen. -/
def apply (t : NodeTable) (c : CallSite) (destination : Place) (p : Progress) : Progress :=
  let p := (c.drop t (c.use t p)).on (c.move t)
  let (dest, deref) := t.lookup destination
  if deref then p.checkUse t dest c.loc "write through dereference"
  else p.on fun s => c.link t dest (c.store t dest s)

end CallSite

end Dangling
