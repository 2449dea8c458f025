import Dangling.Finding.Finding
import Dangling.Path.State

/-!
# Path — Progress

A path state with the alarms raised on the way to it, and the two checks that raise them: memory is
used, and memory is dropped.  Only memory that was handled by hand raises alarms.
-/

namespace Dangling

/-- A misuse of released memory, as met on a path. -/
structure Alarm where
  kind : Misuse
  node : NodeId
  origin : NodeId
  loc : Location
  dropLoc : Option Location
  context : String
  deriving Repr, Inhabited

/-- A path state and the alarms raised on the way to it, in order. -/
structure Progress where
  state : PathState
  alarms : List Alarm := []
  deriving Repr, Inhabited

namespace Progress

/-- Changes the state. -/
def on (p : Progress) (f : PathState → PathState) : Progress := { p with state := f p.state }

/-- Raises the alarm for a misuse of the released memory of `id`. -/
def raise (p : Progress) (kind : Misuse) (id : NodeId) (loc : Location) (context : String) :
    Progress :=
  let fate := (p.state.node id).fate
  { p with
    alarms := p.alarms ++
      [{ kind, node := id, origin := fate.origin?.getD id, loc, dropLoc := fate.loc?, context }] }

/-- Uses the memory of a node: of the node and the fields below it, the first that was released by
hand raises an alarm. -/
def checkUse (t : NodeTable) (id : NodeId) (loc : Location) (context : String) (p : Progress) :
    Progress :=
  match (t.subtree id).find? fun n => p.state.isDropped n && p.state.isTainted n with
  | some n => p.raise .useAfterFree n loc context
  | none => p

/-- The nodes whose memory goes when `id` is dropped: all that name it, and their fields. -/
def dropTargets (t : NodeTable) (s : PathState) (id : NodeId) : List NodeId :=
  (s.aliases id).flatMap t.subtree ++ t.subtree id

/-- Releases the memory of a node.  To release it twice raises an alarm, if one of the two is by
hand. -/
def release (t : NodeTable) (id : NodeId) (loc : Location) (manual : Bool) (context : String)
    (p : Progress) : Progress :=
  if p.state.isDropped id then
    if manual || p.state.isTainted id then p.raise .doubleFree id loc context else p
  else p.on fun s => s.markDropped (dropTargets t s id) id (some loc) manual

/-- Releases the memory of a node at the end of its scope, if the node still owns it. -/
def releaseOwned (t : NodeTable) (id : NodeId) (loc : Location) (context : String) (p : Progress) :
    Progress :=
  if (p.state.node id).owned then p.release t id loc false context else p

/-- Uses an operand.  To copy a pointer does not touch the memory it names. -/
def useOperand (t : NodeTable) (loc : Location) (context : String) (o : Operand) (p : Progress) :
    Progress :=
  match o.place? with
  | none => p
  | some place =>
    let (id, deref) := t.lookup place
    if deref then p.checkUse t id loc (context ++ " through dereference")
    else if o.isMove then p.checkUse t id loc (context ++ " (moved)")
    else if t.isPointer id then p
    else p.checkUse t id loc (context ++ " (copied)")

end Progress

namespace PathState

/-- Makes each node of a subtree own its memory if its type needs drop. -/
def ownByType (t : NodeTable) (s : PathState) (id : NodeId) : PathState :=
  (t.subtree id).foldl (fun s n => s.setOwned n (t.needsDrop n)) s

/-- As `ownByType`, but for `id` itself a choice may be given. -/
def ownAs (t : NodeTable) (s : PathState) (id : NodeId) (owned : Option Bool) : PathState :=
  match owned with
  | none => s.ownByType t id
  | some b =>
    (t.subtree id).foldl (fun s n => s.setOwned n (if n = id then b else t.needsDrop n)) s

/-- Takes the value of a subtree out. -/
def loseOwnership (t : NodeTable) (s : PathState) (id : NodeId) : PathState :=
  s.updateAll (t.subtree id) NodeState.leave

/-- Forgets all about a subtree that is about to be overwritten. -/
def overwrite (t : NodeTable) (s : PathState) (id : NodeId) : PathState := s.kill (t.subtree id)

/-- The value of an operand, if the path knows it. -/
def valueOf (t : NodeTable) (s : PathState) (o : Operand) : Option Scalar :=
  match o.place? with
  | none => o.scalar?
  | some place =>
    let (id, deref) := t.lookup place
    if deref then none else s.known id

end PathState

end Dangling
