import Dangling.Graph.Nodes
import Dangling.Mir.Location
import Dangling.Order.Sorted

/-!
# Path — State

What is known at a point of one path: for each node whether it owns its memory, what has become of
that memory, whether it was handled by hand, and which nodes name the same memory; and the values of
nodes.  Paths never share a state.

* `PathState.join`: two nodes name the same memory from here on.
* `PathState.kill`: nodes are about to be overwritten.
* `PathState.markDropped`: the memory of nodes is released.
-/

namespace Dangling

/-- What has become of a node's memory. -/
inductive Fate where
  | live
  | movedOut
  /-- Released when `origin` was dropped. -/
  | dropped (origin : NodeId) (loc : Option Location)
  deriving Repr, Inhabited

namespace Fate

/-- The word for a fate. -/
def word : Fate → String
  | .live => "not_dropped"
  | .movedOut => "moved_out"
  | .dropped _ _ => "dropped"

/-- The memory is released. -/
def isDropped : Fate → Bool
  | .dropped _ _ => true
  | _ => false

/-- The node whose drop released the memory. -/
def origin? : Fate → Option NodeId
  | .dropped origin _ => some origin
  | _ => none

/-- Where the memory was released. -/
def loc? : Fate → Option Location
  | .dropped _ loc => loc
  | _ => none

/-- Live memory goes elsewhere; nothing else changes. -/
def leave : Fate → Fate
  | .live => .movedOut
  | f => f

end Fate

/-- What a path knows about a node. -/
structure NodeState where
  /-- The node is responsible for releasing its memory. -/
  owned : Bool := false
  fate : Fate := .live
  /-- The memory was released or given an owner by hand. -/
  tainted : Bool := false
  /-- The nodes that name the same memory, ascending. -/
  aliases : List NodeId
  deriving Repr, Inhabited

namespace NodeState

/-- Nothing is known, and nothing else names the memory. -/
def fresh (id : NodeId) : NodeState := { aliases := [id] }

/-- The memory is released. -/
def isDropped (n : NodeState) : Bool := n.fate.isDropped

/-- The value is taken out: nothing is owned any more. -/
def leave (n : NodeState) : NodeState := { n with owned := false, fate := n.fate.leave }

end NodeState

/-- What a path knows about all nodes. -/
structure PathState where
  nodes : Array NodeState
  /-- The values of nodes, each node at most once. -/
  values : List (NodeId × Scalar) := []
  deriving Repr, Inhabited

namespace PathState

/-- The number of nodes. -/
def size (s : PathState) : Nat := s.nodes.size

/-- Nothing is known of `n` nodes. -/
def initial (n : Nat) : PathState := { nodes := ((List.range n).map NodeState.fresh).toArray }

/-- What is known about a node. -/
def node (s : PathState) (id : NodeId) : NodeState := s.nodes.getD id default

/-- Changes what is known about a node. -/
def update (s : PathState) (id : NodeId) (f : NodeState → NodeState) : PathState :=
  { s with nodes := s.nodes.modify id f }

/-- Changes what is known about several nodes, in order. -/
def updateAll (s : PathState) (ids : List NodeId) (f : NodeState → NodeState) : PathState :=
  ids.foldl (fun s id => s.update id f) s

/-- The nodes that name the same memory as `id`. -/
def aliases (s : PathState) (id : NodeId) : List NodeId := (s.node id).aliases

/-- Says whether a node owns its memory. -/
def setOwned (s : PathState) (id : NodeId) (owned : Bool) : PathState :=
  s.update id fun n => { n with owned }

/-- The value of a node. -/
def known (s : PathState) (id : NodeId) : Option Scalar := s.values.lookup id

/-- The value of a node is not known any more. -/
def forgetValue (s : PathState) (id : NodeId) : PathState :=
  { s with values := s.values.filter fun x => x.1 ≠ id }

/-- Gives a node a value. -/
def setKnown (s : PathState) (id : NodeId) (v : Scalar) : PathState :=
  { s with values := (id, v) :: (s.forgetValue id).values }

/-- Gives a node a value, if there is one. -/
def setKnown? (s : PathState) (id : NodeId) : Option Scalar → PathState
  | some v => s.setKnown id v
  | none => s

/-- The members of the classes of `a` and `b`. -/
def merged (s : PathState) (a b : NodeId) : List NodeId := Sorted.union compare (s.aliases a) (s.aliases b)

/-- Makes one class of the classes of `a` and `b`.  If one of its members is tainted, all are. -/
def join (s : PathState) (a b : NodeId) : PathState :=
  let members := s.merged a b
  let tainted := members.any fun n => (s.node n).tainted
  s.updateAll members fun n => { n with aliases := members, tainted := n.tainted || tainted }

/-- Takes a node out of its class and forgets all about it. -/
def forget (s : PathState) (id : NodeId) : PathState :=
  let others := (s.aliases id).filter (· ≠ id)
  let s := s.updateAll others fun n => { n with aliases := n.aliases.filter (· ≠ id) }
  (s.update id fun _ => .fresh id).forgetValue id

/-- Forgets all about nodes that are about to be overwritten. -/
def kill (s : PathState) (ids : List NodeId) : PathState := ids.foldl forget s

/-- The memory of a node was handled by hand. -/
def taint (s : PathState) (id : NodeId) : PathState :=
  s.updateAll (s.aliases id) fun n => { n with tainted := true }

/-- The memory of a node, or that of the node whose drop released it, was handled by hand. -/
def isTainted (s : PathState) (id : NodeId) : Bool :=
  (s.node id).tainted ||
    match (s.node id).fate.origin? with
    | some origin => (s.node origin).tainted
    | none => false

/-- The memory of a node is released. -/
def isDropped (s : PathState) (id : NodeId) : Bool := (s.node id).isDropped

/-- The memory of nodes is released by a drop of `origin`. -/
def markDropped (s : PathState) (ids : List NodeId) (origin : NodeId) (loc : Option Location)
    (manual : Bool) : PathState :=
  s.updateAll ids fun n =>
    { n with fate := .dropped origin loc, tainted := n.tainted || manual }

/-- The nodes of known value, ascending, with their values. -/
def constants (s : PathState) : List (NodeId × Scalar) :=
  Sorted.sortBy (fun x y => (compare x.1 y.1).isLE) s.values

end PathState

end Dangling
