import Dangling.Finding.Ledger
import Dangling.Graph.FunctionGraph
import Dangling.Path.Call

/-!
# Walk — Visit

One block on one path: its statements, its terminator, and the blocks where the path goes on.  What
is known of callees comes from a resolver, which may keep a store of its own.
-/

namespace Dangling

/-- The limits of an analysis. -/
structure Config where
  /-- Blocks entered in a function, over all paths, before its analysis is given up. -/
  visitBudget : Int := 10000
  /-- How often a path may enter a block of a loop. -/
  loopUnroll : Int := 2
  /-- Panics are followed too. -/
  followUnwind : Bool := false
  /-- How deep calls are followed. -/
  maxCallDepth : Int := 8
  deriving DecidableEq, Repr, Inhabited

/-- Why an analysis stops without a report. -/
inductive AnalysisFault where
  | unknownFunction (name : String)
  /-- The model of a callee names an argument before the first. -/
  | noArgument (function callee : String)
  /-- A finding concerns a node whose label is no text. -/
  | unnamedNode (function : String) (node : NodeId)
  deriving DecidableEq, Repr, Inhabited

/-- Tells what is known of a callee, given a store. -/
abbrev Resolver (σ : Type) := String → σ → Except AnalysisFault CalleeEffect × σ

/-- A resolver that answers without a store. -/
def Resolver.pure (effect : String → CalleeEffect) : Resolver Unit :=
  fun callee s => (.ok (effect callee), s)

/-- What came of a visit to a block. -/
structure Visit where
  progress : Progress
  /-- Where the path goes on. -/
  succs : List BlockId
  /-- The path returns here. -/
  returns : Bool := false
  deriving Repr, Inhabited

namespace FunctionGraph

/-- The state at the entry: parameters own memory that needs drop. -/
def initialState (g : FunctionGraph) : PathState :=
  ((List.range g.argCount).map (· + 1)).foldl (fun s i => s.ownByType g.nodes i)
    (.initial g.nodes.size)

/-- The slot of a node of the result or a parameter. -/
def slot? (g : FunctionGraph) (id : NodeId) : Option Slot :=
  if (g.nodes.node id).base ≤ g.argCount then
    some ⟨(g.nodes.node id).base, (g.nodes.fieldPath id).2⟩
  else none

/-- The nodes of the result and the parameters. -/
def slotNodes (g : FunctionGraph) : List NodeId :=
  (List.range (g.argCount + 1)).flatMap g.nodes.subtree

/-- The pairs of slots that name the same memory. -/
def aliasPairs (g : FunctionGraph) (s : PathState) : List AliasPair :=
  g.slotNodes.flatMap fun id =>
    ((s.aliases id).filter (· != id)).filterMap fun other =>
      match g.slot? id, g.slot? other with
      | some a, some b => some (.ofSlots a b)
      | _, _ => none

/-- The slots of parameters whose memory is released. -/
def droppedSlots (g : FunctionGraph) (s : PathState) : List DroppedSlot :=
  g.slotNodes.filterMap fun id =>
    match g.slot? id with
    | some slot =>
      if 1 ≤ slot.slot ∧ s.isDropped id then some ⟨slot, s.isTainted id⟩ else none
    | none => none

end FunctionGraph

namespace Visit

/-- The blocks of `more` that are not among `bs`, after `bs`. -/
def andAlso (bs more : List BlockId) : List BlockId := bs ++ more.filter fun b => !bs.contains b

/-- Where a switch on a known value goes. -/
def arm (arms : List (Int × BlockId)) (otherwise : Option BlockId) (v : Scalar) : List BlockId :=
  match arms.find? fun a => a.1 == v.toInt with
  | some a => [a.2]
  | none => otherwise.toList

/-- The effect of a terminator that is no call, and where the path goes on; `unwind` are the blocks
to follow on a panic. -/
def plain (t : NodeTable) (b : GraphBlock) (unwind : List BlockId) (p : Progress) : Visit :=
  let loc := b.terminator.loc
  match b.terminator.kind with
  | .goto target => ⟨p, [target], false⟩
  | .switchInt discr arms otherwise =>
    let p := p.useOperand t loc "switch operand" discr
    match p.state.valueOf t discr with
    | some v => ⟨p, arm arms otherwise v, false⟩
    | none => ⟨p, b.succs, false⟩
  | .ret => ⟨p.checkUse t 0 loc "returned from function", [], true⟩
  | .drop place target _ =>
    let (id, deref) := t.lookup place
    let p :=
      if deref then p.checkUse t id loc "drop through dereference"
      else p.releaseOwned t id loc "scope end"
    ⟨p, andAlso [target] unwind, false⟩
  | .assert cond expected target _ =>
    let p := p.useOperand t loc "assert operand" cond
    match p.state.valueOf t cond with
    | some v => ⟨p, if v.toBool = expected then [target] else unwind, false⟩
    | none => ⟨p, andAlso [target] unwind, false⟩
  | .call _ _ _ _ _ | .unreachable | .resume | .abort => ⟨p, [], false⟩

/-- The first alarm about a node whose label is no text. -/
def unnamed? (t : NodeTable) (alarms : List Alarm) : Option NodeId :=
  (alarms.flatMap fun a => [a.node, a.origin]).find? fun n => (t.node n).labelText?.isNone

variable {σ : Type}

/-- The terminator of a block. -/
def terminator (g : FunctionGraph) (cfg : Config) (resolve : Resolver σ) (b : GraphBlock)
    (p : Progress) (s : σ) : Except AnalysisFault Visit × σ :=
  let unwind := if cfg.followUnwind then b.unwinds else []
  match b.terminator.kind with
  | .call callee args destination target _ =>
    match resolve callee s with
    | (.error fault, s) => (.error fault, s)
    | (.ok effect, s) =>
      let site : CallSite := { loc := b.terminator.loc, callee, effect, args }
      if site.isMisplaced g.nodes destination then (.error (.noArgument g.name callee), s)
      else (.ok ⟨site.apply g.nodes destination p, andAlso target.toList unwind, false⟩, s)
  | _ => (.ok (plain g.nodes b unwind p), s)

/-- Stops at an alarm about a node whose label is no text. -/
def named (g : FunctionGraph) (v : Visit) : Except AnalysisFault Visit :=
  match unnamed? g.nodes v.progress.alarms with
  | some node => .error (.unnamedNode g.name node)
  | none => .ok v

/-- Visits a block in a state. -/
def block (g : FunctionGraph) (cfg : Config) (resolve : Resolver σ) (b : GraphBlock)
    (state : PathState) (s : σ) : Except AnalysisFault Visit × σ :=
  let p := b.statements.foldl (Progress.statement g.nodes) { state }
  match unnamed? g.nodes p.alarms with
  | some node => (.error (.unnamedNode g.name node), s)
  | none =>
    match terminator g cfg resolve b p s with
    | (.ok v, s) => (named g v, s)
    | (.error fault, s) => (.error fault, s)

end Visit

namespace Ledger

/-- The finding of an alarm, with the labels of its nodes. -/
def finding (t : NodeTable) (function : String) (a : Alarm) : Finding :=
  { function, loc := a.loc, kind := a.kind, node := a.node,
    nodePath := pathOr (t.node a.node).label.shown a.node, origin := a.origin,
    originPath := pathOr (t.node a.origin).label.shown a.origin, dropLoc := a.dropLoc,
    context := a.context }

/-- Records alarms in order. -/
def recordAll (t : NodeTable) (l : Ledger) (alarms : List Alarm) : Ledger :=
  alarms.foldl (fun l a => l.record (finding t l.function a)) l

end Ledger

end Dangling
