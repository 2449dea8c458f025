import Dangling.Graph.Components
import Dangling.Graph.Nodes

/-!
# Graph — FunctionGraph

What an analysis walks: the nodes of a function and its blocks with their edges.  A function that
has no code, or whose code names blocks or locals that do not exist, is refused.
-/

namespace Dangling

/-- Why a function cannot be analysed. -/
inductive Unsupported where
  /-- The dump's entry could not be read. -/
  | unread (message : String)
  | noCode (function : String)
  | noBlocks (function : String)
  | fewLocals (function : String) (declared needed : Nat)
  | missingBlock (function : String) (source target : BlockId)
  | undeclaredLocal (function : String) (loc : Location) (place : Place)
  deriving Repr

/-- The wording of a refusal. -/
def Unsupported.message : Unsupported → String
  | .unread message => message
  | .noCode f => s!"{f}: no executable body"
  | .noBlocks f => s!"{f}: body has no blocks"
  | .fewLocals f declared needed => s!"{f}: {declared} locals declared, need at least {needed}"
  | .missingBlock f source target => s!"{f}: bb{source} jumps to missing bb{target}"
  | .undeclaredLocal f loc place => s!"{f}: {loc.text}: undeclared local in {place.text}"

/-- A block with its edges. -/
structure GraphBlock where
  id : BlockId
  statements : List Statement
  terminator : Terminator
  succs : List BlockId
  /-- Blocks reached by panics alone. -/
  unwinds : List BlockId
  preds : List BlockId := []
  isCleanup : Bool := false
  deriving Repr, Inhabited

namespace GraphBlock

/-- A block of a function, without predecessors yet. -/
def ofBlock (b : Block) : GraphBlock :=
  { id := b.id, statements := b.statements, terminator := b.terminator, succs := b.successors,
    unwinds := b.unwinds.filter fun s => !b.successors.contains s, isCleanup := b.isCleanup }

/-- All blocks that control goes to. -/
def allSuccs (b : GraphBlock) : List BlockId := b.unwinds.foldl TerminatorKind.addBlock b.succs

/-- The places that a block's instructions mention, each with its instruction's location. -/
def places (b : GraphBlock) : List (Location × Place) :=
  (b.statements.flatMap fun s => s.places.map fun p => (s.loc, p)) ++
    b.terminator.places.map fun p => (b.terminator.loc, p)

/-- Block numbers in brackets. -/
def listText (bs : List BlockId) : String := "[" ++ ", ".intercalate (bs.map toString) ++ "]"

/-- A block and where control goes from it. -/
def text (b : GraphBlock) : String :=
  s!"bb{b.id} -> " ++ listText b.succs ++
    (if b.unwinds.isEmpty then "" else " unwind " ++ listText b.unwinds)

end GraphBlock

/-- The graph of a function. -/
structure FunctionGraph where
  name : String
  argCount : Nat
  nodes : NodeTable
  /-- The blocks, ascending. -/
  blocks : List GraphBlock
  entry : BlockId
  /-- The loops, over all edges. -/
  loops : Components

namespace FunctionGraph

/-- The block of a number. -/
def block? (g : FunctionGraph) (id : BlockId) : Option GraphBlock :=
  g.blocks.find? fun b => b.id == id

/-- The edges of a list of blocks. -/
def digraph (blocks : List GraphBlock) : Digraph :=
  .ofEdges (blocks.map fun b => (b.id, b.allSuccs))

/-- The first edge to a block that does not exist, or place with an undeclared local, of a block. -/
def check (function : String) (locals : Nat) (blocks : List GraphBlock) (b : GraphBlock) :
    Except Unsupported Unit :=
  match b.allSuccs.find? fun s => !blocks.any fun c => c.id == s with
  | some s => .error (.missingBlock function b.id s)
  | none =>
  match b.places.find? fun (_, p) => decide (locals ≤ p.base) with
  | some (loc, p) => .error (.undeclaredLocal function loc p)
  | none => .ok ()

/-- The blocks with their predecessors. -/
def withPreds (blocks : List GraphBlock) : List GraphBlock :=
  blocks.map fun b =>
    { b with preds := (blocks.filter fun c => c.allSuccs.contains b.id).map (·.id) }

/-- The graph of a function. -/
def ofBody (ds : Declarations) (b : Body) : Except Unsupported FunctionGraph :=
  match b.parseError with
  | some message => .error (.unread message)
  | none =>
    if !b.hasBody then .error (.noCode b.name)
    else
      match b.entry? with
      | none => .error (.noBlocks b.name)
      | some entry =>
        if b.locals.length < b.argCount + 1 then
          .error (.fewLocals b.name b.locals.length (b.argCount + 1))
        else do
          let blocks := b.sortedBlocks.map GraphBlock.ofBlock
          blocks.forM (check b.name b.locals.length blocks)
          .ok { name := b.name, argCount := b.argCount, nodes := .ofLocals ds b.locals,
                blocks := withPreds blocks, entry,
                loops := (digraph blocks).components [entry] }

end FunctionGraph

end Dangling
