import Dangling.Summary.Report
import Dangling.Walk.Visit

/-!
# Walk — Run

All paths of a function, one after the other, the first successor first.  Every path has a state of
its own, and states are never merged.  A path that has entered a block of a loop as often as the
limit allows is cut there; when the visit budget is used up, the walk stops.

* `Walk.run`: the outcome of a function.
-/

namespace Dangling

namespace Walk

/-- How often a path has entered the blocks of the loop it is in. -/
abbrev Entries := List (BlockId × Nat)

namespace Entries

/-- How often a block was entered. -/
def count (e : Entries) (b : BlockId) : Nat := (e.lookup b).getD 0

/-- Enters a block once more. -/
def enter (e : Entries) (b : BlockId) : Entries := (b, count e b + 1) :: e.filter fun x => x.1 != b

end Entries

/-- A path that is to be continued at a block. -/
structure Item where
  block : BlockId
  state : PathState
  entries : Entries := []
  deriving Repr, Inhabited

/-- What was met on all paths walked so far. -/
structure Tally where
  ledger : Ledger
  aliases : List AliasPair := []
  dropped : List DroppedSlot := []
  visits : Nat := 0
  paths : Nat := 0
  cutPaths : Nat := 0
  deriving Repr, Inhabited

namespace Tally

/-- Counts cut paths. -/
def cut (t : Tally) (n : Nat) : Tally := { t with cutPaths := t.cutPaths + n }

/-- Adds what a visit brought. -/
def add (g : FunctionGraph) (t : Tally) (v : Visit) : Tally :=
  let t := { t with
    ledger := t.ledger.recordAll g.nodes v.progress.alarms
    visits := t.visits + 1
    paths := if v.succs.isEmpty then t.paths + 1 else t.paths }
  if v.returns then
    { t with
      aliases := Sorted.union AliasPair.compare t.aliases (g.aliasPairs v.progress.state)
      dropped := Sorted.union DroppedSlot.compare t.dropped (g.droppedSlots v.progress.state) }
  else t

end Tally

/-- What a walk brought. -/
structure Outcome where
  findings : List Finding
  summary : Summary
  complete : Bool
  visits : Nat
  paths : Nat
  cutPaths : Nat
  deriving Repr, Inhabited

/-- The outcome of what was met. -/
def Outcome.ofTally (g : FunctionGraph) (t : Tally) (complete : Bool) : Outcome :=
  { findings := t.ledger.findings
    summary :=
      { function := g.name, argCount := g.argCount, aliases := t.aliases, dropped := t.dropped,
        complete }
    complete, visits := t.visits, paths := t.paths, cutPaths := t.cutPaths }

/-- The item as it enters its block; none if the path is cut there. -/
def enter? (g : FunctionGraph) (cfg : Config) (i : Item) : Option Item :=
  if g.loops.inCycle i.block then
    if cfg.loopUnroll ≤ i.entries.count i.block then none
    else some { i with entries := i.entries.enter i.block }
  else some i

/-- The next item that enters its block, with the items after it, and the number of items that are
cut before it. -/
def next (g : FunctionGraph) (cfg : Config) : List Item → Nat × Option (Item × List Item)
  | [] => (0, none)
  | i :: rest =>
    match enter? g cfg i with
    | some i => (0, some (i, rest))
    | none =>
      let (cut, found) := next g cfg rest
      (cut + 1, found)

/-- The items that continue a path after a visit.  A path that leaves a loop starts counting anew. -/
def continuations (g : FunctionGraph) (i : Item) (v : Visit) : List Item :=
  v.succs.map fun b =>
    { block := b, state := v.progress.state,
      entries := if g.loops.father b = g.loops.father i.block then i.entries else [] }

variable {σ : Type}

/-- Walks the paths of `items`, entering at most `budget` blocks; tells whether that was enough. -/
def explore (g : FunctionGraph) (cfg : Config) (resolve : Resolver σ) :
    (budget : Nat) → List Item → Tally → σ → Except AnalysisFault (Tally × Bool) × σ
  | budget, items, tally, s =>
    match next g cfg items with
    | (cut, none) => (.ok (tally.cut cut, true), s)
    | (cut, some (i, rest)) =>
      match budget with
      | 0 => (.ok (tally.cut cut, false), s)
      | budget + 1 =>
        match Visit.block g cfg resolve ((g.block? i.block).getD default) i.state s with
        | (.error fault, s) => (.error fault, s)
        | (.ok v, s) =>
          explore g cfg resolve budget (continuations g i v ++ rest) ((tally.cut cut).add g v) s

/-- Where the walk starts. -/
def start (g : FunctionGraph) : Item := { block := g.entry, state := g.initialState }

/-- Walks all paths of a function. -/
def run (g : FunctionGraph) (cfg : Config) (resolve : Resolver σ) (s : σ) :
    Except AnalysisFault Outcome × σ :=
  match explore g cfg resolve cfg.visitBudget.toNat [start g] { ledger := { function := g.name } } s
  with
  | (.ok (tally, complete), s) => (.ok (.ofTally g tally complete), s)
  | (.error fault, s) => (.error fault, s)

end Walk

end Dangling
