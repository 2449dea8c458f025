import Dangling.Graph.Components
import Dangling.Mir.Program

/-!
# Analysis — CallCycles

Functions that call each other.  The head of a call cycle is the smallest of its names, so it does
not depend on the order of the functions.
-/

namespace Dangling.Program

/-- The graph of calls, its nodes numbered in the order of the names. -/
def callGraph (p : Program) : Digraph :=
  let names := p.functionNames
  .ofEdges (names.zipIdx.map fun (name, i) =>
    let callees := ((p.body? name).map p.callsOf).getD []
    (Int.ofNat i, callees.map fun c => Int.ofNat (names.idxOf c)))

/-- The functions on call cycles, each with the head of its cycle. -/
def cycleHeads (p : Program) : List (String × String) :=
  let names := p.functionNames
  let c := p.callGraph.components []
  let name := fun (i : Int) => names.getD i.toNat ""
  (c.classes.filter fun (father, _) => c.isCyclic father).flatMap fun (_, members) =>
    members.map fun m => (name m, name (members.headD m))

end Dangling.Program
