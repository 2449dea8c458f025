import Dangling.Graph.Colouring
import Dangling.Graph.Tarjan

/-!
# Graph — Components

The classes of nodes that reach each other.  The *father* of a class is the member that a search
from the roots, and then from the remaining nodes in ascending order, meets first: a loop's header.
Classes are listed in the order in which that search closes them, so a class comes after those it
leads to.
-/

namespace Dangling

/-- The classes of a graph. -/
structure Components where
  /-- Fathers with the ascending members of their classes, in the order in which they are closed. -/
  classes : List (Int × List Int)
  /-- The father of each node. -/
  fathers : Std.TreeMap Int Int
  /-- The fathers of classes with a cycle. -/
  cyclic : List Int
  /-- Fathers with the fathers of the classes that one edge leads to, in the order of discovery. -/
  condensed : List (Int × List Int)

namespace Digraph

/-- The roots, and then the other nodes with an entry. -/
def searchOrder (g : Digraph) (roots : List Int) : List Int :=
  roots ++ g.keys.filter fun v => !roots.contains v

/-- The fathers of the other classes that one edge from `members` leads to, each once. -/
def classSuccs (g : Digraph) (fathers : Std.TreeMap Int Int) (father : Int) (members : List Int) :
    List Int :=
  (members.flatMap g.succs).foldl (fun found w =>
    let f := fathers.getD w w
    if f == father || found.contains f then found else found ++ [f]) []

/-- The classes of a graph, searched from `roots` first. -/
def components (g : Digraph) (roots : List Int) : Components :=
  let s := g.tarjan (g.searchOrder roots)
  let classes := s.closed.reverse
  { classes
    fathers := s.fathers
    cyclic := s.cyclic.reverse
    condensed := classes.map fun (f, members) => (f, g.classSuccs s.fathers f members) }

end Digraph

namespace Components

/-- The father of a node. -/
def father (c : Components) (v : Int) : Int := c.fathers.getD v v

/-- The class of this father has a cycle. -/
def isCyclic (c : Components) (father : Int) : Bool := c.cyclic.contains father

/-- The node lies on a cycle. -/
def inCycle (c : Components) (v : Int) : Bool := c.isCyclic (c.father v)

/-- The classes have no cycle among them. -/
def isAcyclic (c : Components) : Bool := (Digraph.ofEdges c.condensed).isAcyclic

end Components

end Dangling
