import Dangling.Graph.Digraph
import Dangling.Order.Sorted

/-!
# Graph — Tarjan

The search for classes of nodes that reach each other.  Nodes are numbered as they are met, and put on a
stack; the *low number* of a node is the least number of a node on the stack that the search has come to
know to be in reach.  A node that the search leaves with a low number equal to its own number is the
first of its class: the class is what is above it on the stack.

* `Tarjan.look`: one look, at the next successor of the last node of the path or back from it.
* `Tarjan.run`: looks until the path is empty.
* `Digraph.tarjan`: from several nodes, one after the other.
-/

namespace Dangling.Digraph

/-- A class of several nodes, or of one with an edge to itself. -/
def isCyclicClass (g : Digraph) (father : Int) (members : List Int) : Bool :=
  decide (1 < members.length) || (g.succs father).contains father

/-- A search under way. -/
structure Tarjan where
  /-- How many nodes have been met. -/
  counter : Nat := 0
  /-- The numbers of the nodes met, in the order of meeting. -/
  index : Std.TreeMap Int Nat := .empty
  /-- Their low numbers. -/
  low : Std.TreeMap Int Nat := .empty
  /-- The nodes whose classes are not closed, the last one first. -/
  stack : List Int := []
  onStack : Std.TreeSet Int := .empty
  /-- The fathers of the nodes whose classes are closed. -/
  fathers : Std.TreeMap Int Int := .empty
  /-- The closed classes with their fathers, the last one first. -/
  closed : List (Int × List Int) := []
  /-- The fathers of closed classes with a cycle, the last one first. -/
  cyclic : List Int := []

namespace Tarjan

/-- The number of a node. -/
def indexOf (s : Tarjan) (v : Int) : Nat := s.index.getD v 0

/-- The low number of a node. -/
def lowOf (s : Tarjan) (v : Int) : Nat := s.low.getD v 0

/-- Meets `v`: it gets the next number, and goes on the stack. -/
def meet (s : Tarjan) (v : Int) : Tarjan :=
  { s with
    counter := s.counter + 1
    index := s.index.insert v s.counter
    low := s.low.insert v s.counter
    stack := v :: s.stack
    onStack := s.onStack.insert v }

/-- Lowers the low number of `v` to `n`, unless it is lower. -/
def lower (s : Tarjan) (v : Int) (n : Nat) : Tarjan :=
  { s with low := s.low.insert v (min (s.lowOf v) n) }

/-- What is taken off a stack when it is taken down to `v`, and what is left of it. -/
def cut (v : Int) : List Int → List Int × List Int
  | [] => ([], [])
  | w :: stack => if w = v then ([w], stack) else (cut v stack).map (w :: ·) id

/-- Closes the class of `v`: what is taken off the stack has `v` as its father. -/
def close (g : Digraph) (s : Tarjan) (v : Int) : Tarjan :=
  let (component, stack) := cut v s.stack
  { s with
    stack
    onStack := component.foldl (fun on w => on.erase w) s.onStack
    fathers := component.foldl (fun fathers w => fathers.insert w v) s.fathers
    closed := (v, Sorted.ofList compare component) :: s.closed
    cyclic := if g.isCyclicClass v component then v :: s.cyclic else s.cyclic }

/-- The last stop of a path, if any, takes over the low number of `v`, to which it leads. -/
def passOn (s : Tarjan) (v : Int) : List Stop → Tarjan
  | [] => s
  | (u, _) :: _ => s.lower u (s.lowOf v)

/-- Goes back from `v`: its class is closed if its low number is its own. -/
def leave (g : Digraph) (s : Tarjan) (v : Int) (rest : List Stop) : Tarjan :=
  let s := s.passOn v rest
  if s.lowOf v = s.indexOf v then s.close g v else s

/-- One look: at the next successor of the last stop of the path or, where there is none, back from
it. -/
def look (g : Digraph) (s : Tarjan) : Stop → List Stop → Tarjan × List Stop
  | (v, []), rest => (s.leave g v rest, rest)
  | (v, w :: ws), rest =>
    if !s.index.contains w then (s.meet w, (w, g.succs w) :: (v, ws) :: rest)
    else if s.onStack.contains w then (s.lower v (s.indexOf w), (v, ws) :: rest)
    else (s, (v, ws) :: rest)

@[simp] theorem index_lower (s : Tarjan) (v : Int) (n : Nat) : (s.lower v n).index = s.index := rfl

@[simp] theorem index_close (g : Digraph) (s : Tarjan) (v : Int) : (s.close g v).index = s.index := rfl

@[simp] theorem index_passOn (s : Tarjan) (v : Int) (rest : List Stop) :
    (s.passOn v rest).index = s.index := by
  cases rest <;> rfl

@[simp] theorem index_leave (g : Digraph) (s : Tarjan) (v : Int) (rest : List Stop) :
    (s.leave g v rest).index = s.index := by
  rw [leave]
  split <;> simp

/-- Every look leaves less ahead. -/
theorem ahead_of_look (g : Digraph) (s : Tarjan) (top : Stop) (rest : List Stop) :
    g.ahead (s.look g top rest).1.index (s.look g top rest).2 < g.ahead s.index (top :: rest) := by
  obtain ⟨v, ws⟩ := top
  cases ws with
  | nil =>
      rw [look, index_leave]
      exact ahead_leave (Nat.le_refl _)
  | cons w ws =>
      rw [look]
      split
      case isTrue hw => exact ahead_enter s.counter (by simpa using hw)
      case isFalse =>
        split
        case isTrue => exact ahead_look s.index
        case isFalse => exact ahead_look s.index

/-- Looks until the path is empty. -/
@[semireducible] def run (g : Digraph) : Tarjan → List Stop → Tarjan
  | s, [] => s
  | s, top :: rest => run g (s.look g top rest).1 (s.look g top rest).2
termination_by s path => g.ahead s.index path
decreasing_by exact ahead_of_look g s top rest

/-- Searches from `v`, unless it has been met. -/
def start (g : Digraph) (s : Tarjan) (v : Int) : Tarjan :=
  if s.index.contains v then s else run g (s.meet v) [(v, g.succs v)]

end Tarjan

/-- Searches from each of `roots` in turn. -/
def tarjan (g : Digraph) (roots : List Int) : Tarjan := roots.foldl (Tarjan.start g) {}

end Dangling.Digraph
