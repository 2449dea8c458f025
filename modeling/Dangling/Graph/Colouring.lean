import Dangling.Graph.Digraph

/-!
# Graph — Colouring

The search for a closed path.  A node is *grey* while it lies on the path to where the search is, and
*black* once all below it has been looked at; an edge to a grey node closes a path.  Nodes keep the
successors that are still to be looked at, so the search goes on where it was when it comes back.

* `Colouring.look`: one look, at the next successor of the last node of the path or back from it.
* `Colouring.run`: looks until the path is empty, or closed.
* `Digraph.isAcyclic`: no path is closed, from whichever node the search starts.
-/

namespace Dangling.Digraph

/-- What a search knows of a node that it has met. -/
inductive Colour where
  /-- The node is on the path to where the search is. -/
  | grey
  /-- All below the node has been looked at. -/
  | black
  deriving DecidableEq, Repr

/-- The nodes met, with their colours. -/
abbrev Colours := Std.TreeMap Int Colour

/-- A search under way. -/
structure Colouring where
  colours : Colours
  /-- The path to where the search is, its last node first. -/
  path : List Stop

namespace Colouring

/-- Goes on to `w`, which has no colour yet. -/
def enter (g : Digraph) (c : Colouring) (w : Int) : Colouring :=
  ⟨c.colours.insert w .grey, (w, g.succs w) :: c.path⟩

/-- One look: at the next successor of the last stop of the path or, where there is none, back from
it.  None if the successor is on the path. -/
def look (g : Digraph) (colours : Colours) : Stop → List Stop → Option Colouring
  | (v, []), rest => some ⟨colours.insert v .black, rest⟩
  | (v, w :: ws), rest =>
    match colours[w]? with
    | some .grey => none
    | some .black => some ⟨colours, (v, ws) :: rest⟩
    | none => some (enter g ⟨colours, (v, ws) :: rest⟩ w)

/-- Every look leaves less ahead. -/
theorem ahead_of_look {g : Digraph} {colours : Colours} {top : Stop} {rest : List Stop} {c : Colouring}
    (h : look g colours top rest = some c) :
    g.ahead c.colours c.path < g.ahead colours (top :: rest) := by
  obtain ⟨v, ws⟩ := top
  cases ws with
  | nil =>
      obtain rfl := Option.some.inj h
      exact ahead_leave (length_unmet_insert_le ..)
  | cons w ws =>
      rw [look] at h
      split at h
      · cases h
      · obtain rfl := Option.some.inj h
        exact ahead_look colours
      case h_3 hw =>
        obtain rfl := Option.some.inj h
        refine ahead_enter Colour.grey ?_
        rw [← Std.TreeMap.isSome_getElem?_eq_contains, hw]
        rfl

/-- Looks until the path is empty; none if it is closed. -/
def run (g : Digraph) : Colouring → Option Colours
  | ⟨colours, []⟩ => some colours
  | ⟨colours, top :: rest⟩ =>
    match _h : look g colours top rest with
    | none => none
    | some next => run g next
termination_by c => g.ahead c.colours c.path
decreasing_by exact ahead_of_look _h

/-- Searches from `v`, unless it has been met. -/
def from? (g : Digraph) (colours : Colours) (v : Int) : Option Colours :=
  if colours.contains v then some colours else run g (enter g ⟨colours, []⟩ v)

end Colouring

/-- No closed path is met. -/
def isAcyclic (g : Digraph) : Bool := (g.keys.foldlM (Colouring.from? g) .empty).isSome

end Dangling.Digraph
