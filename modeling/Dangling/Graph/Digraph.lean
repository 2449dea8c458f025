import Std.Data.TreeMap
import Std.Data.TreeSet

/-!
# Graph — Digraph

Finite directed graphs on whole numbers, as successor lists, and what searches of them have in common: a
path of stops, each with the successors that are still to be looked at, and a table of the nodes met.

* `Digraph.Stop`: a node on the path of a search.
* `Digraph.ahead`: what a search has still to do; `ahead_look` and `ahead_enter` say that it becomes less.
-/

namespace Dangling

/-- A directed graph.  A node without an entry has no successors. -/
structure Digraph where
  adjacency : Std.TreeMap Int (List Int)

namespace Digraph

/-- The graph of a list of nodes with their successors; of two entries for a node the later counts. -/
def ofEdges (edges : List (Int × List Int)) : Digraph :=
  ⟨edges.foldl (fun m (v, ws) => m.insert v ws) .empty⟩

/-- The nodes that have an entry, ascending. -/
def keys (g : Digraph) : List Int := g.adjacency.keys

/-- The successors of a node. -/
def succs (g : Digraph) (v : Int) : List Int := g.adjacency.getD v []

/-! ### Searches -/

/-- A node on the path of a search, with its successors that are not looked at yet. -/
abbrev Stop := Int × List Int

/-- The successors of the nodes with an entry that a search has not met. -/
def unmet {α : Type} (g : Digraph) (met : Std.TreeMap Int α) : List Int :=
  (g.keys.filter fun v => !met.contains v).flatMap g.succs

/-- What is ahead of a search: looks at successors, of stops and of what is not met, with a step to each,
and the ways back from stops. -/
def ahead {α : Type} (g : Digraph) (met : Std.TreeMap Int α) (path : List Stop) : Nat :=
  2 * ((g.unmet met).length + (path.flatMap (·.2)).length) + path.length

section Ahead

variable {α : Type} {g : Digraph} {met : Std.TreeMap Int α} {v w : Int} {ws : List Int} {rest : List Stop}

theorem length_unmet_insert_le (g : Digraph) (ks : List Int) (met : Std.TreeMap Int α) (v : Int) (a : α) :
    ((ks.filter fun x => !(met.insert v a).contains x).flatMap g.succs).length ≤
      ((ks.filter fun x => !met.contains x).flatMap g.succs).length := by
  induction ks with
  | nil => exact Nat.le_refl _
  | cons k ks ih =>
      rw [List.filter_cons, List.filter_cons]
      split
      case isTrue hk =>
        rw [Std.TreeMap.contains_insert, Bool.not_or, Bool.and_eq_true] at hk
        rw [if_pos hk.2, List.flatMap_cons, List.flatMap_cons, List.length_append, List.length_append]
        omega
      case isFalse =>
        split
        case isTrue =>
          rw [List.flatMap_cons, List.length_append]
          omega
        case isFalse => exact ih

/-- The successors of a node that is met are to be looked at no longer among those of what is not met. -/
theorem length_unmet_insert (g : Digraph) (a : α) (hw : met.contains w = false) :
    (g.unmet (met.insert w a)).length + (g.succs w).length ≤ (g.unmet met).length := by
  by_cases hk : w ∈ g.keys
  · obtain ⟨l₁, l₂, hsplit⟩ := List.append_of_mem hk
    have h₁ := length_unmet_insert_le g l₁ met w a
    have h₂ := length_unmet_insert_le g l₂ met w a
    rw [unmet, unmet, hsplit, List.filter_append, List.filter_append, List.filter_cons_of_neg (by simp),
      List.filter_cons_of_pos (by simp [hw]), List.flatMap_append, List.flatMap_append,
      List.flatMap_cons, List.length_append, List.length_append, List.length_append]
    omega
  · -- a node without an entry has no successors
    have hnil : g.succs w = [] :=
      Std.TreeMap.getD_eq_fallback fun h => hk (Std.TreeMap.mem_keys.mpr h)
    rw [hnil]
    exact length_unmet_insert_le g g.keys met w a

/-- A look at a successor leaves less ahead. -/
theorem ahead_look (met : Std.TreeMap Int α) :
    g.ahead met ((v, ws) :: rest) < g.ahead met ((v, w :: ws) :: rest) := by
  simp only [ahead, List.flatMap_cons, List.length_append, List.length_cons]
  omega

/-- So does the way back from a stop. -/
theorem ahead_leave {met' : Std.TreeMap Int α} (hle : (g.unmet met').length ≤ (g.unmet met).length) :
    g.ahead met' rest < g.ahead met ((v, []) :: rest) := by
  simp only [ahead, List.flatMap_cons, List.nil_append, List.length_cons]
  omega

/-- So does a step to a successor that has not been met. -/
theorem ahead_enter (a : α) (hw : met.contains w = false) :
    g.ahead (met.insert w a) ((w, g.succs w) :: (v, ws) :: rest) <
      g.ahead met ((v, w :: ws) :: rest) := by
  have hless := length_unmet_insert g a hw
  simp only [ahead, List.flatMap_cons, List.length_append, List.length_cons]
  omega

end Ahead

end Digraph

end Dangling
