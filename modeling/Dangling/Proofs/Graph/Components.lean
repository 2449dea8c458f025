import Dangling.Proofs.Graph.Tarjan

/-!
# Proofs — Graph — Components

The classes of a graph are the classes of mutual reachability, whatever the roots of the search: the
father of a node is the first member of its class that the search meets (`father_eq_first`).

* `father_eq_iff`: two nodes have the same father exactly if they reach each other.
* `linked_father`: a node and its father reach each other.
* `mem_classes`: what the classes list.
* `inCycle_of_transGen`: a node that reaches itself by one edge or more lies on a cycle.
-/

namespace Dangling.Digraph

open Relation (TransGen)

variable {g : Digraph} {roots : List Int}

/-! ### Fathers -/

/-- The father of a node is the first member of its class. -/
theorem father_eq_first (v : Int) : (g.components roots).father v = g.first roots v := by
  rw [Components.father, Std.TreeMap.getD_eq_getD_getElem?,
    (g.components_agrees_byReach roots).fathers, first_eq]
  rfl

/-- A node and its father reach each other. -/
theorem linked_father (v : Int) : g.Linked ((g.components roots).father v) v :=
  father_eq_first v ▸ linked_first v

/-- **Classes.**  Two nodes have the same father exactly if each reaches the other. -/
theorem father_eq_iff {v w : Int} :
    (g.components roots).father v = (g.components roots).father w ↔ g.Linked v w := by
  rw [father_eq_first, father_eq_first, first_eq_iff]

theorem father_father (v : Int) :
    (g.components roots).father ((g.components roots).father v) = (g.components roots).father v :=
  father_eq_iff.mpr (linked_father v)

theorem mem_met_father {v : Int} (h : v ∈ g.met roots) :
    (g.components roots).father v ∈ g.met roots :=
  father_eq_first v ▸ mem_met_first h

/-- The nodes that are met have fathers, and no others. -/
theorem fathers_eq_some_iff {v f : Int} : (g.components roots).fathers[v]? = some f ↔
    v ∈ g.met roots ∧ (g.components roots).father v = f := by
  rw [(g.components_agrees_byReach roots).fathers, father_eq_first]
  exact fathersIn_eq_some_iff

/-! ### Classes -/

/-- The classes are listed by their fathers, with the nodes met that have them as fathers. -/
theorem mem_classes {f : Int} {members : List Int} :
    (f, members) ∈ (g.components roots).classes ↔
      f ∈ g.met roots ∧ (g.components roots).father f = f ∧
        members = Sorted.ofList compare
          ((g.met roots).filter fun v => (g.components roots).father v == f) := by
  have h : ∀ x, x ∈ (g.search (g.searchOrder roots)).finished ↔ x ∈ g.met roots := fun x => by
    rw [mem_finished, met, mem_discovered]
  simp only [(g.components_agrees_byReach roots).classes, componentsByReach, father_eq_first,
    List.mem_map, List.mem_filter, List.mem_reverse, h, Prod.mk.injEq, beq_iff_eq]
  constructor
  · rintro ⟨f', ⟨hm, hf⟩, rfl, rfl⟩
    exact ⟨hm, hf, rfl⟩
  · rintro ⟨hm, hf, rfl⟩
    exact ⟨f, ⟨hm, hf⟩, rfl, rfl⟩

theorem mem_members {f v : Int} {members : List Int}
    (h : (f, members) ∈ (g.components roots).classes) :
    v ∈ members ↔ v ∈ g.met roots ∧ (g.components roots).father v = f := by
  rw [(mem_classes.mp h).2.2, Sorted.mem_ofList, List.mem_filter, beq_iff_eq]

/-- The cyclic classes are those with several members or an edge from the father to itself. -/
theorem cyclic_eq : (g.components roots).cyclic =
    ((g.components roots).classes.filter fun c => g.isCyclicClass c.1 c.2).map (·.1) := by
  rw [(g.components_agrees_byReach roots).cyclic, (g.components_agrees_byReach roots).classes]
  rfl

/-! ### Cycles -/

theorem one_lt_length_of_mem {α : Type} {xs : List α} {x y : α} (hx : x ∈ xs) (hy : y ∈ xs)
    (hne : x ≠ y) : 1 < xs.length := by
  match xs, hx, hy with
  | [z], hx, hy =>
      exact absurd ((List.mem_singleton.mp hx).trans (List.mem_singleton.mp hy).symm) hne
  | _ :: _ :: _, _, _ => simp

/-- A node that one edge or more lead back to lies on a cycle. -/
theorem inCycle_of_transGen {v : Int} (h : TransGen g.Edge v v) :
    (g.components roots).inCycle v := by
  obtain ⟨w, he, hr⟩ := TransGen.head'_iff.mp h
  have hlink : g.Linked v w := ⟨.single he, hr⟩
  have hv : v ∈ g.met roots := mem_met_of_mem_keys he.mem_keys
  have hf : (g.components roots).father ((g.components roots).father v) = _ := father_father v
  have hc := mem_classes.mpr ⟨mem_met_father hv, hf, rfl⟩
  simp only [Components.inCycle, Components.isCyclic, List.contains_iff_mem, cyclic_eq]
  refine List.mem_map.mpr ⟨_, List.mem_filter.mpr ⟨hc, ?_⟩, rfl⟩
  simp only [isCyclicClass, Bool.or_eq_true, decide_eq_true_eq, List.contains_iff_mem]
  by_cases ef : (g.components roots).father v = v
  · by_cases ew : v = w
    · subst ew
      exact .inr (by rw [ef]; exact he)
    · -- two members
      refine .inl (one_lt_length_of_mem ((mem_members hc).mpr ⟨hv, rfl⟩)
        ((mem_members hc).mpr ⟨?_, father_eq_iff.mpr hlink.symm⟩) ew)
      exact mem_met_of_mem_keys (hlink.symm.mem_keys (Ne.symm ew))
  · exact .inl (one_lt_length_of_mem ((mem_members hc).mpr ⟨mem_met_father hv, hf⟩)
      ((mem_members hc).mpr ⟨hv, rfl⟩) ef)

theorem Linked.inCycle {v w : Int} (h : g.Linked v w) (hne : v ≠ w) :
    (g.components roots).inCycle v := by
  rcases h.1.cases_head with e | ⟨x, he, hr⟩
  · exact absurd e hne
  · exact inCycle_of_transGen (.head' he (hr.trans h.2))

end Dangling.Digraph
