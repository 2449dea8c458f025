import Dangling.Proofs.Graph.Colouring
import Dangling.Proofs.Graph.Components
import Dangling.Proofs.Graph.SearchOrder

/-!
# Proofs — Graph — Condensation

The components of a graph are the classes of mutual reachability and nothing else, and they come in
an order in which every edge between two classes leads back.

A father is met before the rest of its class, so it is left after all that it reaches
(`first_left_last`), the fathers of other classes among it.  Classes are closed in the order in which
their fathers are left; hence the condensed graph has no cycle.

* `components_describe`: fathers, members and cycles.
* `condensation_leads_back`: the condensed graph and the order of its classes.
-/

namespace Dangling

/-- The fathers, in the order in which their classes are closed. -/
def Components.closed (c : Components) : List Int := c.classes.map (·.1)

/-- The classes are those of mutual reachability among the nodes that occur. -/
structure Components.Describes (c : Components) (g : Digraph) (roots : List Int) : Prop where
  /-- Keys, roots and successors have fathers, and no other nodes. -/
  covers : ∀ v, v ∈ c.fathers ↔ v ∈ g.keys ∨ v ∈ roots ∨ ∃ u, v ∈ g.succs u
  same : ∀ u v f f' : Int, c.fathers[u]? = some f → c.fathers[v]? = some f' → (f = f' ↔ g.Linked u v)
  /-- A father is in its own class. -/
  own : ∀ v f : Int, c.fathers[v]? = some f → c.fathers[f]? = some f
  once : c.closed.Nodup
  listed : ∀ f, f ∈ c.closed ↔ c.fathers[f]? = some f
  ascending : ∀ f members, (f, members) ∈ c.classes → members.Pairwise (· < ·)
  members : ∀ f members, (f, members) ∈ c.classes →
    ∀ v, v ∈ members ↔ c.fathers[v]? = some f
  /-- The classes with a cycle are those of which a member reaches itself. -/
  cyclic : ∀ f, f ∈ c.cyclic ↔ c.fathers[f]? = some f ∧
    ∃ v, c.fathers[v]? = some f ∧ Relation.TransGen g.Edge v v

/-- The condensed graph has the edges between different classes, and they lead to classes that are
closed earlier. -/
structure Components.LeadsBack (c : Components) (g : Digraph) : Prop where
  once : c.closed.Nodup
  keys : c.condensed.map (·.1) = c.closed
  succs_once : ∀ f succs, (f, succs) ∈ c.condensed → succs.Nodup
  succs : ∀ f succs, (f, succs) ∈ c.condensed → ∀ f', f' ∈ succs ↔
    f' ≠ f ∧ ∃ u v, c.fathers[u]? = some f ∧ g.Edge u v ∧ c.fathers[v]? = some f'
  /-- Where an edge leads to another class, that class is closed before. -/
  earlier : ∀ u v f f', g.Edge u v → c.fathers[u]? = some f → c.fathers[v]? = some f' → f ≠ f' →
    [f', f].Sublist c.closed
  no_cycle : ∀ f, ¬Relation.TransGen (Digraph.ofEdges c.condensed).Edge f f
  acyclic : c.isAcyclic = true

namespace Digraph

open Relation (TransGen)

variable {g : Digraph} {roots : List Int}

/-! ### Classes -/

/-- The order of closing, by the finishing order of the search. -/
theorem closed_eq : (g.components roots).closed =
    (g.search (g.searchOrder roots)).finished.reverse.filter
      fun v => (g.components roots).father v == v := by
  rw [Components.closed, (g.components_agrees_byReach roots).classes]
  simp only [componentsByReach, List.map_map, Function.comp_def, List.map_id', father_eq_first]

theorem nodup_closed : (g.components roots).closed.Nodup := by
  rw [closed_eq]
  exact ((List.reverse_perm _).nodup_iff.mpr nodup_finished).filter _

/-- Closed are the fathers. -/
theorem mem_closed {f : Int} :
    f ∈ (g.components roots).closed ↔ (g.components roots).fathers[f]? = some f := by
  rw [closed_eq, List.mem_filter, List.mem_reverse, mem_finished, beq_iff_eq, fathers_eq_some_iff,
    met, mem_discovered]

/-- The members of a class are sorted. -/
theorem pairwise_members {f : Int} {members : List Int}
    (h : (f, members) ∈ (g.components roots).classes) : members.Pairwise (· < ·) := by
  rw [(mem_classes.mp h).2.2]
  exact (Sorted.pairwise_ofList _).imp Int.compare_eq_lt.mp

/-- The members of a class are the vertices with its father. -/
theorem mem_members_iff {f v : Int} {members : List Int}
    (h : (f, members) ∈ (g.components roots).classes) :
    v ∈ members ↔ (g.components roots).fathers[v]? = some f := by
  rw [mem_members h, fathers_eq_some_iff]

/-! ### Cycles -/

/-- A class of two nodes or more has a cycle through each of them. -/
theorem Linked.transGen {v w : Int} (h : g.Linked v w) (hne : v ≠ w) : TransGen g.Edge v v := by
  rcases h.1.cases_head with e | ⟨x, he, hr⟩
  · exact absurd e hne
  · exact .head' he (hr.trans h.2)

theorem exists_ne_of_one_lt {xs : List Int} (hx : xs.Nodup) (h : 1 < xs.length) (v : Int) :
    ∃ w ∈ xs, v ≠ w := by
  match xs, hx, h with
  | a :: b :: _, hx, _ =>
      by_cases e : v = a
      · refine ⟨b, by simp, fun e' => ?_⟩
        simp [← e, ← e'] at hx
      · exact ⟨a, by simp, e⟩

/-- A class is cyclic if a way leads from a member back to it. -/
theorem mem_cyclic {f : Int} : f ∈ (g.components roots).cyclic ↔
    (g.components roots).fathers[f]? = some f ∧
      ∃ v, (g.components roots).fathers[v]? = some f ∧ TransGen g.Edge v v := by
  constructor
  · intro h
    rw [cyclic_eq] at h
    obtain ⟨⟨f', members⟩, hc, rfl⟩ := List.mem_map.mp h
    obtain ⟨hc, hcyclic⟩ := List.mem_filter.mp hc
    have hf : (g.components roots).fathers[f']? = some f' :=
      mem_closed.mp (List.mem_map_of_mem hc)
    refine ⟨hf, f', hf, ?_⟩
    simp only [isCyclicClass, Bool.or_eq_true, decide_eq_true_eq, List.contains_iff_mem] at hcyclic
    rcases hcyclic with hlen | hself
    · obtain ⟨w, hw, hne⟩ := exists_ne_of_one_lt ((pairwise_members hc).imp Int.ne_of_lt) hlen f'
      refine Linked.transGen (w := w) ?_ hne
      exact (fathers_eq_some_iff.mp ((mem_members_iff hc).mp hw)).2 ▸ linked_father w
    · exact .single hself
  · rintro ⟨-, v, hv, hcycle⟩
    have hin : (g.components roots).inCycle v := inCycle_of_transGen hcycle
    rw [Components.inCycle, (fathers_eq_some_iff.mp hv).2] at hin
    simpa [Components.isCyclic] using hin

/-! ### The order of classes -/

/-- What comes first has the smaller position. -/
theorem idxOf_lt_of_pair_sublist {xs : List Int} {x y : Int} (hd : xs.Nodup)
    (h : [x, y].Sublist xs) : xs.idxOf x < xs.idxOf y := by
  obtain ⟨l₁, l₂, rfl⟩ := List.append_of_mem (h.subset (List.mem_cons_of_mem _ List.mem_cons_self))
  have hx : x ∈ l₁ := mem_of_pair_sublist hd h
  have hy : y ∉ l₁ := fun hy => (List.nodup_append.mp hd).2.2 y hy y List.mem_cons_self rfl
  rw [List.idxOf_append, List.idxOf_append, if_pos hx, if_neg hy, List.idxOf_cons_self,
    Nat.zero_add]
  exact List.idxOf_lt_length_of_mem hx

/-- Where an edge leads to another class, that class is closed first. -/
theorem closed_before {u v : Int} (he : g.Edge u v)
    (hne : (g.components roots).father u ≠ (g.components roots).father v) :
    [(g.components roots).father v, (g.components roots).father u].Sublist
      (g.components roots).closed := by
  have hu : u ∈ g.met roots := mem_met_of_mem_keys he.mem_keys
  have hleft : (g.components roots).father u ∈ (g.search (g.searchOrder roots)).finished := by
    rw [mem_finished, ← mem_discovered]
    exact mem_met_father hu
  obtain ⟨l₁, l₂, hf⟩ := List.append_of_mem hleft
  have hreach : g.Reaches ((g.components roots).father u) ((g.components roots).father v) :=
    ((linked_father u).1.tail he).trans (linked_father v).2
  have hmem : (g.components roots).father v ∈ l₂ := by
    -- the father is left after all that it reaches
    rw [father_eq_first u] at hf hreach hne
    exact (List.mem_cons.mp (first_left_last hu hf hreach)).resolve_left (Ne.symm hne)
  have hpair : [(g.components roots).father v, (g.components roots).father u].Sublist
      (g.search (g.searchOrder roots)).finished.reverse := by
    rw [hf, List.reverse_append, List.reverse_cons, List.append_assoc]
    exact (List.singleton_sublist.mpr (List.mem_reverse.mpr hmem)).append (List.sublist_append_left _ _)
  -- the classes are listed by their fathers, in the order in which these are left
  rw [closed_eq]
  have hfilter := hpair.filter fun v => (g.components roots).father v == v
  simpa [father_father] using hfilter

/-! ### The condensed graph -/

theorem foldl_found (fathers : Std.TreeMap Int Int) (f : Int) (ws : List Int) :
    ∀ found : List Int, found.Nodup →
      let found' := ws.foldl (fun found w =>
        let h := fathers.getD w w
        if h == f || found.contains h then found else found ++ [h]) found
      found'.Nodup ∧ ∀ h, h ∈ found' ↔ h ∈ found ∨ h ≠ f ∧ ∃ w ∈ ws, fathers.getD w w = h := by
  induction ws with
  | nil => exact fun found hd => ⟨hd, fun h => by simp⟩
  | cons w ws ih =>
      intro found hd
      dsimp only [List.foldl_cons]
      split
      case isTrue hskip =>
        obtain ⟨hd', hmem⟩ := ih found hd
        refine ⟨hd', fun h => ?_⟩
        rw [hmem]
        simp only [Bool.or_eq_true, beq_iff_eq, List.contains_iff_mem] at hskip
        grind
      case isFalse hadd =>
        simp only [Bool.or_eq_true, beq_iff_eq, List.contains_iff_mem, not_or] at hadd
        obtain ⟨hd', hmem⟩ := ih (found ++ [fathers.getD w w]) (by
          refine List.nodup_append.mpr ⟨hd, List.pairwise_singleton _ _, ?_⟩
          rintro x hx y hy rfl
          exact hadd.2 (List.mem_singleton.mp hy ▸ hx))
        refine ⟨hd', fun h => ?_⟩
        rw [hmem, List.mem_append, List.mem_singleton]
        grind

/-- The condensation lists the classes in the order of closing. -/
theorem closed_condensed :
    (g.components roots).condensed.map (·.1) = (g.components roots).closed := by
  simp only [Components.closed, components, List.map_map, Function.comp_def]

/-- Its edges are the edges between classes, each once. -/
theorem mem_condensed {f : Int} {succs : List Int}
    (h : (f, succs) ∈ (g.components roots).condensed) :
    succs.Nodup ∧ ∀ f', f' ∈ succs ↔ f' ≠ f ∧ ∃ u v, (g.components roots).fathers[u]? = some f ∧
      g.Edge u v ∧ (g.components roots).fathers[v]? = some f' := by
  obtain ⟨⟨f', members⟩, hc, he⟩ := List.mem_map.mp h
  obtain ⟨rfl, rfl⟩ := Prod.mk.inj he
  obtain ⟨hd, hmem⟩ :=
    foldl_found (g.components roots).fathers f' (members.flatMap g.succs) [] .nil
  refine ⟨hd, fun h => (hmem h).trans ?_⟩
  have hmet : ∀ {u w}, g.Edge u w → w ∈ g.met roots := fun he => mem_met.mpr (.inr (.inr ⟨_, he⟩))
  constructor
  · rintro (hnil | ⟨hne, w, hw, rfl⟩)
    · exact absurd hnil List.not_mem_nil
    · obtain ⟨u, hu, he⟩ := List.mem_flatMap.mp hw
      exact ⟨hne, u, w, (mem_members_iff hc).mp hu, he, fathers_eq_some_iff.mpr ⟨hmet he, rfl⟩⟩
  · rintro ⟨hne, u, w, hu, he, hw⟩
    refine .inr ⟨hne, w, List.mem_flatMap.mpr ⟨u, (mem_members_iff hc).mpr hu, he⟩, ?_⟩
    exact (fathers_eq_some_iff.mp hw).2

/-- An edge between two classes leads to one that is closed earlier. -/
theorem closed_before_of_condensed {f f' : Int}
    (h : (ofEdges (g.components roots).condensed).Edge f f') :
    [f', f].Sublist (g.components roots).closed := by
  have hd : ((g.components roots).condensed.map (·.1)).Nodup := closed_condensed ▸ nodup_closed
  by_cases hf : f ∈ (g.components roots).condensed.map (·.1)
  · obtain ⟨⟨f, succs⟩, hc, rfl⟩ := List.mem_map.mp hf
    rw [Edge, succs_ofEdges hd hc] at h
    obtain ⟨hne, u, v, hu, he, hv⟩ := ((mem_condensed hc).2 f').mp h
    obtain ⟨-, rfl⟩ := fathers_eq_some_iff.mp hu
    obtain ⟨-, rfl⟩ := fathers_eq_some_iff.mp hv
    exact closed_before he hne.symm
  · rw [Edge, succs_ofEdges_of_not_mem hf] at h
    exact absurd h List.not_mem_nil

/-- The condensed graph has no cycle: along a path classes are closed ever earlier. -/
theorem not_transGen_condensed (f : Int) :
    ¬TransGen (ofEdges (g.components roots).condensed).Edge f f := by
  have hlt : ∀ {f f'}, (ofEdges (g.components roots).condensed).Edge f f' →
      (g.components roots).closed.idxOf f' < (g.components roots).closed.idxOf f :=
    fun he => idxOf_lt_of_pair_sublist nodup_closed (closed_before_of_condensed he)
  intro h
  have hlast : ∀ {f'}, TransGen (ofEdges (g.components roots).condensed).Edge f f' →
      (g.components roots).closed.idxOf f' < (g.components roots).closed.idxOf f := fun h => by
    induction h with
    | single he => exact hlt he
    | tail _ he ih => exact Nat.lt_trans (hlt he) ih
  exact Nat.lt_irrefl _ (hlast h)

/-! ### Main results -/

/-- **Components.**  Fathers, members and cycles are those of the classes of mutual reachability. -/
theorem components_describe (g : Digraph) (roots : List Int) :
    (g.components roots).Describes g roots where
  covers v := by
    have hmet : v ∈ g.met roots ↔ _ := mem_met
    rw [← hmet, Std.TreeMap.mem_iff_isSome_getElem?, Option.isSome_iff_exists]
    exact ⟨fun ⟨_, hf⟩ => (fathers_eq_some_iff.mp hf).1,
      fun hv => ⟨_, fathers_eq_some_iff.mpr ⟨hv, rfl⟩⟩⟩
  same u v f f' hu hv := by
    obtain ⟨-, rfl⟩ := fathers_eq_some_iff.mp hu
    obtain ⟨-, rfl⟩ := fathers_eq_some_iff.mp hv
    exact father_eq_iff
  own v f hv := by
    obtain ⟨hmet, rfl⟩ := fathers_eq_some_iff.mp hv
    exact fathers_eq_some_iff.mpr ⟨mem_met_father hmet, father_father v⟩
  once := nodup_closed
  listed _ := mem_closed
  ascending _ _ := pairwise_members
  members _ _ hc _ := mem_members_iff hc
  cyclic _ := mem_cyclic

/-- **Condensation.**  The condensed graph has the edges between classes, each once; they lead to
classes that are closed earlier, so it has no cycle. -/
theorem condensation_leads_back (g : Digraph) (roots : List Int) :
    (g.components roots).LeadsBack g where
  once := nodup_closed
  keys := closed_condensed
  succs_once _ _ hc := (mem_condensed hc).1
  succs _ _ hc := (mem_condensed hc).2
  earlier u v f f' he hu hv hne := by
    obtain ⟨-, rfl⟩ := fathers_eq_some_iff.mp hu
    obtain ⟨-, rfl⟩ := fathers_eq_some_iff.mp hv
    exact closed_before he hne
  no_cycle := not_transGen_condensed
  acyclic := isAcyclic_iff.mpr not_transGen_condensed

end Digraph

end Dangling
