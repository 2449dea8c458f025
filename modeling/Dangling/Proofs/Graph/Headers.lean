import Dangling.Proofs.Graph.Condensation

/-!
# Proofs — Graph — Headers

The father of a loop is its header: the root, if the loop goes through it, and else a block that an
edge enters from a block before the loop.

Every node that a search meets is one of its roots, or an edge leads to it from a node that was met
before it (`Branches`).  What is reached from a single root is met before all else, in branches from
that root.  A father is met before the rest of its class, so the node that the search comes from is
in another class.

* `Branches`: a stretch of a search meets nodes along edges from its roots.
* `father_root_or_entered`: the search starts at a father, or comes to it from outside its class.
* `father_is_header`: the father of a class that the root reaches.
-/

namespace Dangling.Digraph

variable {g : Digraph}

/-! ### Branches of a search -/

/-- A stretch of a search meets the nodes of `met`, the last one first: each is one of `roots`, or an
edge leads to it from a node met before it. -/
structure Branches (g : Digraph) (roots : List Int) (t u : Trace) (met : List Int) : Prop where
  discovered : u.discovered = met ++ t.discovered
  parent : ∀ {l₁ l₂ : List Int} {x : Int}, met = l₁ ++ x :: l₂ → x ∈ roots ∨ ∃ y ∈ l₂, g.Edge y x

namespace Branches

variable {t u w : Trace} {roots more met met' : List Int}

/-- Nothing is met. -/
theorem refl (g : Digraph) (roots : List Int) (t : Trace) : Branches g roots t t [] :=
  ⟨rfl, fun h => absurd h (by simp)⟩

theorem trans (h : Branches g roots t u met) (h' : Branches g more u w met') :
    Branches g (roots ++ more) t w (met' ++ met) where
  discovered := by rw [h'.discovered, h.discovered, List.append_assoc]
  parent := by
    intro l₁ l₂ x he
    rcases append_eq_split he with ⟨l, -, hmet⟩ | ⟨l, hmet', rfl⟩
    · rcases h.parent hmet with hx | hx
      · exact .inl (List.mem_append_left _ hx)
      · exact .inr hx
    · rcases h'.parent hmet' with hx | ⟨y, hy, hedge⟩
      · exact .inl (List.mem_append_right _ hx)
      · exact .inr ⟨y, List.mem_append_left _ hy, hedge⟩

/-- Below a node the search starts anew from its successors, and edges lead to them. -/
theorem node {v : Int} (h : Branches g (g.succs v) (t.discover v) u met) :
    Branches g [v] t (u.finish v) (met ++ [v]) where
  discovered := by
    rw [List.append_assoc]
    exact h.discovered
  parent := by
    intro l₁ l₂ x he
    rcases append_eq_split he with ⟨l, -, hv⟩ | ⟨l, hmet, rfl⟩
    · refine .inl ?_
      rw [hv]
      exact List.mem_append_right _ List.mem_cons_self
    · refine .inr ?_
      rcases h.parent hmet with hx | ⟨y, hy, hedge⟩
      · exact ⟨v, List.mem_append_right _ List.mem_cons_self, hx⟩
      · exact ⟨y, List.mem_append_left _ hy, hedge⟩

end Branches

theorem foldl_visit_branches {depth : Nat}
    (h : ∀ t v, ∃ met, Branches g [v] t (g.visit depth t v) met) (vs : List Int) :
    ∀ t, ∃ met, Branches g vs t (vs.foldl (g.visit depth) t) met := by
  induction vs with
  | nil => exact fun t => ⟨[], .refl g [] t⟩
  | cons v vs ih =>
      intro t
      obtain ⟨met, hv⟩ := h t v
      obtain ⟨met', hvs⟩ := ih (g.visit depth t v)
      exact ⟨met' ++ met, hv.trans hvs⟩

theorem visit_branches (g : Digraph) (depth : Nat) :
    ∀ t v, ∃ met, Branches g [v] t (g.visit depth t v) met := by
  induction depth with
  | zero => exact fun t v => ⟨[], .refl g [v] t⟩
  | succ depth ih =>
      intro t v
      rw [visit]
      split
      case isTrue => exact ⟨[], .refl g [v] t⟩
      case isFalse =>
        obtain ⟨met, h⟩ := foldl_visit_branches ih (g.succs v) (t.discover v)
        exact ⟨met ++ [v], h.node⟩

/-- What a root reaches is met first, in branches from that root. -/
theorem search_cons_branches (g : Digraph) (r : Int) (more : List Int) :
    Branches g [r] .empty (g.search [r]) (g.search [r]).discovered ∧
      ∃ later, (g.search (r :: more)).discovered = later ++ (g.search [r]).discovered := by
  obtain ⟨met, h⟩ := visit_branches g g.depth .empty r
  obtain ⟨later, h'⟩ := foldl_visit_branches (visit_branches g g.depth) more (g.search [r])
  have hmet : (g.search [r]).discovered = met := h.discovered.trans (List.append_nil met)
  rw [hmet]
  exact ⟨h, later, hmet ▸ h'.discovered⟩

/-! ### Fathers -/

/-- The search starts at the father of a class that the root reaches, or comes to it along an edge
from outside the class. -/
theorem father_root_or_entered {r v : Int} (hv : g.Reaches r v) :
    (g.components [r]).father v = r ∨ ∃ u, g.Reaches r u ∧
      ¬g.Linked ((g.components [r]).father v) u ∧ g.Edge u ((g.components [r]).father v) := by
  generalize hf : (g.components [r]).father v = f
  have hmet : v ∈ g.met [r] :=
    mem_discovered.mpr ⟨r, List.mem_append_left _ List.mem_cons_self, hv⟩
  obtain ⟨before, after, horder, hfirst⟩ := foremost_first hmet
  rw [← father_eq_first, hf] at horder hfirst
  have hreach : g.Reaches r f := hv.trans (hf ▸ (linked_father v).2)
  obtain ⟨hbranches, later, hlater⟩ :=
    search_cons_branches g r (g.keys.filter fun v => !([r] : List Int).contains v)
  -- the father is met in a branch from the root
  have hfmet : f ∈ (g.search [r]).discovered :=
    mem_discovered.mpr ⟨r, List.mem_cons_self, hreach⟩
  obtain ⟨l₁, l₂, hsplit⟩ := List.append_of_mem hfmet
  rcases hbranches.parent hsplit with hroot | ⟨u, hu, hedge⟩
  · exact .inl (List.mem_singleton.mp hroot)
  · -- the node it comes from was met before the father, which is the first of its class
    have hmet_eq : g.met [r] = later ++ (g.search [r]).discovered := hlater
    have hpair : [u, f].Sublist (g.met [r]).reverse := by
      rw [hmet_eq, hsplit, List.reverse_append, List.reverse_append, List.reverse_cons]
      refine .trans ?_ (List.sublist_append_left _ _)
      refine .trans ?_ (List.sublist_append_left _ _)
      exact (List.singleton_sublist.mpr (List.mem_reverse.mpr hu)).append (.refl [f])
    have hnodup : (g.met [r]).reverse.Nodup :=
      (List.reverse_perm _).nodup_iff.mpr nodup_discovered
    rw [horder] at hpair hnodup
    have hureach : g.Reaches r u := by
      have hmem : u ∈ (g.search [r]).discovered :=
        hsplit ▸ List.mem_append_right _ (List.mem_cons_of_mem _ hu)
      obtain ⟨r', hr', hur⟩ := mem_discovered.mp hmem
      exact List.mem_singleton.mp hr' ▸ hur
    exact .inr ⟨u, hureach, hfirst u (mem_of_pair_sublist hnodup hpair), hedge⟩

/-- An edge enters the class of `v` from a node that `r` reaches. -/
structure Enters (g : Digraph) (r v u w : Int) : Prop where
  reached : g.Reaches r u
  outside : ¬g.Linked v u
  edge : g.Edge u w
  inside : g.Linked v w

/-- **The father of a loop is its header.**  A class that the root reaches has one father.  It is the
root, if that is in the class.  Otherwise some edge from a node that the root reaches, and that is not
in the class, leads to it; so if all these edges lead to one node, the father is that node. -/
theorem father_is_header (g : Digraph) {r v : Int} (hv : g.Reaches r v) :
    ∃ f, g.Linked v f ∧ (∀ w, g.Linked v w → (g.components [r]).fathers[w]? = some f) ∧
      (g.Linked v r → f = r) ∧
      (¬g.Linked v r → ∃ u, g.Enters r v u f) ∧
      ∀ h, ¬g.Linked v r → (∀ u w, g.Enters r v u w → w = h) → f = h := by
  have hlink : g.Linked v ((g.components [r]).father v) := (linked_father v).symm
  have hfathers : ∀ w, g.Linked v w →
      (g.components [r]).fathers[w]? = some ((g.components [r]).father v) := by
    intro w hw
    refine fathers_eq_some_iff.mpr ⟨mem_discovered.mpr ⟨r, ?_, hv.trans hw.1⟩, ?_⟩
    · exact List.mem_append_left _ List.mem_cons_self
    · exact father_eq_iff.mpr hw.symm
  have hentered : ¬g.Linked v r → ∃ u, g.Enters r v u ((g.components [r]).father v) := by
    intro hr
    rcases father_root_or_entered hv with hroot | ⟨u, hreach, hout, hedge⟩
    · exact absurd (hroot ▸ hlink) hr
    · exact ⟨u, hreach, fun hu => hout (hlink.symm.trans hu), hedge, hlink⟩
  refine ⟨(g.components [r]).father v, hlink, hfathers, fun hr => ?_, hentered, fun h hr hall => ?_⟩
  · rcases father_root_or_entered hv with hroot | ⟨u, hreach, hout, hedge⟩
    · exact hroot
    · -- an edge from outside leads nowhere back, but the root leads to its source
      exact absurd ⟨hlink.2.trans (hr.1.trans hreach), .single hedge⟩ hout
  · obtain ⟨u, hu⟩ := hentered hr
    exact hall u _ hu

/-- A loop `3 → 1 → 2 → 3` that block `0` enters at `3`, and block `9`, which nothing reaches, at
`1`. -/
def sideDoor : Digraph := ofEdges [(0, [3]), (1, [2]), (2, [3, 4]), (3, [1]), (9, [1])]

theorem sideDoor_linked : ∀ u ∈ [2, 1, 3], sideDoor.Linked 2 u := by
  have h₁₂ : 2 ∈ sideDoor.succs 1 := by decide +kernel
  have h₂₃ : 3 ∈ sideDoor.succs 2 := by decide +kernel
  have h₃₁ : 1 ∈ sideDoor.succs 3 := by decide +kernel
  have h₂₁ : sideDoor.Linked 2 1 := ⟨.tail (.single h₂₃) h₃₁, .single h₁₂⟩
  have h₃ : sideDoor.Linked 2 3 := ⟨.single h₂₃, .tail (.single h₃₁) h₁₂⟩
  simp [Linked.refl, h₂₁, h₃]

theorem sideDoor_reaches {r x : Int} {met : List Int}
    (hmet : (sideDoor.search [r]).discovered = met) : sideDoor.Reaches r x ↔ x ∈ met := by
  rw [← hmet, mem_discovered]
  simp

/-- The header of the loop is the block at which the root enters it. -/
theorem sideDoor_father :
    sideDoor.Reaches 0 2 ∧ ¬sideDoor.Linked 2 0 ∧
      (sideDoor.components [0]).fathers[(2 : Int)]? = some 3 := by
  have hfromRoot : ∀ {x}, sideDoor.Reaches 0 x ↔ x ∈ [4, 2, 1, 3, 0] :=
    sideDoor_reaches (by decide +kernel)
  have hfromLoop : ∀ {x}, sideDoor.Reaches 2 x ↔ x ∈ [4, 1, 3, 2] :=
    sideDoor_reaches (by decide +kernel)
  have hroot : ¬sideDoor.Linked 2 0 := fun h => absurd (hfromLoop.mp h.1) (by decide)
  have hreach : sideDoor.Reaches 0 2 := hfromRoot.mpr (by decide)
  obtain ⟨f, -, hfathers, -, -, hheader⟩ := father_is_header sideDoor hreach
  have hone : ∀ u w, sideDoor.Enters 0 2 u w → w = 3 := by
    rintro u w ⟨hu, hout, hedge, -⟩
    have hcases : u = 4 ∨ u ∈ [2, 1, 3] ∨ u = 0 := by simpa [or_assoc] using hfromRoot.mp hu
    rcases hcases with rfl | hloop | rfl
    · have hsuccs : sideDoor.succs 4 = [] := by decide +kernel
      rw [Edge, hsuccs] at hedge
      exact absurd hedge List.not_mem_nil
    · exact absurd (sideDoor_linked u hloop) hout
    · have hsuccs : sideDoor.succs 0 = [3] := by decide +kernel
      rw [Edge, hsuccs] at hedge
      exact List.mem_singleton.mp hedge
  exact ⟨hreach, hroot, by rw [hfathers 2 (.refl 2), hheader 3 hroot hone]⟩

end Dangling.Digraph
