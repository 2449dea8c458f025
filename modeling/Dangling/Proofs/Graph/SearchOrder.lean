import Dangling.Proofs.Graph.Search

/-!
# Proofs — Graph — SearchOrder

The order in which a depth-first search meets and leaves nodes.  When a node is left, the edges of
all that is left by then lead to what is left too, or to a node that is still being visited; and such
a node was met earlier and reaches the one that is left (`Lap.closing`).  Like `Sweep`, this holds of
one visit and is kept when visits follow each other, so one induction on the depth gives `visit_lap`.

* `Lap`: what a stretch of a search adds to the lists of a trace.
* `nodup_discovered`, `nodup_finished`: no node is met or left twice.
* `left_of_reaches`: a node is left after all that it reaches, unless it is linked to one that was
  met before it.
-/

namespace Dangling.Digraph

/-- What a stretch of a search adds to the lists of a trace: the nodes that it meets, and the same
nodes as it leaves them, in both lists the last one first. -/
structure Lap (g : Digraph) (t u : Trace) (met left : List Int) : Prop where
  discovered : u.discovered = met ++ t.discovered
  finished : u.finished = left ++ t.finished
  new : ∀ x, x ∈ met ↔ x ∈ u.seen ∧ x ∉ t.seen
  nodup : met.Nodup
  perm : left.Perm met
  /-- When `x` is left, edges lead from what is left to what is left, to what was seen before, and to
  nodes that are still being visited. -/
  closing : ∀ {l₁ l₂ : List Int} {x : Int}, left = l₁ ++ x :: l₂ → ∀ y ∈ x :: l₂, ∀ z ∈ g.succs y,
    z ∈ x :: l₂ ∨ z ∈ t.seen ∨ [x, z].Sublist met ∧ g.Reaches z x

/-- A member of two lists that follow each other stands in the second one or in the first. -/
theorem append_eq_split {xs ys l₁ l₂ : List Int} {x : Int} (h : xs ++ ys = l₁ ++ x :: l₂) :
    (∃ l, l₁ = xs ++ l ∧ ys = l ++ x :: l₂) ∨ ∃ l, xs = l₁ ++ x :: l ∧ l₂ = l ++ ys := by
  rcases List.append_eq_append_iff.mp h with ⟨l, h₁, h₂⟩ | ⟨l, h₁, h₂⟩
  · exact .inl ⟨l, h₁, h₂⟩
  · rcases List.cons_eq_append_iff.mp h₂ with ⟨rfl, h₃⟩ | ⟨l', rfl, h₃⟩
    · exact .inl ⟨[], by simpa using h₁.symm, h₃⟩
    · exact .inr ⟨l', h₁, h₃⟩

namespace Lap

variable {g : Digraph} {t u w : Trace} {met met' left left' : List Int}

theorem mem_left (h : Lap g t u met left) {x : Int} : x ∈ left ↔ x ∈ u.seen ∧ x ∉ t.seen :=
  h.perm.mem_iff.trans (h.new x)

/-- What a stretch leaves leads to what it leaves and to what was seen before it. -/
theorem closed {vs : List Int} (h : Lap g t u met left) (hs : Sweep g vs t u) {y z : Int}
    (hy : y ∈ left) (hz : z ∈ g.succs y) : z ∈ left ∨ z ∈ t.seen := by
  obtain ⟨hyu, hyt⟩ := h.mem_left.mp hy
  by_cases hzt : z ∈ t.seen
  · exact .inr hzt
  · exact .inl (h.mem_left.mpr ⟨hs.closed y hyu hyt z hz, hzt⟩)

/-- Nothing is met. -/
theorem refl (g : Digraph) (t : Trace) : Lap g t t [] [] where
  discovered := rfl
  finished := rfl
  new x := by simp
  nodup := .nil
  perm := .nil
  closing h := absurd h (by simp)

theorem trans {vs ws : List Int} (h : Lap g t u met left) (h' : Lap g u w met' left')
    (hs : Sweep g vs t u) (hs' : Sweep g ws u w) : Lap g t w (met' ++ met) (left' ++ left) where
  discovered := by rw [h'.discovered, h.discovered, List.append_assoc]
  finished := by rw [h'.finished, h.finished, List.append_assoc]
  new x := by
    have hmono := hs.mono x
    have hmono' := hs'.mono x
    rw [List.mem_append, h.new, h'.new]
    grind
  nodup := by
    refine List.nodup_append.mpr ⟨h'.nodup, h.nodup, ?_⟩
    rintro x hx y hy rfl
    exact ((h'.new x).mp hx).2 ((h.new x).mp hy).1
  perm := h'.perm.append h.perm
  closing := by
    intro l₁ l₂ x he y hy z hz
    rcases append_eq_split he with ⟨l, rfl, hleft⟩ | ⟨l, hleft', rfl⟩
    · -- `x` is left in the first stretch
      rcases h.closing hleft y hy z hz with hz | hz | ⟨hsub, hr⟩
      · exact .inl hz
      · exact .inr (.inl hz)
      · exact .inr (.inr ⟨hsub.trans (List.sublist_append_right _ _), hr⟩)
    · -- `x` is left in the second, when all of the first is left
      rw [← List.cons_append, List.mem_append] at hy ⊢
      rcases hy with hy | hy
      · rcases h'.closing hleft' y hy z hz with hz | hz | ⟨hsub, hr⟩
        · exact .inl (.inl hz)
        · by_cases hzt : z ∈ t.seen
          · exact .inr (.inl hzt)
          · exact .inl (.inr (h.mem_left.mpr ⟨hz, hzt⟩))
        · exact .inr (.inr ⟨hsub.trans (List.sublist_append_left _ _), hr⟩)
      · rcases h.closed hs hy hz with hz | hz
        · exact .inl (.inr hz)
        · exact .inr (.inl hz)

/-- A node is met before all that is below it, and left after it. -/
theorem node {v : Int} (hv : v ∉ t.seen) (hs : Sweep g (g.succs v) (t.discover v) u)
    (h : Lap g (t.discover v) u met left) : Lap g t (u.finish v) (met ++ [v]) (v :: left) := by
  have hnew : ∀ x, x ∈ met ++ [v] ↔ x ∈ u.seen ∧ x ∉ t.seen := fun x => by
    have hvu : v ∈ u.seen := hs.mono v (Trace.mem_discover.mpr (.inl rfl))
    rw [List.mem_append, List.mem_singleton, h.new, Trace.mem_discover]
    grind
  have hperm : (v :: left).Perm (met ++ [v]) :=
    (h.perm.cons v).trans (List.perm_append_singleton v met).symm
  refine ⟨?_, congrArg (v :: ·) h.finished, hnew, ?_, hperm, fun {l₁ l₂ x} he y hy z hz => ?_⟩
  · rw [List.append_assoc]
    exact h.discovered
  · refine List.nodup_append.mpr ⟨h.nodup, List.pairwise_singleton _ _, ?_⟩
    rintro x hx y hy rfl
    exact ((h.new x).mp hx).2 (Trace.mem_discover.mpr (.inl (List.mem_singleton.mp hy)))
  · rcases List.cons_eq_append_iff.mp he with ⟨-, hl⟩ | ⟨l, -, hleft⟩
    · -- the node itself is left: all that it leads to is seen
      obtain ⟨rfl, rfl⟩ := List.cons.inj hl
      obtain ⟨hyu, hyt⟩ := (hnew y).mp (hperm.mem_iff.mp hy)
      by_cases hzt : z ∈ t.seen
      · exact .inr (.inl hzt)
      · exact .inl (hperm.mem_iff.mpr ((hnew z).mpr ⟨(Sweep.node hv hs).closed y hyu hyt z hz, hzt⟩))
    · -- a node below it is left, while it is still being visited
      rcases h.closing hleft y hy z hz with hz | hz | ⟨hsub, hr⟩
      · exact .inl hz
      · rcases Trace.mem_discover.mp hz with rfl | hz
        · have hx : x ∈ met := h.perm.mem_iff.mp (hleft ▸ List.mem_append_right _ List.mem_cons_self)
          obtain ⟨hxu, hxt⟩ := (h.new x).mp hx
          obtain ⟨w, hw, hr⟩ := (hs.reached x hxu).resolve_left hxt
          exact .inr (.inr ⟨(List.singleton_sublist.mpr hx).append (.refl [z]), .head hw hr⟩)
        · exact .inr (.inl hz)
      · exact .inr (.inr ⟨hsub.trans (List.sublist_append_left _ _), hr⟩)

end Lap

/-! ### The search -/

theorem foldl_visit_lap {g : Digraph} {depth : Nat}
    (h : ∀ t v, (g.unseen t).length < depth → ∃ met left, Lap g t (g.visit depth t v) met left)
    (vs : List Int) : ∀ t, (g.unseen t).length < depth →
      ∃ met left, Lap g t (vs.foldl (g.visit depth) t) met left := by
  induction vs with
  | nil => exact fun t _ => ⟨[], [], .refl g t⟩
  | cons v vs ih =>
      intro t ht
      have hs := g.visit_sweep depth t v ht
      have ht' := Nat.lt_of_le_of_lt (unseen_length_mono hs.mono) ht
      obtain ⟨met, left, hl⟩ := h t v ht
      obtain ⟨met', left', hl'⟩ := ih _ ht'
      exact ⟨_, _, hl.trans hl' hs (foldl_visit_sweep (g.visit_sweep depth) vs _ ht')⟩

theorem visit_lap (g : Digraph) (depth : Nat) :
    ∀ t v, (g.unseen t).length < depth → ∃ met left, Lap g t (g.visit depth t v) met left := by
  induction depth with
  | zero => exact fun t v h => absurd h (Nat.not_lt_zero _)
  | succ depth ih =>
      intro t v ht
      rw [visit]
      split
      case isTrue => exact ⟨[], [], .refl g t⟩
      case isFalse hv =>
        have hv : v ∉ t.seen := by simpa using hv
        by_cases hk : v ∈ g.keys
        · have ht' := Nat.lt_of_lt_of_le (unseen_discover hk hv) (Nat.le_of_lt_succ ht)
          obtain ⟨met, left, hl⟩ := foldl_visit_lap ih (g.succs v) _ ht'
          exact ⟨_, _, hl.node hv (foldl_visit_sweep (g.visit_sweep depth) _ _ ht')⟩
        · -- nothing is below the node
          have hnil : (g.succs v).foldl (g.visit depth) (t.discover v) = t.discover v := by
            rw [succs_of_not_mem hk]
            rfl
          rw [hnil]
          refine ⟨_, _, Lap.node hv ?_ (.refl g _)⟩
          rw [succs_of_not_mem hk]
          exact .refl g _

/-- A search is one stretch from the empty trace. -/
theorem search_lap (g : Digraph) (roots : List Int) :
    Lap g .empty (g.search roots) (g.search roots).discovered (g.search roots).finished := by
  obtain ⟨met, left, h⟩ :=
    foldl_visit_lap (g.visit_lap g.depth) roots .empty (g.unseen_length_lt_depth _)
  have hd : (g.search roots).discovered = met := h.discovered.trans (List.append_nil _)
  have hf : (g.search roots).finished = left := h.finished.trans (List.append_nil _)
  rw [hd, hf]
  exact h

section Search

variable {g : Digraph} {roots : List Int}

theorem nodup_discovered : (g.search roots).discovered.Nodup := (g.search_lap roots).nodup

theorem nodup_finished : (g.search roots).finished.Nodup :=
  (g.search_lap roots).perm.nodup_iff.mpr nodup_discovered

/-- **Order.**  A node is left after all that it reaches, unless it reaches, and is reached from, a
node that was met before it. -/
theorem left_of_reaches {x y : Int} {l₁ l₂ : List Int}
    (hfirst : ∀ z, [x, z].Sublist (g.search roots).discovered → ¬(g.Reaches x z ∧ g.Reaches z x))
    (hx : (g.search roots).finished = l₁ ++ x :: l₂) (hr : g.Reaches x y) : y ∈ x :: l₂ := by
  induction hr with
  | refl => exact List.mem_cons_self
  | tail hr he ih =>
      rcases (g.search_lap roots).closing hx _ ih _ he with hz | hz | ⟨hz, hback⟩
      · exact hz
      · exact absurd hz (not_mem_empty _)
      · exact absurd ⟨hr.tail he, hback⟩ (hfirst _ hz)

end Search

end Dangling.Digraph
