import Dangling.Graph.Digraph
import Mathlib.Logic.Relation
import Mathlib.Tactic.ByContra

/-!
# Proofs — Graph — Search

The plain depth-first search, by recursion on how far it goes down, and that it meets exactly what its
roots reach.

The search goes at most `depth` edges down.  That is far enough: below a node that has successors
one key fewer is unseen (`unseen_discover`), and where none is unseen there is nothing to follow.
`Sweep` says what a search does to a trace; it holds of one visit and is kept when visits follow
each other (`Sweep.trans`), so one induction on the depth gives `visit_sweep`.

* `visit`, `search`: everything not yet seen below a node, and below several, one after the other.
* `visit_of_not_mem`: a search that goes down far enough goes down as far below the successors of a node.
* `mem_search`: a search from `roots` has seen exactly what the roots reach.
* `mem_discovered`, `mem_finished`: it lists the same nodes as met and as left.
* `mem_succs_transpose`: the edges of the graph turned round.
-/

namespace Dangling.Digraph

open Relation (ReflTransGen)

/-! ### Depth-first search -/

/-- All edges turned round. -/
def transpose (g : Digraph) : Digraph :=
  ⟨g.keys.foldl (fun m v => (g.succs v).foldl (fun m w => m.insert w (v :: m.getD w [])) m) .empty⟩

/-- What a search has met so far. -/
structure Trace where
  seen : Std.TreeSet Int
  /-- The nodes met, the last one first. -/
  discovered : List Int
  /-- The nodes left for good, the last one first. -/
  finished : List Int

namespace Trace

/-- Nothing met. -/
def empty : Trace := ⟨.empty, [], []⟩

/-- Meets a node. -/
def discover (t : Trace) (v : Int) : Trace :=
  { t with seen := t.seen.insert v, discovered := v :: t.discovered }

/-- Leaves a node. -/
def finish (t : Trace) (v : Int) : Trace := { t with finished := v :: t.finished }

end Trace

/-- Meets `v` and all that is below it and not yet seen, at most `depth` edges down. -/
def visit (g : Digraph) : (depth : Nat) → Trace → Int → Trace
  | 0, t, _ => t
  | depth + 1, t, v =>
    if t.seen.contains v then t
    else ((g.succs v).foldl (visit g depth) (t.discover v)).finish v

/-- A path of distinct nodes is no longer: all of them but the last have an entry. -/
def depth (g : Digraph) : Nat := g.keys.length + 1

/-- Searches from each of `roots` in turn. -/
def search (g : Digraph) (roots : List Int) : Trace := roots.foldl (g.visit g.depth) .empty

/-- One edge leads from `v` to `w`. -/
def Edge (g : Digraph) (v w : Int) : Prop := w ∈ g.succs v

/-- Edges lead from `v` to `w`. -/
abbrev Reaches (g : Digraph) : Int → Int → Prop := ReflTransGen g.Edge

/-- Only keys have successors. -/
theorem succs_of_not_mem {g : Digraph} {v : Int} (h : v ∉ g.keys) : g.succs v = [] :=
  Std.TreeMap.getD_eq_fallback fun hv => h (Std.TreeMap.mem_keys.mpr hv)

theorem Edge.mem_keys {g : Digraph} {v w : Int} (h : g.Edge v w) : v ∈ g.keys := by
  by_contra hk
  rw [Edge, succs_of_not_mem hk] at h
  exact nomatch h

namespace Trace

/-- A vertex that is discovered has been seen. -/
theorem mem_discover {t : Trace} {v x : Int} : x ∈ (t.discover v).seen ↔ x = v ∨ x ∈ t.seen := by
  rw [discover, Std.TreeSet.mem_insert, Std.LawfulEqCmp.compare_eq_iff_eq, eq_comm]

@[simp] theorem finish_seen (t : Trace) (v : Int) : (t.finish v).seen = t.seen := rfl

end Trace

/-! ### Keys that are not seen -/

/-- The nodes with successors that a search has not seen. -/
def unseen (g : Digraph) (t : Trace) : List Int := g.keys.filter fun k => k ∉ t.seen

/-- The depth is enough for every vertex that can still be seen. -/
theorem unseen_length_lt_depth (g : Digraph) (t : Trace) : (g.unseen t).length < g.depth :=
  Nat.lt_succ_of_le (List.length_filter_le _ _)

/-- The more is seen, the less is left. -/
theorem unseen_length_mono {g : Digraph} {t u : Trace} (h : ∀ x ∈ t.seen, x ∈ u.seen) :
    (g.unseen u).length ≤ (g.unseen t).length := by
  simp only [unseen, ← List.countP_eq_length_filter]
  refine List.countP_mono_left fun x _ hx => ?_
  rw [decide_eq_true_eq] at hx ⊢
  exact fun hs => hx (h x hs)

/-- To meet a key leaves fewer of them unseen. -/
theorem unseen_discover {g : Digraph} {t : Trace} {v : Int} (hk : v ∈ g.keys) (hv : v ∉ t.seen) :
    (g.unseen (t.discover v)).length < (g.unseen t).length := by
  have h : g.unseen (t.discover v) = (g.unseen t).filter (· ≠ v) := by
    rw [unseen, unseen, List.filter_filter]
    refine List.filter_congr fun x _ => ?_
    rw [← Bool.decide_and, decide_eq_decide, Trace.mem_discover, not_or]
  rw [h, List.length_filter_lt_length_iff_exists]
  exact ⟨v, List.mem_filter.mpr ⟨hk, decide_eq_true hv⟩, by simp⟩

/-! ### Sweeps -/

/-- What the trace `t` becomes when all that is below `roots` is met. -/
structure Sweep (g : Digraph) (roots : List Int) (t u : Trace) : Prop where
  mono : ∀ x ∈ t.seen, x ∈ u.seen
  met : ∀ v ∈ roots, v ∈ u.seen
  reached : ∀ x ∈ u.seen, x ∈ t.seen ∨ ∃ v ∈ roots, g.Reaches v x
  /-- What is new leads only to what is seen. -/
  closed : ∀ x ∈ u.seen, x ∉ t.seen → ∀ y ∈ g.succs x, y ∈ u.seen
  discovered : ∀ x, x ∈ u.discovered ↔ x ∈ t.discovered ∨ x ∈ u.seen ∧ x ∉ t.seen
  finished : ∀ x, x ∈ u.finished ↔ x ∈ t.finished ∨ x ∈ u.seen ∧ x ∉ t.seen

namespace Sweep

theorem refl (g : Digraph) (t : Trace) : Sweep g [] t t where
  mono _ h := h
  met _ h := nomatch h
  reached _ h := .inl h
  closed _ h h' := absurd h h'
  discovered x := by simp
  finished x := by simp

/-- One search after another. -/
theorem trans {g : Digraph} {vs ws : List Int} {t u w : Trace} (h₁ : Sweep g vs t u)
    (h₂ : Sweep g ws u w) : Sweep g (vs ++ ws) t w where
  mono x hx := h₂.mono x (h₁.mono x hx)
  met v hv := by
    rcases List.mem_append.mp hv with hv | hv
    · exact h₂.mono v (h₁.met v hv)
    · exact h₂.met v hv
  reached x hx := by
    rcases h₂.reached x hx with hx | ⟨v, hv, hr⟩
    · rcases h₁.reached x hx with hx | ⟨v, hv, hr⟩
      · exact .inl hx
      · exact .inr ⟨v, List.mem_append_left _ hv, hr⟩
    · exact .inr ⟨v, List.mem_append_right _ hv, hr⟩
  closed x hx hn y hy := by
    by_cases hu : x ∈ u.seen
    · exact h₂.mono y (h₁.closed x hu hn y hy)
    · exact h₂.closed x hx hu y hy
  discovered x := by
    have h := h₁.mono x
    have h' := h₂.mono x
    rw [h₂.discovered, h₁.discovered]
    grind
  finished x := by
    have h := h₁.mono x
    have h' := h₂.mono x
    rw [h₂.finished, h₁.finished]
    grind

/-- A node that is met and left, with all below its successors in between. -/
theorem node {g : Digraph} {t u : Trace} {v : Int} (hv : v ∉ t.seen)
    (h : Sweep g (g.succs v) (t.discover v) u) : Sweep g [v] t (u.finish v) := by
  have hvu : v ∈ u.seen := h.mono v (Trace.mem_discover.mpr (.inl rfl))
  have hd : ∀ x, x ∈ (t.discover v).discovered ↔ x = v ∨ x ∈ t.discovered := fun x => by
    simp [Trace.discover]
  have hf : ∀ x, x ∈ (u.finish v).finished ↔ x = v ∨ x ∈ u.finished := fun x => by
    simp [Trace.finish]
  refine ⟨fun x hx => h.mono x (Trace.mem_discover.mpr (.inr hx)), ?_, fun x hx => ?_, fun x hx hn y hy => ?_,
    fun x => ?_, fun x => ?_⟩
  · simpa using hvu
  · rcases h.reached x hx with hx | ⟨w, hw, hr⟩
    · rcases Trace.mem_discover.mp hx with rfl | hx
      · exact .inr ⟨x, List.mem_singleton_self x, .refl⟩
      · exact .inl hx
    · exact .inr ⟨v, List.mem_singleton_self v, .head hw hr⟩
  · by_cases e : x = v
    · exact h.met y (e ▸ hy)
    · exact h.closed x hx (fun hx' => (Trace.mem_discover.mp hx').elim e hn) y hy
  · show x ∈ u.discovered ↔ x ∈ t.discovered ∨ x ∈ u.seen ∧ x ∉ t.seen
    rw [h.discovered, hd, Trace.mem_discover]
    grind
  · show _ ↔ _ ∨ x ∈ u.seen ∧ x ∉ t.seen
    rw [hf, h.finished, Trace.mem_discover]
    have : (t.discover v).finished = t.finished := rfl
    grind

end Sweep

/-! ### The search -/

/-- By the list: vertices that are visited in turn are swept together. -/
theorem foldl_visit_sweep {g : Digraph} {depth : Nat}
    (h : ∀ t v, (g.unseen t).length < depth → Sweep g [v] t (g.visit depth t v)) (vs : List Int) :
    ∀ t, (g.unseen t).length < depth → Sweep g vs t (vs.foldl (g.visit depth) t) := by
  induction vs with
  | nil => exact fun t _ => .refl g t
  | cons v vs ih =>
      intro t ht
      have h₁ := h t v ht
      exact h₁.trans (ih _ (Nat.lt_of_le_of_lt (unseen_length_mono h₁.mono) ht))

/-- A visit that may go down further than keys are unseen meets all that is below its node. -/
theorem visit_sweep (g : Digraph) (depth : Nat) :
    ∀ t v, (g.unseen t).length < depth → Sweep g [v] t (g.visit depth t v) := by
  induction depth with
  | zero => exact fun t v h => absurd h (Nat.not_lt_zero _)
  | succ depth ih =>
      intro t v ht
      rw [visit]
      split
      case isTrue hv =>
        have hv : v ∈ t.seen := by simpa using hv
        refine ⟨fun _ hx => hx, by simpa using hv, fun _ hx => .inl hx, fun _ hx hn => absurd hx hn,
          by simp, by simp⟩
      case isFalse hv =>
        have hv : v ∉ t.seen := by simpa using hv
        refine .node hv ?_
        by_cases hk : v ∈ g.keys
        · exact foldl_visit_sweep ih _ _
            (Nat.lt_of_lt_of_le (unseen_discover hk hv) (Nat.le_of_lt_succ ht))
        · rw [succs_of_not_mem hk]
          exact .refl g _

/-- A vertex that was seen is not visited again. -/
theorem visit_of_mem {g : Digraph} {t : Trace} {v : Int} (h : v ∈ t.seen) :
    g.visit g.depth t v = t := by
  rw [depth, visit, if_pos (Std.TreeSet.contains_iff_mem.mpr h)]

/-- Any depth that is enough gives the same visits. -/
theorem foldl_visit_congr {g : Digraph} {depth depth' : Nat}
    (h : ∀ t v, (g.unseen t).length < depth → (g.unseen t).length < depth' →
      g.visit depth t v = g.visit depth' t v) (vs : List Int) :
    ∀ t, (g.unseen t).length < depth → (g.unseen t).length < depth' →
      vs.foldl (g.visit depth) t = vs.foldl (g.visit depth') t := by
  induction vs with
  | nil => exact fun t _ _ => rfl
  | cons v vs ih =>
      intro t ht ht'
      have hmono : (g.unseen (g.visit depth t v)).length ≤ (g.unseen t).length :=
        unseen_length_mono (g.visit_sweep depth t v ht).mono
      rw [List.foldl_cons, List.foldl_cons, ← h t v ht ht']
      exact ih _ (Nat.lt_of_le_of_lt hmono ht) (Nat.lt_of_le_of_lt hmono ht')

/-- How far a visit may go down does not matter, as long as it is further than keys are unseen. -/
theorem visit_congr (g : Digraph) (depth : Nat) :
    ∀ depth' t v, (g.unseen t).length < depth → (g.unseen t).length < depth' →
      g.visit depth t v = g.visit depth' t v := by
  induction depth with
  | zero => exact fun _ t v h => absurd h (Nat.not_lt_zero _)
  | succ depth ih =>
      intro depth' t v ht ht'
      cases depth' with
      | zero => exact absurd ht' (Nat.not_lt_zero _)
      | succ depth' =>
          rw [visit, visit]
          split
          case isTrue => rfl
          case isFalse hv =>
            have hv : v ∉ t.seen := by simpa using hv
            by_cases hk : v ∈ g.keys
            · have hless := unseen_discover hk hv
              rw [foldl_visit_congr (ih depth') _ _ (Nat.lt_of_lt_of_le hless (Nat.le_of_lt_succ ht))
                (Nat.lt_of_lt_of_le hless (Nat.le_of_lt_succ ht'))]
            · rw [succs_of_not_mem hk]
              rfl

/-- A visit of an unseen node is a visit of its successors in between. -/
theorem visit_of_not_mem {g : Digraph} {t : Trace} {v : Int} (h : v ∉ t.seen) :
    g.visit g.depth t v =
      ((g.succs v).foldl (g.visit g.depth) (t.discover v)).finish v := by
  have hlt := g.unseen_length_lt_depth
  rw [g.visit_congr g.depth (g.depth + 1) t v (hlt t) (Nat.lt_succ_of_lt (hlt t)), visit,
    if_neg (mt Std.TreeSet.contains_iff_mem.mp h)]

/-- A search sweeps its roots. -/
theorem search_sweep (g : Digraph) (roots : List Int) :
    Sweep g roots .empty (g.search roots) :=
  foldl_visit_sweep (g.visit_sweep g.depth) roots _ (g.unseen_length_lt_depth _)

theorem not_mem_empty (x : Int) : x ∉ Trace.empty.seen := by simp [Trace.empty]

/-- **Search.**  What a search has seen is what its roots reach. -/
theorem mem_search {g : Digraph} {roots : List Int} {x : Int} :
    x ∈ (g.search roots).seen ↔ ∃ v ∈ roots, g.Reaches v x := by
  have h := g.search_sweep roots
  constructor
  · exact fun hx => (h.reached x hx).resolve_left (not_mem_empty x)
  · rintro ⟨v, hv, hr⟩
    induction hr with
    | refl => exact h.met v hv
    | tail _ he ih => exact h.closed _ ih (not_mem_empty _) _ he

/-- **The search discovers what the roots lead to.** -/
theorem mem_discovered {g : Digraph} {roots : List Int} {x : Int} :
    x ∈ (g.search roots).discovered ↔ ∃ v ∈ roots, g.Reaches v x := by
  rw [(g.search_sweep roots).discovered, mem_search]
  simp [Trace.empty]

/-- It finishes what it discovers. -/
theorem mem_finished {g : Digraph} {roots : List Int} {x : Int} :
    x ∈ (g.search roots).finished ↔ ∃ v ∈ roots, g.Reaches v x := by
  rw [(g.search_sweep roots).finished, mem_search]
  simp [Trace.empty]

/-! ### Graphs from lists of edges, and turned round -/

/-- Edges of other vertices are not looked at. -/
theorem getElem?_foldl_insert_of_not_mem {edges : List (Int × List Int)} {v : Int}
    (h : v ∉ edges.map (·.1)) (m : Std.TreeMap Int (List Int)) :
    (edges.foldl (fun m (v, ws) => m.insert v ws) m)[v]? = m[v]? := by
  induction edges generalizing m with
  | nil => rfl
  | cons e edges ih =>
      rw [List.map_cons, List.mem_cons, not_or] at h
      rw [List.foldl_cons, ih h.2, Std.TreeMap.getElem?_insert, if_neg]
      exact fun he => h.1 (Std.LawfulEqCmp.eq_of_compare he).symm

/-- Where no node has two entries, the successors of a node are those of its entry. -/
theorem succs_ofEdges {edges : List (Int × List Int)} (hd : (edges.map (·.1)).Nodup) {v : Int}
    {ws : List Int} (h : (v, ws) ∈ edges) : (ofEdges edges).succs v = ws := by
  simp only [ofEdges, succs]
  generalize Std.TreeMap.empty = m
  induction edges generalizing m with
  | nil => exact nomatch h
  | cons e edges ih =>
      obtain ⟨hn, hd⟩ := List.nodup_cons.mp hd
      rw [List.foldl_cons]
      rcases List.mem_cons.mp h with rfl | h
      · rw [Std.TreeMap.getD_eq_getD_getElem?, getElem?_foldl_insert_of_not_mem hn,
          Std.TreeMap.getElem?_insert_self, Option.getD_some]
      · exact ih hd h _

theorem succs_ofEdges_of_not_mem {edges : List (Int × List Int)} {v : Int}
    (h : v ∉ edges.map (·.1)) : (ofEdges edges).succs v = [] := by
  rw [ofEdges, succs, Std.TreeMap.getD_eq_getD_getElem?, getElem?_foldl_insert_of_not_mem h]
  rfl

theorem mem_of_mem_keys_ofEdges {edges : List (Int × List Int)} {v : Int}
    (h : v ∈ (ofEdges edges).keys) : v ∈ edges.map (·.1) := by
  by_contra hn
  have hnone : (ofEdges edges).adjacency[v]? = none := getElem?_foldl_insert_of_not_mem hn _
  have hsome := Std.TreeMap.contains_iff_mem.mpr (Std.TreeMap.mem_keys.mp h)
  rw [← Std.TreeMap.isSome_getElem?_eq_contains, hnone] at hsome
  exact Bool.false_ne_true hsome

/-- Every node of the list has an entry. -/
theorem mem_keys_ofEdges {edges : List (Int × List Int)} {v : Int} (h : v ∈ edges.map (·.1)) :
    v ∈ (ofEdges edges).keys := by
  have hmem : ∀ m : Std.TreeMap Int (List Int), v ∈ m ∨ v ∈ edges.map (·.1) →
      v ∈ edges.foldl (fun m e => m.insert e.1 e.2) m := by
    clear h
    induction edges with
    | nil => exact fun m hm => hm.resolve_right List.not_mem_nil
    | cons e edges ih =>
        intro m hm
        refine ih _ ?_
        rw [List.map_cons, List.mem_cons] at hm
        rcases hm with hm | rfl | hm
        · exact .inl (Std.TreeMap.mem_insert.mpr (.inr hm))
        · exact .inl Std.TreeMap.mem_insert_self
        · exact .inr hm
  exact Std.TreeMap.mem_keys.mpr (hmem .empty (.inr h))

/-- The edges of one vertex, turned one by one. -/
theorem mem_getD_foldl_turn {v w x : Int} (ws : List Int) (m : Std.TreeMap Int (List Int)) :
    x ∈ (ws.foldl (fun m w => m.insert w (v :: m.getD w [])) m).getD w [] ↔
      x ∈ m.getD w [] ∨ x = v ∧ w ∈ ws := by
  induction ws generalizing m with
  | nil => simp
  | cons y ws ih =>
      rw [List.foldl_cons, ih]
      by_cases e : y = w
      · subst e
        rw [Std.TreeMap.getD_insert_self, List.mem_cons]
        grind
      · rw [Std.TreeMap.getD_insert, if_neg fun h => e (Std.LawfulEqCmp.eq_of_compare h)]
        simp [Ne.symm e]

/-- **The edges of the transpose are the edges, turned.** -/
theorem mem_succs_transpose {g : Digraph} {v w : Int} :
    v ∈ g.transpose.succs w ↔ w ∈ g.succs v := by
  have h : ∀ (ks : List Int) (m : Std.TreeMap Int (List Int)),
      v ∈ (ks.foldl (fun m v => (g.succs v).foldl (fun m w => m.insert w (v :: m.getD w [])) m)
        m).getD w [] ↔ v ∈ m.getD w [] ∨ v ∈ ks ∧ w ∈ g.succs v := by
    intro ks
    induction ks with
    | nil => simp
    | cons k ks ih =>
        intro m
        rw [List.foldl_cons, ih, mem_getD_foldl_turn, List.mem_cons]
        grind
  rw [transpose, succs, h]
  constructor
  · rintro (hv | ⟨-, hw⟩)
    · exact nomatch hv
    · exact hw
  · exact fun hw => .inr ⟨Edge.mem_keys hw, hw⟩

/-- The graph turned round leads from `w` to `v` where the graph leads from `v` to `w`. -/
theorem reaches_transpose {g : Digraph} {v w : Int} :
    g.transpose.Reaches w v ↔ g.Reaches v w := by
  have h : g.transpose.Edge = Function.swap g.Edge := by
    funext x y
    exact propext mem_succs_transpose
  rw [Reaches, h, Relation.reflTransGen_swap]

end Dangling.Digraph
