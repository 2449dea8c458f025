import Dangling.Proofs.Graph.Fathers

/-!
# Proofs — Graph — Underway

The plain search, look by look.  A search under way has a trace of what it has met and left, and a path of
stops with the successors that it has still to look at; `complete` is the trace that it comes to.  Each
look leaves that trace as it is (`complete_pass`, `complete_enter`, `complete_leave`), so what is met and
left by now is met and left in the end, in the same order.

* `Visits`: how the trace and the path of a search belong together, under any numbering of nodes in the
  order in which they are met.
* `Visits.reach`: the nodes of the path reach all that is met after them.
* `Underway.first_mem`, `Underway.left_of_first`: the first member of a class is met first and left last,
  at any time of the search.
-/

namespace Dangling.Digraph

variable {g : Digraph} {t : Trace} {v w : Int} {ws later : List Int} {path rest : List Stop}

/-! ### What a search comes to -/

/-- The trace that a search comes to, from the stops of its path and then from `later`. -/
def complete (g : Digraph) (t : Trace) (path : List Stop) (later : List Int) : Trace :=
  later.foldl (g.visit g.depth)
    (path.foldl (fun t stop => (stop.2.foldl (g.visit g.depth) t).finish stop.1) t)

/-- A vertex without edges left is finished. -/
theorem complete_leave :
    g.complete t ((v, []) :: rest) later = g.complete (t.finish v) rest later := rfl

/-- An edge to a vertex that was seen is passed. -/
theorem complete_pass (h : w ∈ t.seen) :
    g.complete t ((v, w :: ws) :: rest) later = g.complete t ((v, ws) :: rest) later := by
  simp only [complete, List.foldl_cons, visit_of_mem h]

/-- An edge to a new vertex is followed. -/
theorem complete_enter (h : w ∉ t.seen) : g.complete t ((v, w :: ws) :: rest) later =
    g.complete (t.discover w) ((w, g.succs w) :: (v, ws) :: rest) later := by
  simp only [complete, List.foldl_cons, visit_of_not_mem h]

/-- With an empty path the next root is taken. -/
theorem complete_start (h : w ∉ t.seen) : g.complete t [] (w :: later) =
    g.complete (t.discover w) [(w, g.succs w)] later := by
  simp only [complete, List.foldl_cons, List.foldl_nil, visit_of_not_mem h]

/-- A search only adds to its trace. -/
def Trace.Extends (t u : Trace) : Prop :=
  t.discovered <:+ u.discovered ∧ t.finished <:+ u.finished

theorem Trace.Extends.trans {t u w : Trace} (h : t.Extends u) (h' : u.Extends w) : t.Extends w :=
  ⟨h.1.trans h'.1, h.2.trans h'.2⟩

theorem extends_foldl_visit (g : Digraph) (vs : List Int) (t : Trace) :
    t.Extends (vs.foldl (g.visit g.depth) t) := by
  obtain ⟨met, left, h⟩ := foldl_visit_lap (g.visit_lap g.depth) vs t (g.unseen_length_lt_depth t)
  exact ⟨⟨met, h.discovered.symm⟩, ⟨left, h.finished.symm⟩⟩

/-- What was discovered and finished stays so to the end. -/
theorem extends_complete (g : Digraph) (t : Trace) (path : List Stop) (later : List Int) :
    t.Extends (g.complete t path later) := by
  induction path generalizing t with
  | nil => exact g.extends_foldl_visit later t
  | cons stop rest ih =>
      have hleave : (stop.2.foldl (g.visit g.depth) t).Extends
          ((stop.2.foldl (g.visit g.depth) t).finish stop.1) :=
        ⟨List.suffix_refl _, List.suffix_cons _ _⟩
      exact ((g.extends_foldl_visit stop.2 t).trans hleave).trans (ih _)

/-! ### Paths -/

/-- The search has looked from `v` at `w`. -/
def Looked (g : Digraph) (path : List Stop) (v w : Int) : Prop :=
  g.Edge v w ∧ ∀ ws, (v, ws) ∈ path → w ∉ ws

/-- The trace and the path of a search; `n` numbers the nodes in the order in which they are met. -/
structure Visits (g : Digraph) (n : Int → Nat) (t : Trace) (path : List Stop) : Prop where
  seen : ∀ v, v ∈ t.seen ↔ v ∈ t.discovered
  order : t.discovered.Pairwise fun x y => n y < n x
  left : ∀ v ∈ t.finished, v ∈ t.discovered
  /-- The path has the nodes that are met and not left, -/
  onPath : ∀ v, v ∈ path.map (·.1) ↔ v ∈ t.discovered ∧ v ∉ t.finished
  /-- the last one first. -/
  down : (path.map (·.1)).Pairwise fun x y => n y < n x
  toLook : ∀ stop ∈ path, ∀ w ∈ stop.2, g.Edge stop.1 w
  looked : ∀ v ∈ t.discovered, ∀ w, g.Looked path v w → w ∈ t.discovered
  reach : ∀ v ∈ path.map (·.1), ∀ x ∈ t.discovered, n v ≤ n x → g.Reaches v x

namespace Visits

variable {n : Int → Nat}

/-- Nothing is met. -/
theorem empty (g : Digraph) (n : Int → Nat) : Visits g n .empty [] where
  seen v := by simp [Trace.empty]
  order := .nil
  left := List.forall_mem_nil _
  onPath v := by simp [Trace.empty]
  down := .nil
  toLook := List.forall_mem_nil _
  looked := List.forall_mem_nil _
  reach := List.forall_mem_nil _

/-- Numbers tell the nodes that are met. -/
theorem eq_of_number (h : Visits g n t path) {x y : Int} (hx : x ∈ t.discovered) (hy : y ∈ t.discovered)
    (e : n x = n y) : x = y := by
  have htold : t.discovered.Pairwise fun x y => n x = n y → x = y :=
    h.order.imp fun hlt e => absurd e (Nat.ne_of_gt hlt)
  have htold' : t.discovered.Pairwise fun x y => n y = n x → y = x :=
    h.order.imp fun hlt e => absurd e (Nat.ne_of_lt hlt)
  exact List.Pairwise.forall_of_forall_of_flip (fun _ _ _ => rfl) htold htold' hx hy e

theorem nodup (h : Visits g n t path) : t.discovered.Nodup :=
  h.order.imp fun {x y} hlt (e : x = y) => Nat.lt_irrefl _ (e ▸ hlt)

/-- What comes further down the path was met before. -/
theorem number_lt (h : Visits g n t ((v, ws) :: rest)) {x : Int} (hx : x ∈ rest.map (·.1)) : n x < n v :=
  (List.pairwise_cons.mp h.down).1 x hx

theorem mem_of_onPath (h : Visits g n t path) {x : Int} (hx : x ∈ path.map (·.1)) : x ∈ t.discovered :=
  ((h.onPath x).mp hx).1

end Visits

/-- A look at `w` from the last stop. -/
theorem looked_next {x y : Int} (h : g.Looked ((v, ws) :: rest) x y) :
    g.Looked ((v, w :: ws) :: rest) x y ∨ x = v ∧ y = w := by
  by_cases e : x = v ∧ y = w
  · exact .inr e
  · refine .inl ⟨h.1, fun ws' hmem => ?_⟩
    rcases List.mem_cons.mp hmem with heq | hmem
    · obtain ⟨rfl, rfl⟩ := Prod.mk.inj heq
      have hy := h.2 ws List.mem_cons_self
      exact fun hmem => (List.mem_cons.mp hmem).elim (fun hw => e ⟨rfl, hw⟩) hy
    · exact h.2 ws' (List.mem_cons_of_mem _ hmem)

/-- Nothing has been looked at from a new stop. -/
theorem not_looked_self (w x : Int) (path : List Stop) :
    ¬g.Looked ((w, g.succs w) :: path) w x :=
  fun h => h.2 _ List.mem_cons_self h.1

/-- An edge was looked at below if it was above. -/
theorem Looked.tail {stop : Stop} {x y : Int} (h : g.Looked (stop :: path) x y) : g.Looked path x y :=
  ⟨h.1, fun ws hmem => h.2 ws (List.mem_cons_of_mem _ hmem)⟩

namespace Visits

variable {n : Int → Nat}

/-- The search goes on to `w`, which it has not met: from nowhere, or from the last stop of its path. -/
theorem enter {path' : List Stop} {n' : Int → Nat} (h : Visits g n t path)
    (hnodes : path'.map (·.1) = path.map (·.1)) (htoLook : ∀ stop ∈ path', ∀ y ∈ stop.2, g.Edge stop.1 y)
    (hlooked : ∀ x y, g.Looked path' x y → g.Looked path x y ∨ y = w)
    (hedge : ∀ u ∈ (path'.map (·.1)).head?, g.Edge u w) (hw : w ∉ t.discovered)
    (hn : ∀ x ∈ t.discovered, n' x = n x ∧ n x < n' w) :
    Visits g n' (t.discover w) ((w, g.succs w) :: path') := by
  have hkept : ∀ {xs : List Int}, (∀ x ∈ xs, x ∈ t.discovered) → xs.Pairwise (fun x y => n y < n x) →
      (w :: xs).Pairwise fun x y => n' y < n' x := by
    intro xs hxs hpair
    refine List.pairwise_cons.mpr ⟨fun x hx => (hn x (hxs x hx)).1 ▸ (hn x (hxs x hx)).2, ?_⟩
    refine hpair.imp_of_mem fun {x y} hx hy hlt => ?_
    rwa [(hn x (hxs x hx)).1, (hn y (hxs y hy)).1]
  refine ⟨fun x => ?_, hkept (fun x hx => hx) h.order, fun x hx => .tail _ (h.left x hx), fun x => ?_, ?_,
    List.forall_mem_cons.mpr ⟨fun y hy => hy, htoLook⟩, fun x hx y hxy => ?_, fun u hu x hx hle => ?_⟩
  · rw [Trace.mem_discover, h.seen]
    exact List.mem_cons.symm
  · have hleft : w ∉ t.finished := fun hmem => hw (h.left w hmem)
    have hold := h.onPath x
    rw [List.map_cons, List.mem_cons, hnodes, hold]
    simp only [Trace.discover, List.mem_cons]
    grind
  · rw [List.map_cons, hnodes]
    exact hkept (fun x hx => h.mem_of_onPath hx) h.down
  · rcases List.mem_cons.mp hx with rfl | hx
    · exact absurd hxy (not_looked_self x y path')
    · rcases hlooked x y hxy.tail with hold | rfl
      · exact .tail _ (h.looked x hx y hold)
      · exact List.mem_cons_self
  · rw [List.map_cons, hnodes] at hu
    rcases List.mem_cons.mp hx with rfl | hmet
    · rcases List.mem_cons.mp hu with rfl | hu
      · exact .refl
      · -- the way to the last stop of the path, and one edge more
        rw [hnodes] at hedge
        cases hpath : path.map (·.1) with
        | nil =>
            rw [hpath] at hu
            exact absurd hu List.not_mem_nil
        | cons top nodes =>
            rw [hpath] at hu hedge
            have htop : top ∈ path.map (·.1) := hpath ▸ List.mem_cons_self
            have hle : n u ≤ n top := by
              rcases List.mem_cons.mp hu with rfl | hu
              · exact Nat.le_refl _
              · have hdown := h.down
                rw [hpath] at hdown
                exact Nat.le_of_lt ((List.pairwise_cons.mp hdown).1 u hu)
            exact (h.reach u (hpath ▸ hu) top (h.mem_of_onPath htop) hle).tail (hedge top rfl)
    · rcases List.mem_cons.mp hu with rfl | hu
      · rw [(hn x hmet).1] at hle
        exact absurd (hn x hmet).2 (Nat.not_lt.mpr hle)
      · have hud := h.mem_of_onPath hu
        rw [(hn x hmet).1, (hn u hud).1] at hle
        exact h.reach u hu x hmet hle

theorem toLook_next (h : Visits g n t ((v, w :: ws) :: rest)) :
    ∀ stop ∈ (v, ws) :: rest, ∀ y ∈ stop.2, g.Edge stop.1 y := by
  obtain ⟨htop, hrest⟩ := List.forall_mem_cons.mp h.toLook
  exact List.forall_mem_cons.mpr ⟨fun y hy => htop y (List.mem_cons_of_mem _ hy), hrest⟩

/-- The search passes over a node that it has met. -/
theorem pass (h : Visits g n t ((v, w :: ws) :: rest)) (hw : w ∈ t.discovered) :
    Visits g n t ((v, ws) :: rest) where
  seen := h.seen
  order := h.order
  left := h.left
  onPath := h.onPath
  down := h.down
  toLook := h.toLook_next
  looked x hx y hxy := by
    rcases looked_next (w := w) hxy with hold | ⟨-, rfl⟩
    · exact h.looked x hx y hold
    · exact hw
  reach := h.reach

/-- From a stop with nothing left to look at, all is looked at. -/
theorem looked_of_exhausted {x y : Int} (h : g.Looked rest x y) : g.Looked ((v, []) :: rest) x y := by
  refine ⟨h.1, fun ws hmem => ?_⟩
  rcases List.mem_cons.mp hmem with heq | hmem
  · rw [(Prod.mk.inj heq).2]
    exact List.not_mem_nil
  · exact h.2 ws hmem

/-- The search leaves its last stop. -/
theorem leave (h : Visits g n t ((v, []) :: rest)) : Visits g n (t.finish v) rest := by
  obtain ⟨hlt, hdown⟩ := List.pairwise_cons.mp h.down
  refine ⟨h.seen, h.order, List.forall_mem_cons.mpr ⟨h.mem_of_onPath List.mem_cons_self, h.left⟩,
    fun x => ?_, hdown, (List.forall_mem_cons.mp h.toLook).2,
    fun x hx y hxy => h.looked x hx y (looked_of_exhausted hxy),
    fun u hu => h.reach u (List.mem_cons_of_mem _ hu)⟩
  have hold := h.onPath x
  have hne : x ∈ rest.map (·.1) → x ≠ v := by
    rintro hx rfl
    exact Nat.lt_irrefl _ (hlt x hx)
  rw [List.map_cons, List.mem_cons] at hold
  simp only [Trace.finish, List.mem_cons]
  grind

/-! ### The last stop -/

/-- Of what was met since the last stop, all else is left. -/
theorem left_of_le (h : Visits g n t ((v, ws) :: rest)) {x : Int} (hx : x ∈ t.discovered)
    (hle : n v ≤ n x) : x = v ∨ x ∈ t.finished := by
  by_contra hnot
  obtain ⟨hne, hleft⟩ := not_or.mp hnot
  have honPath := (h.onPath x).mpr ⟨hx, hleft⟩
  rw [List.map_cons, List.mem_cons] at honPath
  exact absurd (h.number_lt (honPath.resolve_left hne)) (Nat.not_lt.mpr hle)

/-- With nothing left to look at, all edges from what was met since have been looked at. -/
theorem looked_of_le (h : Visits g n t ((v, []) :: rest)) {x y : Int} (hle : n v ≤ n x)
    (he : g.Edge x y) : g.Looked ((v, []) :: rest) x y := by
  refine looked_of_exhausted ⟨he, fun ws hmem => ?_⟩
  have hrest : x ∈ rest.map (·.1) := List.mem_map_of_mem hmem
  exact absurd (h.number_lt hrest) (Nat.not_lt.mpr hle)

end Visits

/-! ### First members -/

/-- The search, from `roots` and then from all keys, is under way. -/
structure Underway (g : Digraph) (roots : List Int) (n : Int → Nat) (later : List Int) (t : Trace)
    (path : List Stop) : Prop extends Visits g n t path where
  goal : g.complete t path later = g.search (g.searchOrder roots)

namespace Underway

variable {n : Int → Nat} {roots : List Int}

/-- What was met so far is the beginning of all that will be met. -/
theorem discovered_suffix (h : Underway g roots n later t path) : t.discovered <:+ g.met roots := by
  rw [met, ← h.goal]
  exact (g.extends_complete t path later).1

theorem mem_met (h : Underway g roots n later t path) {x : Int} (hx : x ∈ t.discovered) :
    x ∈ g.met roots :=
  h.discovered_suffix.subset hx

/-- The first member of a class is met before the others. -/
theorem first_mem (h : Underway g roots n later t path) {x : Int} (hx : x ∈ t.discovered) :
    g.first roots x ∈ t.discovered ∧ n (g.first roots x) ≤ n x := by
  by_cases e : g.first roots x = x
  · rw [e]
    exact ⟨hx, Nat.le_refl _⟩
  · obtain ⟨before, after, horder, hfirst⟩ := foremost_first (h.mem_met hx)
    obtain ⟨more, hmore⟩ := h.discovered_suffix
    have hafter : x ∈ after := by
      have hmem : x ∈ (g.met roots).reverse := List.mem_reverse.mpr (h.mem_met hx)
      rw [horder, List.mem_append, List.mem_cons] at hmem
      rcases hmem with hmem | hmem | hmem
      · exact absurd (linked_first x) (hfirst x hmem)
      · exact absurd hmem.symm e
      · exact hmem
    have hpair : [x, g.first roots x].Sublist (more ++ t.discovered) := by
      rw [hmore, ← List.reverse_reverse (g.met roots), horder, List.reverse_append, List.reverse_cons,
        List.append_assoc]
      refine (List.singleton_sublist.mpr (List.mem_reverse.mpr hafter)).append ?_
      exact List.sublist_append_left [g.first roots x] _
    have hnodup : (more ++ t.discovered).Nodup := hmore ▸ nodup_discovered
    -- what comes after a node that is met by now is met by now
    obtain ⟨l₁, l₂, hsplit⟩ := List.append_of_mem hx
    have hmem : g.first roots x ∈ l₂ := by
      rw [hsplit, ← List.append_assoc] at hpair hnodup
      exact mem_of_pair_sublist_right hnodup hpair
    have hlt : n (g.first roots x) < n x := by
      have horder := h.order
      rw [hsplit] at horder
      exact (List.pairwise_cons.mp (List.pairwise_append.mp horder).2.1).1 _ hmem
    rw [hsplit]
    exact ⟨List.mem_append_right _ (.tail _ hmem), Nat.le_of_lt hlt⟩

/-- The first member of a class is left after the others. -/
theorem left_of_first (h : Underway g roots n later t path) {x : Int} (hx : x ∈ g.met roots)
    (hleft : g.first roots x ∈ t.finished) : x ∈ t.finished := by
  obtain ⟨more, hmore⟩ := (g.extends_complete t path later).2
  obtain ⟨l₁, l₂, hsplit⟩ := List.append_of_mem hleft
  rw [h.goal, hsplit, ← List.append_assoc] at hmore
  rw [hsplit]
  exact List.mem_append_right _ (first_left_last hx hmore.symm (linked_first x).1)

end Underway

end Dangling.Digraph
