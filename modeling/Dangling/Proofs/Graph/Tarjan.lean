import Dangling.Proofs.Graph.Underway
import Dangling.Proofs.Order.Sorted

/-!
# Proofs — Graph — Tarjan

The numbered search gives the components that reachability tells.  It meets and leaves nodes as the plain
search does, so at any time it has a trace, and the first members of the classes are known beforehand.
What it keeps is told by them:

* `Stacked`: on the stack is what is met and whose first member is not left, and closed is the rest;
* `Lows`: a low number is that of a node on the stack that is in reach, and every look at a node on the
  stack is noted by a stop of the path that is no further than where the look came from.

So a node that is left has its own number as its low number exactly if it is the first of its class
(`Tracks.lowOf_eq_iff`), and then its class is what stands above it (`Tracks.number_le_iff`).

* `Tracks.look`: one look keeps all this; `Tracks.run`: so does a whole search.
* `components_agrees_byReach`: the components are those that reachability tells.
-/

namespace Dangling

namespace Digraph

namespace Tarjan

variable {g : Digraph} {roots later ws : List Int} {t : Trace} {s : Tarjan} {v w : Int}
  {path rest : List Stop}

/-! ### Numbers -/

theorem getD_insert (m : Std.TreeMap Int Nat) (v x : Int) (k : Nat) :
    (m.insert v k).getD x 0 = if x = v then k else m.getD x 0 := by
  rw [Std.TreeMap.getD_insert]
  refine if_congr ?_ rfl rfl
  rw [Std.LawfulEqCmp.compare_eq_iff_eq, eq_comm]

theorem indexOf_meet (s : Tarjan) (v x : Int) :
    (s.meet v).indexOf x = if x = v then s.counter else s.indexOf x :=
  getD_insert s.index v x s.counter

theorem lowOf_meet (s : Tarjan) (v x : Int) :
    (s.meet v).lowOf x = if x = v then s.counter else s.lowOf x :=
  getD_insert s.low v x s.counter

theorem lowOf_lower (s : Tarjan) (v x : Int) (k : Nat) :
    (s.lower v k).lowOf x = if x = v then min (s.lowOf v) k else s.lowOf x :=
  getD_insert s.low v x _

/-- Low numbers only become lower. -/
theorem lowOf_lower_le (s : Tarjan) (v x : Int) (k : Nat) : (s.lower v k).lowOf x ≤ s.lowOf x := by
  rw [lowOf_lower]
  split
  case isTrue e => exact e ▸ Nat.min_le_left _ _
  case isFalse => exact Nat.le_refl _

/-- The stack is cut at a vertex that occurs once. -/
theorem cut_append {v : Int} {above below : List Int} (h : v ∉ above) :
    cut v (above ++ v :: below) = (above ++ [v], below) := by
  induction above with
  | nil => rw [List.nil_append, cut, if_pos rfl, List.nil_append]
  | cons x above ih =>
      obtain ⟨hx, habove⟩ := not_or.mp (mt List.mem_cons.mpr h)
      rw [List.cons_append, cut, if_neg (Ne.symm hx), ih habove]
      rfl

theorem mem_foldl_erase (ws : List Int) (on : Std.TreeSet Int) (x : Int) :
    x ∈ ws.foldl (fun on w => on.erase w) on ↔ x ∈ on ∧ x ∉ ws := by
  induction ws generalizing on with
  | nil => simp
  | cons w ws ih =>
      rw [List.foldl_cons, ih, Std.TreeSet.mem_erase, List.mem_cons, ne_eq,
        Std.LawfulEqCmp.compare_eq_iff_eq]
      grind

/-! ### What the search keeps -/

/-- The stack and the closed classes, told by the first members of classes. -/
structure Stacked (g : Digraph) (roots : List Int) (t : Trace) (s : Tarjan) : Prop where
  met : ∀ v, v ∈ s.index ↔ v ∈ t.discovered
  below : ∀ v ∈ t.discovered, s.indexOf v < s.counter
  stack : s.stack = t.discovered.filter fun v => g.first roots v ∉ t.finished
  onStack : ∀ v, v ∈ s.onStack ↔ v ∈ s.stack
  fathers : ∀ v f, s.fathers[v]? = some f ↔ v ∈ t.discovered ∧ f ∈ t.finished ∧ g.first roots v = f
  closed : s.closed = (t.finished.filter fun v => g.first roots v == v).map fun f =>
    (f, Sorted.ofList compare ((g.met roots).filter fun v => g.first roots v == f))
  cyclic : s.cyclic = (s.closed.filter fun c => g.isCyclicClass c.1 c.2).map (·.1)

/-- The low numbers. -/
structure Lows (g : Digraph) (t : Trace) (path : List Stop) (s : Tarjan) : Prop where
  le : ∀ v ∈ s.stack, s.lowOf v ≤ s.indexOf v
  /-- A low number is that of a node in reach, -/
  ofReached : ∀ v ∈ s.stack, ∃ w ∈ s.stack, s.lowOf v = s.indexOf w ∧ g.Reaches v w
  /-- and what has been seen from the nodes since a stop is noted there or above. -/
  noted : ∀ above p below, path.map (·.1) = above ++ p :: below → ∀ x ∈ t.discovered,
    s.indexOf p ≤ s.indexOf x → ∀ w ∈ s.stack, g.Looked path x w →
      ∃ q ∈ above ++ [p], s.lowOf q ≤ s.indexOf w

/-- The numbered search is where the plain search is that has the trace `t`. -/
structure Tracks (g : Digraph) (roots later : List Int) (t : Trace) (path : List Stop) (s : Tarjan) :
    Prop where
  underway : g.Underway roots s.indexOf later t path
  stacked : Stacked g roots t s
  lows : Lows g t path s

/-- On the stack are the vertices met whose class has not been closed. -/
theorem Stacked.mem_stack (h : Stacked g roots t s) :
    v ∈ s.stack ↔ v ∈ t.discovered ∧ g.first roots v ∉ t.finished := by
  rw [h.stack, List.mem_filter, decide_eq_true_eq]

namespace Tracks

/-- Vertices on the way to the one at hand are on the stack. -/
theorem onPath_mem_stack (h : Tracks g roots later t path s) (hv : v ∈ path.map (·.1)) :
    v ∈ s.stack := by
  obtain ⟨hmet, hleft⟩ := (h.underway.onPath v).mp hv
  exact h.stacked.mem_stack.mpr
    ⟨hmet, fun hfirst => hleft (h.underway.left_of_first (h.underway.mem_met hmet) hfirst)⟩

/-! ### The last stop, with nothing left to look at -/

/-- If the low number of the node is its own, its class was met after it. -/
theorem met_of_linked (h : Tracks g roots later t ((v, []) :: rest) s)
    (hlow : s.lowOf v = s.indexOf v) {z : Int} (hz : g.Linked v z) :
    z ∈ t.discovered ∧ s.indexOf v ≤ s.indexOf z := by
  have hv : v ∈ ((v, []) :: rest).map (·.1) := List.mem_cons_self
  have hfirst : g.first roots v ∉ t.finished := (h.stacked.mem_stack.mp (h.onPath_mem_stack hv)).2
  obtain ⟨hto, hback⟩ := hz
  induction hto with
  | refl => exact ⟨h.underway.mem_of_onPath hv, Nat.le_refl _⟩
  | @tail y z hreach he ih =>
      -- an edge from what was met since leads to a node on the stack, which is noted
      obtain ⟨hy, hle⟩ := ih (.head he hback)
      have hlooked := h.underway.looked_of_le hle he
      have hz := h.underway.looked _ hy _ hlooked
      have hsame : g.first roots v = g.first roots z := first_eq_iff.mpr ⟨hreach.tail he, hback⟩
      have hstack := h.stacked.mem_stack.mpr ⟨hz, hsame ▸ hfirst⟩
      obtain ⟨q, hq, hnoted⟩ := h.lows.noted [] v _ rfl _ hy hle _ hstack hlooked
      rw [List.nil_append, List.mem_singleton] at hq
      rw [hq, hlow] at hnoted
      exact ⟨hz, hnoted⟩

/-- **A node is left with its own number as its low number exactly if it is the first of its class.** -/
theorem lowOf_eq_iff (h : Tracks g roots later t ((v, []) :: rest) s) :
    s.lowOf v = s.indexOf v ↔ g.first roots v = v := by
  have hv : v ∈ ((v, []) :: rest).map (·.1) := List.mem_cons_self
  have hmet := h.underway.mem_of_onPath hv
  have hstack := h.onPath_mem_stack hv
  constructor
  · intro hlow
    obtain ⟨hfirst, hle⟩ := h.underway.first_mem hmet
    obtain ⟨-, hge⟩ := h.met_of_linked hlow (linked_first v).symm
    exact h.underway.eq_of_number hfirst hmet (Nat.le_antisymm hle hge)
  · intro hfirst
    obtain ⟨w, hw, hlow, hreach⟩ := h.lows.ofReached v hstack
    have hle := h.lows.le v hstack
    rw [hlow] at hle ⊢
    obtain ⟨hwmet, hwleft⟩ := h.stacked.mem_stack.mp hw
    obtain ⟨hfmet, hfle⟩ := h.underway.first_mem hwmet
    -- the first of the other node's class is on the path, and leads here
    have hback : g.Reaches (g.first roots w) v :=
      h.underway.reach _ ((h.underway.onPath _).mpr ⟨hfmet, hwleft⟩) v hmet (Nat.le_trans hfle hle)
    have hsame : g.first roots w = v :=
      (first_eq_iff.mpr ⟨(linked_first w).2.trans hback, hreach⟩).trans hfirst
    exact Nat.le_antisymm hle (hsame ▸ hfle)

/-- **The class of the first member is what stands above it on the stack.** -/
theorem number_le_iff (h : Tracks g roots later t ((v, ws) :: rest) s) (hfirst : g.first roots v = v)
    {x : Int} (hx : x ∈ s.stack) : s.indexOf v ≤ s.indexOf x ↔ g.first roots x = v := by
  obtain ⟨hmet, hleft⟩ := h.stacked.mem_stack.mp hx
  obtain ⟨hfmet, hfle⟩ := h.underway.first_mem hmet
  have hv : v ∈ ((v, ws) :: rest).map (·.1) := List.mem_cons_self
  constructor
  · intro hle
    by_cases hlt : s.indexOf v ≤ s.indexOf (g.first roots x)
    · exact (h.underway.left_of_le hfmet hlt).resolve_right hleft
    · -- the first of the other class is further down the path, so all three are of one class
      have hdown : g.Reaches (g.first roots x) v :=
        h.underway.reach _ ((h.underway.onPath _).mpr ⟨hfmet, hleft⟩) v (h.underway.mem_of_onPath hv)
          (Nat.le_of_lt (Nat.not_le.mp hlt))
      have hup : g.Reaches v x := h.underway.reach v hv x hmet hle
      exact (first_eq_iff.mpr ⟨(linked_first x).2.trans hdown, hup⟩).trans hfirst
  · rintro rfl
    exact hfle

end Tracks

/-! ### Looks -/

theorem indexOf_meet_self (s : Tarjan) (w : Int) : (s.meet w).indexOf w = s.counter := by
  rw [indexOf_meet, if_pos rfl]

theorem lowOf_meet_self (s : Tarjan) (w : Int) : (s.meet w).lowOf w = s.counter := by
  rw [lowOf_meet, if_pos rfl]

/-- A node is met, and goes on the stack. -/
theorem Stacked.meet (h : Stacked g roots t s) (hw : w ∉ t.discovered)
    (hfirst : g.first roots w ∉ t.finished) : Stacked g roots (t.discover w) (s.meet w) := by
  refine ⟨fun x => ?_, fun x hx => ?_, ?_, fun x => ?_, fun x f => ?_, h.closed, h.cyclic⟩
  · rw [Tarjan.meet, Std.TreeMap.mem_insert, Std.LawfulEqCmp.compare_eq_iff_eq, h.met, eq_comm]
    exact List.mem_cons.symm
  · rw [indexOf_meet]
    split
    case isTrue => exact Nat.lt_succ_self _
    case isFalse e =>
      exact Nat.lt_succ_of_lt (h.below x ((List.mem_cons.mp hx).resolve_left e))
  · change w :: s.stack = (w :: t.discovered).filter fun v => g.first roots v ∉ t.finished
    rw [List.filter_cons_of_pos (by simpa using hfirst), h.stack]
  · rw [Tarjan.meet, Std.TreeSet.mem_insert, Std.LawfulEqCmp.compare_eq_iff_eq, h.onStack,
      List.mem_cons, eq_comm]
  · refine (h.fathers x f).trans ⟨fun ⟨hx, hf⟩ => ⟨.tail _ hx, hf⟩, fun ⟨hx, hf, hxf⟩ => ?_⟩
    rcases List.mem_cons.mp hx with rfl | hx
    · exact absurd (hxf ▸ hf) hfirst
    · exact ⟨hx, hf, hxf⟩

/-- The vertex at hand is above every other on its way. -/
theorem head_mem_of_split {nodes above below : List Int} {p : Int}
    (h : v :: nodes = above ++ p :: below) : v ∈ above ++ [p] := by
  cases above with
  | nil => exact (List.cons.inj h).1 ▸ List.mem_cons_self
  | cons x above => exact (List.cons.inj h).1 ▸ List.mem_cons_self

namespace Tracks

/-- The search goes on to `w`, which it has not met: from nowhere, or from the last stop of its path. -/
theorem enter {path' : List Stop} {later' : List Int} (h : Tracks g roots later t path s)
    (hnodes : path'.map (·.1) = path.map (·.1)) (htoLook : ∀ stop ∈ path', ∀ y ∈ stop.2, g.Edge stop.1 y)
    (hlooked : ∀ x y, g.Looked path' x y → g.Looked path x y ∨ y = w)
    (hedge : ∀ u ∈ (path'.map (·.1)).head?, g.Edge u w) (hw : w ∉ t.discovered)
    (hgoal : g.complete (t.discover w) ((w, g.succs w) :: path') later' =
      g.search (g.searchOrder roots)) :
    Tracks g roots later' (t.discover w) ((w, g.succs w) :: path') (s.meet w) := by
  have hne : ∀ {x}, x ∈ t.discovered → x ≠ w := fun hx e => hw (e ▸ hx)
  have hindex : ∀ {x}, x ∈ t.discovered → (s.meet w).indexOf x = s.indexOf x := fun hx => by
    rw [indexOf_meet, if_neg (hne hx)]
  have hlow : ∀ {x}, x ∈ t.discovered → (s.meet w).lowOf x = s.lowOf x := fun hx => by
    rw [lowOf_meet, if_neg (hne hx)]
  have hmem : ∀ {x}, x ∈ s.stack → x ∈ t.discovered := fun hx => (h.stacked.mem_stack.mp hx).1
  have hunder : g.Underway roots (s.meet w).indexOf later' (t.discover w) ((w, g.succs w) :: path') := by
    refine ⟨h.underway.toVisits.enter hnodes htoLook hlooked hedge hw fun x hx => ⟨hindex hx, ?_⟩, hgoal⟩
    rw [indexOf_meet_self]
    exact h.stacked.below x hx
  have hfirst : g.first roots w ∉ t.finished := fun hleft =>
    hw (h.underway.left w (hunder.left_of_first (hunder.mem_met List.mem_cons_self) hleft))
  refine ⟨hunder, h.stacked.meet hw hfirst, ⟨fun x hx => ?_, fun x hx => ?_, ?_⟩⟩
  · rcases List.mem_cons.mp hx with rfl | hx
    · exact Nat.le_of_eq ((lowOf_meet_self s x).trans (indexOf_meet_self s x).symm)
    · rw [hindex (hmem hx), hlow (hmem hx)]
      exact h.lows.le x hx
  · rcases List.mem_cons.mp hx with rfl | hx
    · exact ⟨x, List.mem_cons_self, (lowOf_meet_self s x).trans (indexOf_meet_self s x).symm, .refl⟩
    · obtain ⟨y, hy, hxy, hreach⟩ := h.lows.ofReached x hx
      exact ⟨y, .tail _ hy, by rw [hindex (hmem hy), hlow (hmem hx), hxy], hreach⟩
  · intro above p below hsplit x hx hle y hy hxy
    -- nothing has been looked at from the new stop, and nothing was met after it
    have hxw : x ≠ w := by
      rintro rfl
      exact not_looked_self x y path' hxy
    have hx : x ∈ t.discovered := (List.mem_cons.mp hx).resolve_left hxw
    rw [hindex hx] at hle
    cases above with
    | nil =>
        obtain ⟨rfl, -⟩ := List.cons.inj hsplit
        rw [indexOf_meet_self] at hle
        exact absurd (h.stacked.below x hx) (Nat.not_lt.mpr hle)
    | cons top above =>
        obtain ⟨rfl, hbelow⟩ := List.cons.inj hsplit
        rcases List.mem_cons.mp hy with rfl | hy
        · exact ⟨y, List.mem_cons_self,
            Nat.le_of_eq ((lowOf_meet_self s y).trans (indexOf_meet_self s y).symm)⟩
        · have hbelow : path.map (·.1) = above ++ p :: below := hnodes.symm.trans hbelow
          have honPath : ∀ q ∈ above ++ [p], q ∈ t.discovered := fun q hq => by
            refine h.underway.mem_of_onPath ?_
            rw [hbelow, List.append_cons]
            exact List.mem_append_left _ hq
          rw [hindex (honPath p (List.mem_append_right _ List.mem_cons_self))] at hle
          have hlook := (hlooked x y hxy.tail).resolve_right (hne (hmem hy))
          obtain ⟨q, hq, hnoted⟩ := h.lows.noted above p below hbelow x hx hle y hy hlook
          exact ⟨q, .tail _ hq, by rwa [hindex (hmem hy), hlow (honPath q hq)]⟩

/-- The search looks at `w`, which it has met and which is closed. -/
theorem pass (h : Tracks g roots later t ((v, w :: ws) :: rest) s) (hw : w ∈ t.discovered)
    (hclosed : w ∉ s.stack) : Tracks g roots later t ((v, ws) :: rest) s := by
  have hseen : w ∈ t.seen := (h.underway.seen w).mpr hw
  refine ⟨⟨h.underway.toVisits.pass hw, (complete_pass hseen).symm.trans h.underway.goal⟩, h.stacked,
    ⟨h.lows.le, h.lows.ofReached, fun above p below hsplit x hx hle y hy hxy => ?_⟩⟩
  rcases looked_next (w := w) hxy with hold | ⟨-, rfl⟩
  · exact h.lows.noted above p below hsplit x hx hle y hy hold
  · exact absurd hy hclosed

/-- The search looks at `w`, which is on the stack, and the last stop notes it. -/
theorem lower (h : Tracks g roots later t ((v, w :: ws) :: rest) s) (hw : w ∈ s.stack) :
    Tracks g roots later t ((v, ws) :: rest) (s.lower v (s.indexOf w)) := by
  have hmet : w ∈ t.discovered := (h.stacked.mem_stack.mp hw).1
  have hseen : w ∈ t.seen := (h.underway.seen w).mpr hmet
  have hedge : g.Edge v w := (List.forall_mem_cons.mp h.underway.toLook).1 w List.mem_cons_self
  have hle := fun x => lowOf_lower_le s v x (s.indexOf w)
  refine ⟨⟨h.underway.toVisits.pass hmet, (complete_pass hseen).symm.trans h.underway.goal⟩,
    ⟨h.stacked.met, h.stacked.below, h.stacked.stack, h.stacked.onStack, h.stacked.fathers,
      h.stacked.closed, h.stacked.cyclic⟩,
    ⟨fun x hx => Nat.le_trans (hle x) (h.lows.le x hx), fun x hx => ?_,
      fun above p below hsplit x hx hle' y hy hxy => ?_⟩⟩
  · rw [lowOf_lower]
    split
    case isTrue e =>
      subst e
      rcases Nat.le_total (s.lowOf x) (s.indexOf w) with hmin | hmin
      · rw [Nat.min_eq_left hmin]
        exact h.lows.ofReached x hx
      · rw [Nat.min_eq_right hmin]
        exact ⟨w, hw, rfl, .single hedge⟩
    case isFalse => exact h.lows.ofReached x hx
  · rcases looked_next (w := w) hxy with hold | ⟨-, rfl⟩
    · obtain ⟨q, hq, hnoted⟩ := h.lows.noted above p below hsplit x hx hle' y hy hold
      exact ⟨q, hq, Nat.le_trans (hle q) hnoted⟩
    · refine ⟨v, head_mem_of_split hsplit, ?_⟩
      rw [lowOf_lower, if_pos rfl]
      exact Nat.min_le_right _ _

end Tracks

/-! ### The way back -/

@[simp] theorem indexOf_passOn (s : Tarjan) (v : Int) (rest : List Stop) :
    (s.passOn v rest).indexOf = s.indexOf := by
  cases rest <;> rfl

@[simp] theorem stack_passOn (s : Tarjan) (v : Int) (rest : List Stop) :
    (s.passOn v rest).stack = s.stack := by
  cases rest <;> rfl

/-- What is passed on lowers a link and nothing else. -/
theorem Stacked.passOn (h : Stacked g roots t s) (v : Int) (rest : List Stop) :
    Stacked g roots t (s.passOn v rest) := by
  cases rest <;> exact ⟨h.met, h.below, h.stack, h.onStack, h.fathers, h.closed, h.cyclic⟩

/-- Links only go down. -/
theorem lowOf_passOn_le (s : Tarjan) (v x : Int) (rest : List Stop) :
    (s.passOn v rest).lowOf x ≤ s.lowOf x := by
  cases rest with
  | nil => exact Nat.le_refl _
  | cons stop rest => exact lowOf_lower_le s stop.1 x _

theorem lowOf_passOn_self (s : Tarjan) {v : Int} (h : v ∉ rest.map (·.1)) :
    (s.passOn v rest).lowOf v = s.lowOf v := by
  cases rest with
  | nil => rfl
  | cons stop rest =>
      refine (lowOf_lower s stop.1 v _).trans (if_neg fun e => h ?_)
      exact e ▸ List.mem_cons_self

/-- What a node has noted is noted by the stop before it. -/
theorem Tracks.lows_passOn (h : Tracks g roots later t ((v, []) :: rest) s) :
    Lows g (t.finish v) rest (s.passOn v rest) := by
  have hv : v ∈ ((v, []) :: rest).map (·.1) := List.mem_cons_self
  refine ⟨fun x hx => ?_, fun x hx => ?_, fun above p below hsplit x hx hle y hy hxy => ?_⟩
  · rw [stack_passOn] at hx
    rw [indexOf_passOn]
    exact Nat.le_trans (lowOf_passOn_le s v x rest) (h.lows.le x hx)
  · rw [stack_passOn] at hx ⊢
    rw [indexOf_passOn]
    cases hrest : rest with
    | nil => exact h.lows.ofReached x hx
    | cons stop rest' =>
        rw [passOn, lowOf_lower]
        split
        case isFalse => exact h.lows.ofReached x hx
        case isTrue e =>
          subst e
          rcases Nat.le_total (s.lowOf stop.1) (s.lowOf v) with hmin | hmin
          · rw [Nat.min_eq_left hmin]
            exact h.lows.ofReached _ hx
          · -- the stop before leads to the node, and so to where the node leads
            rw [Nat.min_eq_right hmin]
            have hstop : stop.1 ∈ rest.map (·.1) := by
              rw [hrest]
              exact List.mem_cons_self
            have hdown := h.underway.reach stop.1 (.tail _ hstop) v (h.underway.mem_of_onPath hv)
              (Nat.le_of_lt (h.underway.number_lt hstop))
            obtain ⟨y, hy, hlow, hreach⟩ := h.lows.ofReached v (h.onPath_mem_stack hv)
            exact ⟨y, hy, hlow, hdown.trans hreach⟩
  · rw [stack_passOn] at hy
    rw [indexOf_passOn] at hle ⊢
    have hsplit' : ((v, []) :: rest).map (·.1) = (v :: above) ++ p :: below := congrArg (v :: ·) hsplit
    obtain ⟨q, hq, hnoted⟩ := h.lows.noted (v :: above) p below hsplit' x hx hle y hy
      (Visits.looked_of_exhausted hxy)
    rcases List.mem_cons.mp hq with rfl | hq
    · cases rest with
      | nil => exact absurd hsplit (by simp)
      | cons stop rest' =>
          refine ⟨stop.1, head_mem_of_split hsplit, Nat.le_trans ?_ hnoted⟩
          rw [passOn, lowOf_lower, if_pos rfl]
          exact Nat.min_le_right _ _
    · exact ⟨q, hq, Nat.le_trans (lowOf_passOn_le s v q rest) hnoted⟩

/-- A node is left that is not the first of its class. -/
theorem Stacked.stay (h : Stacked g roots t s) (hv : g.first roots v ≠ v) :
    Stacked g roots (t.finish v) s := by
  have hne : ∀ x, g.first roots x ≠ v := by
    rintro x rfl
    exact hv (first_first x)
  refine ⟨h.met, h.below, ?_, h.onStack, fun x f => ?_, ?_, h.cyclic⟩
  · rw [h.stack]
    refine List.filter_congr fun x _ => ?_
    simp [Trace.finish, hne x]
  · refine (h.fathers x f).trans (and_congr_right fun _ => and_congr_left fun hxf => ?_)
    refine ⟨.tail _, fun hf => ?_⟩
    exact (List.mem_cons.mp hf).resolve_left fun e => hne x (hxf.trans e)
  · rw [h.closed]
    simp only [Trace.finish, List.filter_cons]
    rw [if_neg (by simpa using hv)]

/-- The stack where the class of its first member `v` is about to be closed: the rest of the class, `v`, and
what stays. -/
structure Opens (g : Digraph) (roots : List Int) (t : Trace) (s : Tarjan) (v : Int)
    (above below : List Int) : Prop where
  stack : s.stack = above ++ v :: below
  fresh : v ∉ above
  nodup : (above ++ [v]).Nodup
  component : ∀ x, x ∈ above ++ [v] ↔ x ∈ t.discovered ∧ g.first roots x = v
  whole : ∀ x, x ∈ above ++ [v] ↔ x ∈ g.met roots ∧ g.first roots x = v
  below : below = t.discovered.filter fun x => g.first roots x ∉ v :: t.finished

/-- The class of the first member that is left is closed. -/
theorem Stacked.close (h : Stacked g roots t s) {above below : List Int}
    (ho : Opens g roots t s v above below) : Stacked g roots (t.finish v) (s.close g v) := by
  have hcut : cut v s.stack = (above ++ [v], below) := by rw [ho.stack, cut_append ho.fresh]
  have hfirst : g.first roots v = v := ((ho.component v).mp (by simp)).2
  have hmembers : Sorted.ofList compare (above ++ [v]) =
      Sorted.ofList compare ((g.met roots).filter fun x => g.first roots x == v) :=
    Sorted.ofList_congr fun x => by simp [ho.whole]
  have hclosed : (s.close g v).closed =
      (v, Sorted.ofList compare ((g.met roots).filter fun x => g.first roots x == v)) :: s.closed := by
    rw [Tarjan.close, hcut, ← hmembers]
  refine ⟨h.met, h.below, ?_, fun x => ?_, fun x f => ?_, ?_, ?_⟩
  · rw [Tarjan.close, hcut]
    exact ho.below
  · simp only [Tarjan.close, hcut]
    rw [mem_foldl_erase, h.onStack, ho.stack]
    have hkept : x ∈ below → x ∉ above ++ [v] := fun hx hmem => by
      rw [ho.below, List.mem_filter, decide_eq_true_eq] at hx
      exact hx.2 (((ho.component x).mp hmem).2 ▸ List.mem_cons_self)
    simp only [List.mem_append, List.mem_cons, List.not_mem_nil, or_false] at hkept ⊢
    grind
  · simp only [Tarjan.close, hcut]
    rw [foldl_assign]
    split
    case isTrue hx =>
      obtain ⟨hmet, hxv⟩ := (ho.component x).mp hx
      rw [hxv, Option.some.injEq]
      exact ⟨fun e => ⟨hmet, e ▸ List.mem_cons_self, e⟩, fun hf => hf.2.2⟩
    case isFalse hx =>
      rw [h.fathers]
      refine ⟨fun ⟨hmet, hf, hxf⟩ => ⟨hmet, .tail _ hf, hxf⟩, fun ⟨hmet, hf, hxf⟩ => ?_⟩
      refine ⟨hmet, (List.mem_cons.mp hf).resolve_left fun e => hx ?_, hxf⟩
      exact (ho.component x).mpr ⟨hmet, hxf.trans e⟩
  · rw [hclosed, h.closed]
    simp only [Trace.finish, List.filter_cons]
    rw [if_pos (by simpa using hfirst), List.map_cons]
  · have hcyclic : g.isCyclicClass v (above ++ [v]) = g.isCyclicClass v
        (Sorted.ofList compare ((g.met roots).filter fun x => g.first roots x == v)) := by
      rw [isCyclicClass, isCyclicClass, ← hmembers, Sorted.length_ofList ho.nodup]
    rw [hclosed, List.filter_cons]
    simp only [Tarjan.close, hcut, hcyclic, h.cyclic]
    split <;> rfl

/-- Where the first member of a class is left, its class is on the stack, from it on. -/
theorem Tracks.opens (h : Tracks g roots later t ((v, []) :: rest) s) (hfirst : g.first roots v = v) :
    ∃ above below, Opens g roots t s v above below ∧
      ∀ x, x ∈ below ↔ x ∈ s.stack ∧ s.indexOf x < s.indexOf v := by
  have hv : v ∈ ((v, []) :: rest).map (·.1) := List.mem_cons_self
  obtain ⟨hmet, hfresh⟩ := (h.underway.onPath v).mp hv
  obtain ⟨later', before, hsplit⟩ := List.append_of_mem hmet
  have horder := h.underway.order
  rw [hsplit] at horder
  obtain ⟨-, hbefore, hlater⟩ := List.pairwise_append.mp horder
  have hgt : ∀ x ∈ later', s.indexOf v < s.indexOf x := fun x hx => hlater x hx v List.mem_cons_self
  have hlt : ∀ x ∈ before, s.indexOf x < s.indexOf v := (List.pairwise_cons.mp hbefore).1
  have hstack : s.stack = later'.filter (fun x => g.first roots x ∉ t.finished) ++
      v :: before.filter fun x => g.first roots x ∉ t.finished := by
    rw [h.stacked.stack, hsplit, List.filter_append, List.filter_cons_of_pos]
    rw [hfirst]
    exact decide_eq_true hfresh
  generalize habove : later'.filter (fun x => g.first roots x ∉ t.finished) = above at hstack
  generalize hbelow : before.filter (fun x => g.first roots x ∉ t.finished) = below at hstack
  have hmemAbove : ∀ x ∈ above, s.indexOf v < s.indexOf x := fun x hx =>
    hgt x (List.mem_filter.mp (habove ▸ hx)).1
  have hmemBelow : ∀ x ∈ below, s.indexOf x < s.indexOf v := fun x hx =>
    hlt x (List.mem_filter.mp (hbelow ▸ hx)).1
  have hmem : ∀ x, x ∈ s.stack ↔ x ∈ above ++ [v] ∨ x ∈ below := fun x => by
    rw [hstack]
    simp [or_assoc]
  have hclass := fun x hx => h.number_le_iff hfirst (x := x) hx
  have hcomponent : ∀ x, x ∈ above ++ [v] ↔ x ∈ t.discovered ∧ g.first roots x = v := by
    intro x
    constructor
    · intro hx
      have hx' : x ∈ s.stack := (hmem x).mpr (.inl hx)
      refine ⟨(h.stacked.mem_stack.mp hx').1, (hclass x hx').mp ?_⟩
      rcases List.mem_append.mp hx with hx | hx
      · exact Nat.le_of_lt (hmemAbove x hx)
      · exact Nat.le_of_eq (congrArg s.indexOf (List.mem_singleton.mp hx).symm)
    · rintro ⟨hx, hxv⟩
      have hx' : x ∈ s.stack := h.stacked.mem_stack.mpr ⟨hx, hxv ▸ hfresh⟩
      refine ((hmem x).mp hx').resolve_right fun hmem => ?_
      exact absurd (hmemBelow x hmem) (Nat.not_lt.mpr ((hclass x hx').mpr hxv))
  refine ⟨above, below, ⟨hstack, fun hmem => Nat.lt_irrefl _ (hmemAbove v hmem), ?_, hcomponent,
    fun x => ?_, ?_⟩, fun x => ?_⟩
  · have hnodup : s.stack.Nodup := by
      rw [h.stacked.stack]
      exact h.underway.nodup.filter _
    rw [hstack, List.append_cons] at hnodup
    exact (List.nodup_append.mp hnodup).1
  · rw [hcomponent]
    refine ⟨fun ⟨hx, hxv⟩ => ⟨h.underway.mem_met hx, hxv⟩, fun ⟨_, hxv⟩ => ⟨?_, hxv⟩⟩
    -- all of the class has been met
    have hlink : g.Linked v x := first_eq_iff.mp (hfirst.trans hxv.symm)
    exact (h.met_of_linked (h.lowOf_eq_iff.mpr hfirst) hlink).1
  · have hother : ∀ x ∈ below, g.first roots x ≠ v := fun x hx hxv =>
      absurd (hmemBelow x hx) (Nat.not_lt.mpr ((hclass x ((hmem x).mpr (.inr hx))).mpr hxv))
    have hfilter : (t.discovered.filter fun x => g.first roots x ∉ v :: t.finished) =
        s.stack.filter fun x => g.first roots x ≠ v := by
      rw [h.stacked.stack, List.filter_filter]
      refine List.filter_congr fun x _ => ?_
      simp
    have hgone : (above ++ [v]).filter (fun x => g.first roots x ≠ v) = [] :=
      List.filter_eq_nil_iff.mpr fun x hx => by simp [((hcomponent x).mp hx).2]
    have hstays : below.filter (fun x => g.first roots x ≠ v) = below :=
      List.filter_eq_self.mpr fun x hx => decide_eq_true (hother x hx)
    rw [hfilter, hstack, List.append_cons, List.filter_append, hgone, hstays, List.nil_append]
  · refine ⟨fun hx => ⟨(hmem x).mpr (.inr hx), hmemBelow x hx⟩, fun ⟨hx, hlt⟩ => ?_⟩
    refine ((hmem x).mp hx).resolve_left fun hmem => ?_
    rcases List.mem_append.mp hmem with hmem | hmem
    · exact Nat.lt_asymm hlt (hmemAbove x hmem)
    · exact Nat.lt_irrefl _ (List.mem_singleton.mp hmem ▸ hlt)

/-- Low numbers of what is left when the stack is taken down. -/
theorem Lows.restrict {s' : Tarjan} {k : Nat} (h : Lows g t path s) (hindex : s'.indexOf = s.indexOf)
    (hlow : s'.lowOf = s.lowOf) (hstack : ∀ x, x ∈ s'.stack ↔ x ∈ s.stack ∧ s.indexOf x < k) :
    Lows g t path s' := by
  refine ⟨fun x hx => ?_, fun x hx => ?_, fun above p below hsplit x hx hle y hy hxy => ?_⟩
  · rw [hindex, hlow]
    exact h.le x ((hstack x).mp hx).1
  · obtain ⟨hx, hlt⟩ := (hstack x).mp hx
    obtain ⟨y, hy, hxy, hreach⟩ := h.ofReached x hx
    have hyk : s.indexOf y < k := Nat.lt_of_le_of_lt (hxy ▸ h.le x hx) hlt
    exact ⟨y, (hstack y).mpr ⟨hy, hyk⟩, by rw [hindex, hlow, hxy], hreach⟩
  · rw [hindex] at hle ⊢
    rw [hlow]
    exact h.noted above p below hsplit x hx hle y ((hstack y).mp hy).1 hxy

/-- The search leaves its last stop. -/
theorem Tracks.leave (h : Tracks g roots later t ((v, []) :: rest) s) :
    Tracks g roots later (t.finish v) rest (s.leave g v rest) := by
  have hv : v ∉ rest.map (·.1) := fun hmem => Nat.lt_irrefl _ (h.underway.number_lt hmem)
  have hunder : g.Underway roots s.indexOf later (t.finish v) rest :=
    ⟨h.underway.toVisits.leave, complete_leave.symm.trans h.underway.goal⟩
  have hstacked := h.stacked.passOn v rest
  have hlows := h.lows_passOn
  rw [Tarjan.leave, lowOf_passOn_self s hv, indexOf_passOn]
  split
  case isTrue hlow =>
    obtain ⟨above, below, hopens, hbelow⟩ := h.opens (h.lowOf_eq_iff.mp hlow)
    have hopens' : Opens g roots t (s.passOn v rest) v above below :=
      ⟨(stack_passOn s v rest).trans hopens.stack, hopens.fresh, hopens.nodup, hopens.component,
        hopens.whole, hopens.below⟩
    have hindex : ((s.passOn v rest).close g v).indexOf = s.indexOf := indexOf_passOn s v rest
    refine ⟨hindex ▸ hunder, hstacked.close hopens', hlows.restrict rfl rfl (k := s.indexOf v) fun x => ?_⟩
    rw [stack_passOn, indexOf_passOn, ← hbelow, Tarjan.close, hopens'.stack, cut_append hopens.fresh]
  case isFalse hlow =>
    have hindex : (s.passOn v rest).indexOf = s.indexOf := indexOf_passOn s v rest
    exact ⟨hindex ▸ hunder, hstacked.stay (mt h.lowOf_eq_iff.mpr hlow), hlows⟩

/-! ### Searches -/

/-- **One look** keeps track of the plain search. -/
theorem Tracks.look {top : Stop} (h : Tracks g roots later t (top :: rest) s) :
    ∃ t', Tracks g roots later t' (s.look g top rest).2 (s.look g top rest).1 := by
  obtain ⟨v, ws⟩ := top
  cases ws with
  | nil => exact ⟨_, h.leave⟩
  | cons w ws =>
      have hmet : s.index.contains w = true ↔ w ∈ t.discovered :=
        Std.TreeMap.contains_iff_mem.trans (h.stacked.met w)
      have hon : s.onStack.contains w = true ↔ w ∈ s.stack :=
        Std.TreeSet.contains_iff_mem.trans (h.stacked.onStack w)
      rw [Tarjan.look]
      split
      case isTrue hnew =>
        have hw : w ∉ t.discovered := fun hw => by simp [hmet.mpr hw] at hnew
        have hedge : g.Edge v w := (List.forall_mem_cons.mp h.underway.toLook).1 w List.mem_cons_self
        refine ⟨_, h.enter rfl h.underway.toLook_next ?_ ?_ hw ?_⟩
        · exact fun x y hxy => (looked_next hxy).imp_right And.right
        · intro u hu
          obtain rfl := Option.some.inj hu
          exact hedge
        · exact (complete_enter fun hseen => hw ((h.underway.seen w).mp hseen)).symm.trans h.underway.goal
      case isFalse hold =>
        have hw : w ∈ t.discovered := hmet.mp (by simpa using hold)
        split
        case isTrue hstack => exact ⟨_, h.lower (hon.mp hstack)⟩
        case isFalse hstack => exact ⟨_, h.pass hw (mt hon.mpr hstack)⟩

/-- **A whole search**, look by look. -/
theorem Tracks.run (h : Tracks g roots later t path s) :
    ∃ t', Tracks g roots later t' [] (run g s path) := by
  induction s, path using run.induct g generalizing t with
  | case1 s =>
      rw [Tarjan.run]
      exact ⟨t, h⟩
  | case2 s top rest ih =>
      obtain ⟨t', ht'⟩ := h.look
      rw [Tarjan.run]
      exact ih ht'

/-- A search from one more node. -/
theorem Tracks.start (h : Tracks g roots (v :: later) t [] s) :
    ∃ t', Tracks g roots later t' [] (start g s v) := by
  have hmet : s.index.contains v = true ↔ v ∈ t.discovered :=
    Std.TreeMap.contains_iff_mem.trans (h.stacked.met v)
  rw [Tarjan.start]
  split
  case isTrue hold =>
    have hseen : v ∈ t.seen := (h.underway.seen v).mpr (hmet.mp hold)
    refine ⟨t, ⟨h.underway.toVisits, ?_⟩, h.stacked, h.lows⟩
    have hgoal := h.underway.goal
    rwa [complete, List.foldl_nil, List.foldl_cons, visit_of_mem hseen] at hgoal
  case isFalse hnew =>
    have hv : v ∉ t.discovered := mt hmet.mpr hnew
    have hgoal := (complete_start fun hseen => hv ((h.underway.seen v).mp hseen)).symm.trans h.underway.goal
    refine (h.enter rfl (List.forall_mem_nil _) (fun _ _ hxy => .inl hxy) ?_ hv hgoal).run
    exact fun u hu => by cases hu

/-- Searches from several nodes, one after the other. -/
theorem Tracks.foldl (h : Tracks g roots later t [] s) :
    ∃ t', Tracks g roots [] t' [] (later.foldl (Tarjan.start g) s) := by
  induction later generalizing t s with
  | nil => exact ⟨t, h⟩
  | cons v later ih =>
      obtain ⟨t', ht'⟩ := h.start
      exact ih ht'

/-- Nothing is met. -/
theorem Tracks.empty (g : Digraph) (roots : List Int) :
    Tracks g roots (g.searchOrder roots) .empty [] {} where
  underway := ⟨.empty g _, rfl⟩
  stacked := by
    refine ⟨fun v => ?_, List.forall_mem_nil _, rfl, fun v => ?_, fun v f => ?_, rfl, rfl⟩
    · simp [Trace.empty]
    · simp
    · simp [Trace.empty]
  lows := ⟨List.forall_mem_nil _, List.forall_mem_nil _, fun above p below h => absurd h (by simp)⟩

/-- In the end all that the plain search tells is closed. -/
theorem stacked_tarjan (g : Digraph) (roots : List Int) :
    Stacked g roots (g.search (g.searchOrder roots)) (g.tarjan (g.searchOrder roots)) := by
  obtain ⟨t, ht⟩ := (Tracks.empty g roots).foldl
  have hgoal : t = g.search (g.searchOrder roots) := ht.underway.goal
  exact hgoal ▸ ht.stacked

end Tarjan

end Digraph

/-- The same components; tables of fathers may be built differently. -/
structure Components.Agrees (c d : Components) : Prop where
  classes : c.classes = d.classes
  fathers : ∀ v : Int, c.fathers[v]? = d.fathers[v]?
  cyclic : c.cyclic = d.cyclic
  condensed : c.condensed = d.condensed

namespace Digraph

/-- The successors of a class depend on the fathers that are looked up. -/
theorem classSuccs_congr (g : Digraph) {fathers fathers' : Std.TreeMap Int Int}
    (h : ∀ v : Int, fathers[v]? = fathers'[v]?) (father : Int) (members : List Int) :
    g.classSuccs fathers father members = g.classSuccs fathers' father members := by
  have hget : ∀ w, fathers.getD w w = fathers'.getD w w := fun w => by
    rw [Std.TreeMap.getD_eq_getD_getElem?, Std.TreeMap.getD_eq_getD_getElem?, h]
  simp only [classSuccs, hget]

/-- **The numbered search gives the components that reachability tells**: the classes of mutual
reachability under their first members, in the order in which these are left. -/
theorem components_agrees_byReach (g : Digraph) (roots : List Int) :
    (g.components roots).Agrees (g.componentsByReach roots) := by
  have h := Tarjan.stacked_tarjan g roots
  have hclasses : (g.components roots).classes = (g.componentsByReach roots).classes := by
    simp only [components, componentsByReach, h.closed, List.filter_reverse, List.map_reverse]
  have hfathers : ∀ v : Int,
      (g.components roots).fathers[v]? = (g.componentsByReach roots).fathers[v]? := by
    refine fun v => Option.ext fun f => (h.fathers v f).trans ?_
    refine Iff.trans ⟨fun ⟨hv, _, hf⟩ => ⟨hv, hf⟩, fun ⟨hv, hf⟩ => ⟨hv, ?_, hf⟩⟩
      fathersIn_eq_some_iff.symm
    rw [← hf, mem_finished, ← mem_discovered]
    exact mem_met_first hv
  refine ⟨hclasses, hfathers, ?_, ?_⟩
  · have hcyclic : (g.components roots).cyclic = ((g.components roots).classes.filter fun c =>
        g.isCyclicClass c.1 c.2).map (·.1) := by
      simp only [components, h.cyclic, List.filter_reverse, List.map_reverse]
    rw [hcyclic, hclasses]
    rfl
  · have hcondensed : (g.components roots).condensed = (g.components roots).classes.map fun c =>
        (c.1, g.classSuccs (g.components roots).fathers c.1 c.2) := rfl
    rw [hcondensed, hclasses]
    simp only [g.classSuccs_congr hfathers]
    rfl

end Digraph

end Dangling
