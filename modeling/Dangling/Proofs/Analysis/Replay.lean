import Dangling.Analysis.Session
import Dangling.Proofs.Path.Alarms
import Dangling.Proofs.Path.Released

/-!
# Proofs — Analysis — Replay

A call replays the releases of its callee one by one, each in the state that the ones before it have
left.  If the memory of the arguments is live and has one name each, that state is known: a node is
released when its turn comes exactly if it lies at or below a node that had its turn before.  So it
can be read off the list of releases whether a call frees memory twice.

* `PathState.Unshared`: live memory with one name.
* `PathState.Replayed`: the state that releases of unshared memory leave, kept by one more release
  (`PathState.Replayed.release`).
* `CallSite.unshared_freed_twice`: when a call frees unshared memory twice.  A summary lists a
  released value next to the released fields of it, so a call may do so though its callee, when it
  is analysed, does not (`Analyzer.pairs_freed_again`).
-/

namespace Dangling

/-! ### Released nodes -/

/-- Fields lead to nodes below. -/
theorem NodeTable.Layered.childAt_mem_subtree {t : NodeTable} (h : t.Layered) (id : NodeId)
    (fields : List String) : t.childAt id fields ∈ t.subtree id := by
  induction fields generalizing id with
  | nil => exact t.self_mem_subtree id
  | cons f fs ih =>
      rw [childAt]
      cases hc : t.child? id f with
      | none => exact t.self_mem_subtree id
      | some c => exact h.subtree_child_subset (mem_children_of_child? hc) (ih c)

namespace CallSite

variable {t : NodeTable} {c : CallSite}

/-- The nodes at and below the arguments of a call. -/
def handed (t : NodeTable) (c : CallSite) : List NodeId :=
  (c.args.filterMap (nodeOf t)).flatMap fun x => t.subtree x.1

theorem subtree_subset_handed {i : Int} {id : NodeId} (h : c.argNode t i = some id) :
    t.subtree id ⊆ c.handed t := by
  obtain ⟨x, hx, rfl⟩ := Option.map_eq_some_iff.mp h
  obtain ⟨o, ho, hnode⟩ := Option.bind_eq_some_iff.mp hx
  intro n hn
  exact List.mem_flatMap.mpr ⟨x, List.mem_filterMap.mpr ⟨o, mem_args_of_arg? ho, hnode⟩, hn⟩

/-- A call releases only what it is handed. -/
theorem subtree_released_subset (ht : t.Layered) {x : NodeId × Bool} (hx : x ∈ c.released t) :
    t.subtree x.1 ⊆ c.handed t := by
  rw [released] at hx
  cases he : c.effect with
  | unknown =>
      rw [he] at hx
      exact absurd hx List.not_mem_nil
  | modelled m =>
      rw [he] at hx
      obtain ⟨y, hy, rfl⟩ := List.mem_map.mp hx
      obtain ⟨i, -, hi⟩ := List.mem_filterMap.mp hy
      split at hi
      case h_2 => cases hi
      case h_1 id hid =>
        split at hi
        · obtain rfl := Option.some.inj hi
          exact subtree_subset_handed hid
        · cases hi
  | summarised sum =>
      rw [he] at hx
      obtain ⟨d, -, hd⟩ := List.mem_filterMap.mp hx
      split at hd
      · cases hd
      · obtain ⟨id, hid, rfl⟩ := Option.map_eq_some_iff.mp hd
        have hbelow := ht.subtree_subset (ht.childAt_mem_subtree id d.path.fields)
        exact List.Subset.trans hbelow (subtree_subset_handed hid)

end CallSite

/-! ### The state that releases leave -/

namespace PathState

/-- The memory of a node is live, and the node is its only name. -/
def Unshared (s : PathState) (n : NodeId) : Prop := s.isDropped n = false ∧ s.aliases n = [n]

instance (s : PathState) (n : NodeId) : Decidable (s.Unshared n) :=
  inferInstanceAs (Decidable (_ ∧ _))

/-- A release that is not by hand, of memory that was not handled by hand. -/
def Automatic (s : PathState) (x : NodeId × Bool) : Prop :=
  x.2 = false ∧ (s.node x.1).tainted = false

instance (s : PathState) (x : NodeId × Bool) : Decidable (s.Automatic x) :=
  inferInstanceAs (Decidable (_ ∧ _))

variable {t : NodeTable} {s u : PathState} {done : List (NodeId × Bool)} {x : NodeId × Bool}

theorem origin?_of_not_dropped {n : NodeId} (h : s.isDropped n = false) :
    (s.node n).fate.origin? = none := by
  rw [isDropped, NodeState.isDropped] at h
  cases hf : (s.node n).fate with
  | live | movedOut => rfl
  | dropped origin loc =>
      rw [hf] at h
      cases h

/-- The state `u` comes of `s` by the releases `done`: of what was unshared, the nodes at and below
them are released, each by one of them; and only releases by hand taint. -/
structure Replayed (t : NodeTable) (s : PathState) (done : List (NodeId × Bool)) (u : PathState) :
    Prop where
  aliases : ∀ n, u.aliases n = s.aliases n
  dropped : ∀ n, s.Unshared n → (u.isDropped n = true ↔ ∃ x ∈ done, n ∈ t.subtree x.1)
  origin : ∀ n, s.Unshared n → ∀ o, (u.node n).fate.origin? = some o →
    ∃ x ∈ done, x.1 = o ∧ n ∈ t.subtree o
  tainted : ∀ n, (u.node n).tainted = true →
    (s.node n).tainted = true ∨ ∃ x ∈ done, x.2 = true ∧ n ∈ t.subtree x.1

theorem replayed_nil (t : NodeTable) (s : PathState) : s.Replayed t [] s where
  aliases _ := rfl
  dropped n hn := by simp [hn.1]
  origin n hn o ho := by
    rw [origin?_of_not_dropped hn.1] at ho
    exact nomatch ho
  tainted _ hn := .inl hn

namespace Replayed

/-- Nothing else names unshared memory, so its release reaches just what lies below. -/
theorem mem_dropTargets (h : s.Replayed t done u) (hx : s.Unshared x.1) {n : NodeId} :
    n ∈ Progress.dropTargets t u x.1 ∧ n < u.size ↔ n ∈ t.subtree x.1 ∧ n < u.size := by
  rw [Progress.dropTargets, h.aliases, hx.2]
  simp

/-- The release of a node that is released already changes nothing. -/
theorem again (ht : t.Layered) (h : s.Replayed t done u) (hx : s.Unshared x.1)
    (hd : u.isDropped x.1 = true) : s.Replayed t (done ++ [x]) u := by
  obtain ⟨z, hz, hxz⟩ := (h.dropped x.1 hx).mp hd
  refine ⟨h.aliases, fun n hn => (h.dropped n hn).trans ⟨?_, ?_⟩, fun n hn o ho => ?_,
    fun n hn => (h.tainted n hn).imp_right ?_⟩
  · rintro ⟨y, hy, hny⟩
    exact ⟨y, List.mem_append_left _ hy, hny⟩
  · rintro ⟨y, hy, hny⟩
    rcases List.mem_append.mp hy with hy | hy
    · exact ⟨y, hy, hny⟩
    · -- what lies below the node lies below the earlier one
      obtain rfl := List.mem_singleton.mp hy
      exact ⟨z, hz, ht.subtree_subset hxz hny⟩
  · obtain ⟨y, hy, hyo⟩ := h.origin n hn o ho
    exact ⟨y, List.mem_append_left _ hy, hyo⟩
  · rintro ⟨y, hy, hny⟩
    exact ⟨y, List.mem_append_left _ hy, hny⟩

/-- The first release of a node. -/
theorem first (h : s.Replayed t done u) (hx : s.Unshared x.1) (loc : Option Location) :
    s.Replayed t (done ++ [x])
      (u.markDropped (Progress.dropTargets t u x.1) x.1 loc x.2) := by
  have hlast : ∀ {P : NodeId × Bool → Prop}, (∃ y ∈ done ++ [x], P y) ↔ (∃ y ∈ done, P y) ∨ P x :=
    by simp [or_and_right, exists_or]
  refine ⟨fun n => ?_, fun n hn => ?_, fun n hn o ho => ?_, fun n hn => ?_⟩
  · rw [aliases_markDropped, h.aliases]
  · have hsize : n < u.size := by
      refine lt_of_mem_aliases (m := n) ?_
      rw [h.aliases, hn.2]
      exact List.mem_singleton_self n
    rw [isDropped_markDropped, Bool.or_eq_true, decide_eq_true_eq, h.mem_dropTargets hx,
      h.dropped n hn, hlast, or_comm, and_iff_left hsize]
  · rw [node_markDropped] at ho
    rw [hlast]
    split at ho
    case isTrue hmem =>
      obtain rfl := Option.some.inj ho
      exact .inr ⟨rfl, ((h.mem_dropTargets hx).mp hmem).1⟩
    case isFalse => exact .inl (h.origin n hn o ho)
  · rw [node_markDropped] at hn
    rw [hlast]
    split at hn
    case isTrue hmem =>
      rcases Bool.or_eq_true _ _ ▸ hn with hn | hn
      · exact (h.tainted n hn).imp_right .inl
      · exact .inr (.inr ⟨hn, ((h.mem_dropTargets hx).mp hmem).1⟩)
    case isFalse => exact (h.tainted n hn).imp_right .inl

/-- **One more release.** -/
theorem release (ht : t.Layered) {p : Progress} (h : s.Replayed t done p.state)
    (hx : s.Unshared x.1) (loc : Location) (context : String) :
    s.Replayed t (done ++ [x]) (p.release t x.1 loc x.2 context).state := by
  rw [Progress.release]
  split
  case isTrue hd =>
    have hagain : s.Replayed t (done ++ [x]) p.state := h.again ht hx hd
    split <;> exact hagain
  case isFalse => exact h.first hx (some loc)

theorem foldl (ht : t.Layered) {loc : Location} {context : String} (xs : List (NodeId × Bool)) :
    ∀ {done : List (NodeId × Bool)} {p : Progress}, s.Replayed t done p.state →
      (∀ x ∈ xs, s.Unshared x.1) → s.Replayed t (done ++ xs)
        (xs.foldl (fun p x => p.release t x.1 loc x.2 context) p).state := by
  induction xs with
  | nil =>
      intro done p h _
      rw [List.append_nil]
      exact h
  | cons x xs ih =>
      intro done p h hxs
      rw [List.append_cons]
      exact ih (h.release ht (hxs x List.mem_cons_self) loc context)
        fun y hy => hxs y (List.mem_cons_of_mem _ hy)

end Replayed

end PathState

/-! ### Double frees of a replay -/

namespace Progress

variable {t : NodeTable} {s : PathState} {p : Progress} {loc : Location} {context : String}

theorem doubleFrees_le_foldl (xs : List (NodeId × Bool)) (p : Progress) :
    p.doubleFrees ≤ (xs.foldl (fun p x => p.release t x.1 loc x.2 context) p).doubleFrees := by
  refine List.foldlRecOn (motive := fun q : Progress => p.doubleFrees ≤ q.doubleFrees) xs _
    (Nat.le_refl _) fun q hq x _ => Nat.le_trans hq ?_
  rw [doubleFrees_release]
  exact Nat.le_add_right _ _

theorem doubleFrees_release_lt {id : NodeId} {manual : Bool} (hd : p.state.isDropped id = true)
    (hm : manual = true ∨ (p.state.node id).tainted = true) :
    p.doubleFrees < (p.release t id loc manual context).doubleFrees := by
  have htainted : manual = true ∨ p.state.isTainted id = true := by
    refine hm.imp_right fun h => ?_
    rw [PathState.isTainted, h, Bool.true_or]
  rw [doubleFrees_release, if_pos ⟨hd, htainted⟩]
  exact Nat.lt_succ_self _

/-- A node that is released already has its turn. -/
theorem doubleFrees_lt_foldl {y : NodeId × Bool} (xs : List (NodeId × Bool)) (hy : y ∈ xs) :
    ∀ {p : Progress}, p.state.isDropped y.1 = true →
      (y.2 = true ∨ (p.state.node y.1).tainted = true) → p.doubleFrees <
        (xs.foldl (fun p x => p.release t x.1 loc x.2 context) p).doubleFrees := by
  induction xs with
  | nil => exact nomatch hy
  | cons x xs ih =>
      intro p hd hm
      rw [List.foldl_cons]
      rcases List.mem_cons.mp hy with rfl | hy
      · exact Nat.lt_of_lt_of_le (doubleFrees_release_lt hd hm) (doubleFrees_le_foldl xs _)
      · have hstays : p.state.Stays (p.release t x.1 loc x.2 context).state y.1 :=
          PathState.stays_course (course_release (W := []) .refl x.1 loc x.2 context) List.not_mem_nil
        exact Nat.lt_of_le_of_lt (doubleFrees_le_foldl [x] p)
          (ih hy (hstays.dropped hd) (hm.imp_right hstays.tainted))

/-- A release that meets only what automatic releases have freed. -/
theorem doubleFrees_release_automatic (ht : t.Layered) {done : List (NodeId × Bool)}
    {x : NodeId × Bool} (h : s.Replayed t done p.state) (hx : s.Unshared x.1)
    (hquiet : ∀ z ∈ done, x.1 ∈ t.subtree z.1 → s.Automatic z ∧ s.Automatic x) :
    (p.release t x.1 loc x.2 context).doubleFrees = p.doubleFrees := by
  rw [doubleFrees_release, if_neg, Nat.add_zero]
  rintro ⟨hd, hm⟩
  obtain ⟨z, hz, hxz⟩ := (h.dropped x.1 hx).mp hd
  obtain ⟨hauto, huntainted⟩ := (hquiet z hz hxz).2
  -- all that lies above the node was released automatically, so nothing above it is tainted
  have habove : ∀ y ∈ done, x.1 ∈ t.subtree y.1 → (p.state.node y.1).tainted ≠ true := by
    intro y hy hxy hy'
    rcases h.tainted y.1 hy' with hold | ⟨w, hw, hmanual, hyw⟩
    · exact nomatch hold.symm.trans (hquiet y hy hxy).1.2
    · have hxw := ht.subtree_subset hyw hxy
      exact nomatch hmanual.symm.trans (hquiet w hw hxw).1.1
  rcases hm with hm | hm
  · exact nomatch hm.symm.trans hauto
  rw [PathState.isTainted, Bool.or_eq_true] at hm
  rcases hm with hm | hm
  · rcases h.tainted x.1 hm with hold | ⟨w, hw, hmanual, hxw⟩
    · exact nomatch hold.symm.trans huntainted
    · exact nomatch hmanual.symm.trans (hquiet w hw hxw).1.1
  · split at hm
    case h_2 => exact nomatch hm
    case h_1 o ho =>
      obtain ⟨y, hy, rfl, hxy⟩ := h.origin x.1 hx o ho
      exact habove y hy hxy hm

/-- **Releases that meet only what automatic releases have freed raise no double free.** -/
theorem doubleFrees_replay (ht : t.Layered) (xs : List (NodeId × Bool)) :
    ∀ {done : List (NodeId × Bool)} {p : Progress}, s.Replayed t done p.state →
      (∀ x ∈ xs, s.Unshared x.1) →
      (done ++ xs).Pairwise (fun x y => y.1 ∈ t.subtree x.1 → s.Automatic x ∧ s.Automatic y) →
      (xs.foldl (fun p x => p.release t x.1 loc x.2 context) p).doubleFrees = p.doubleFrees := by
  induction xs with
  | nil => exact fun _ _ _ => rfl
  | cons x xs ih =>
      intro done p h hxs hquiet
      have hx := hxs x List.mem_cons_self
      have hfirst : (p.release t x.1 loc x.2 context).doubleFrees = p.doubleFrees :=
        doubleFrees_release_automatic ht h hx fun z hz =>
          (List.pairwise_append.mp hquiet).2.2 z hz x List.mem_cons_self
      rw [List.foldl_cons, ← hfirst]
      rw [List.append_cons] at hquiet
      exact ih (h.release ht hx loc context) (fun y hy => hxs y (List.mem_cons_of_mem _ hy)) hquiet

/-- **Releases one of which meets what an earlier one has freed, one of the two by hand, raise a
double free.** -/
theorem doubleFrees_lt_replay (ht : t.Layered) {before after : List (NodeId × Bool)}
    {x y : NodeId × Bool} (hs : ∀ z ∈ before ++ x :: after, p.state.Unshared z.1) (hy : y ∈ after)
    (hxy : y.1 ∈ t.subtree x.1) (hmanual : x.2 = true ∨ y.2 = true) :
    p.doubleFrees < ((before ++ x :: after).foldl
      (fun p x => p.release t x.1 loc x.2 context) p).doubleFrees := by
  rw [List.foldl_append, List.foldl_cons]
  generalize hq : before.foldl (fun p x => p.release t x.1 loc x.2 context) p = q
  have hpq : p.doubleFrees ≤ q.doubleFrees := hq ▸ doubleFrees_le_foldl before p
  have hx := hs x (List.mem_append_right _ List.mem_cons_self)
  have hyshared := hs y (List.mem_append_right _ (List.mem_cons_of_mem _ hy))
  have hbefore : p.state.Replayed t before q.state :=
    hq ▸ (p.state.replayed_nil t).foldl ht before fun z hz => hs z (List.mem_append_left _ hz)
  have hdropped : (q.release t x.1 loc x.2 context).state.isDropped y.1 = true :=
    ((hbefore.release ht hx loc context).dropped y.1 hyshared).mpr
      ⟨x, List.mem_append_right _ List.mem_cons_self, hxy⟩
  have hqx : q.doubleFrees ≤ (q.release t x.1 loc x.2 context).doubleFrees :=
    doubleFrees_le_foldl [x] q
  by_cases hd : q.state.isDropped x.1 = true ∧ x.2 = true
  · -- the first of the two is by hand and comes upon freed memory itself
    have hlt : q.doubleFrees < (q.release t x.1 loc x.2 context).doubleFrees :=
      doubleFrees_release_lt hd.1 (.inl hd.2)
    exact Nat.lt_of_le_of_lt hpq (Nat.lt_of_lt_of_le hlt (doubleFrees_le_foldl after _))
  · refine Nat.lt_of_le_of_lt (Nat.le_trans hpq hqx) (doubleFrees_lt_foldl after hy hdropped ?_)
    rcases hmanual with hmanual | hmanual
    · refine .inr ?_
      have hfirst : ¬q.state.isDropped x.1 = true := fun h => hd ⟨h, hmanual⟩
      have hrange : y.1 < q.state.size := by
        refine PathState.lt_of_mem_aliases (m := y.1) ?_
        rw [hbefore.aliases, hyshared.2]
        exact List.mem_singleton_self _
      rw [release, if_neg hfirst, state_on, PathState.node_markDropped,
        if_pos ((hbefore.mem_dropTargets hx).mpr ⟨hxy, hrange⟩), hmanual]
      exact Bool.or_true _
    · exact .inl hmanual

end Progress

/-! ### Calls on unshared memory -/

namespace CallSite

/-- **Which calls free unshared memory twice.**  If all memory of the arguments is live and has one
name each, a call raises no double free where releases meet only what automatic releases have freed;
and it raises one where a release meets what an earlier one has freed, and one of the two is by hand.
-/
theorem unshared_freed_twice {ds : Declarations} {b : Body} {g : FunctionGraph}
    (hb : FunctionGraph.ofBody ds b = .ok g) (c : CallSite) (destination : Place) {p : Progress}
    (hs : ∀ n ∈ c.handed g.nodes, p.state.Unshared n) :
    ((c.released g.nodes).Pairwise (fun x y => y.1 ∈ g.nodes.subtree x.1 →
        p.state.Automatic x ∧ p.state.Automatic y) →
      (c.apply g.nodes destination p).doubleFrees = p.doubleFrees) ∧
    (¬(c.released g.nodes).Pairwise (fun x y => y.1 ∈ g.nodes.subtree x.1 →
        x.2 = false ∧ y.2 = false) →
      p.doubleFrees < (c.apply g.nodes destination p).doubleFrees) := by
  have ht : g.nodes.Layered := (FunctionGraph.built_of_ofBody hb).layered
  have hreleased : ∀ x ∈ c.released g.nodes, p.state.Unshared x.1 := fun x hx =>
    hs x.1 (subtree_released_subset ht hx (g.nodes.self_mem_subtree x.1))
  rw [doubleFrees_apply, drop_eq, ← c.doubleFrees_use (t := g.nodes) p]
  rw [← c.state_use (t := g.nodes) p] at hreleased ⊢
  refine ⟨fun hquiet => ?_, fun hmeets => ?_⟩
  · exact Progress.doubleFrees_replay ht _ (PathState.replayed_nil _ _) hreleased hquiet
  · refine Classical.byContradiction fun hle => hmeets ?_
    rw [List.pairwise_iff_forall_sublist]
    intro x y hsub hxy
    -- cut the releases at `x`: the one that meets it comes later
    obtain ⟨l₁, l₂, hl, hx, hy⟩ := List.cons_sublist_iff.mp hsub
    obtain ⟨before, mid, rfl⟩ := List.append_of_mem hx
    rw [List.append_assoc, List.cons_append] at hl
    rw [hl] at hreleased hle
    have hmanual : ¬(x.2 = true ∨ y.2 = true) := fun hmanual =>
      hle (Progress.doubleFrees_lt_replay ht hreleased
        (List.mem_append_right _ (List.singleton_sublist.mp hy)) hxy hmanual)
    simpa using hmanual

/-- A function that passes its argument, a pair of vectors, on to another one. -/
def passOn (name callee : String) : Body where
  name := name
  argCount := 1
  locals :=
    [{ ty := Ty.unit },
     { ty := .tuple [.container .vec "Vec" [Ty.int32], .container .vec "Vec" [Ty.int32]] },
     { ty := Ty.unit }]
  blocks :=
    [{ id := 0, statements := [],
       terminator := ⟨default, .call callee [.move { base := 1 }] { base := 2 } (some 1) none⟩ },
     { id := 1, statements := [], terminator := ⟨default, .ret⟩ }]
  distinct := by simp

/-- The graph of a function that passes a pair on to `consume`. -/
def passOnGraph : FunctionGraph :=
  (FunctionGraph.ofBody .empty (passOn "outer" "consume")).toOption.get rfl

/-- What is known of `consume`, if it releases these slots by hand. -/
def byHand (slots : List Slot) : Summary :=
  { function := "consume", argCount := 1, dropped := slots.map ({ path := ·, manual := true }) }

/-- The call of `consume`. -/
def consuming (sum : Summary) : CallSite :=
  { loc := default, callee := "consume", effect := .summarised sum, args := [.move { base := 1 }] }

/-- Both vectors may be freed, but not the pair and then the vectors. -/
theorem pair_freed_by_parts :
    FunctionGraph.ofBody .empty (passOn "outer" "consume") = .ok passOnGraph ∧
      (∀ sum, ∀ n ∈ (consuming sum).handed passOnGraph.nodes, passOnGraph.initialState.Unshared n) ∧
      ((consuming (byHand [⟨1, ["0"]⟩, ⟨1, ["1"]⟩])).apply passOnGraph.nodes { base := 2 }
        { state := passOnGraph.initialState }).doubleFrees = 0 ∧
      0 < ((consuming (byHand [⟨1, []⟩, ⟨1, ["0"]⟩, ⟨1, ["1"]⟩])).apply passOnGraph.nodes
        { base := 2 } { state := passOnGraph.initialState }).doubleFrees := by
  have hg : FunctionGraph.ofBody .empty (passOn "outer" "consume") = .ok passOnGraph := rfl
  have hs : ∀ sum, ∀ n ∈ (consuming sum).handed passOnGraph.nodes,
      ({ state := passOnGraph.initialState } : Progress).state.Unshared n := by
    intro sum
    change ∀ n ∈ (consuming (byHand [])).handed passOnGraph.nodes, _
    decide +kernel
  have hparts := unshared_freed_twice hg (consuming (byHand [⟨1, ["0"]⟩, ⟨1, ["1"]⟩])) { base := 2 }
    (hs _)
  have hwhole := unshared_freed_twice hg (consuming (byHand [⟨1, []⟩, ⟨1, ["0"]⟩, ⟨1, ["1"]⟩]))
    { base := 2 } (hs _)
  exact ⟨hg, hs, hparts.1 (by decide +kernel), hwhole.2 (by decide +kernel)⟩

end CallSite

namespace Analyzer

/-- A crate in which `consume` releases a pair by hand, and `outer` passes its own pair on to it. -/
def pairs : Program where
  crate := "pairs"
  sourceFiles := []
  adts := []
  decls := .empty
  library := [("release", { drops := [0], manual := true })]
  bodies := [CallSite.passOn "consume" "release", CallSite.passOn "outer" "consume"]

/-- **A replay frees a pair twice.**  The report of `consume` has no findings, and its summary lists
the pair with both vectors.  Its replay on a pair that is live and unshared releases the pair, and
then each vector once more. -/
theorem pairs_freed_again :
    ((Analyzer.new pairs {}).function "consume" ({} : Session)).1.toOption.map
        (fun r => (r.findings.length, r.summary)) =
      some (0, some (CallSite.byHand [⟨1, []⟩, ⟨1, ["0"]⟩, ⟨1, ["1"]⟩])) ∧
    (∀ n ∈ CallSite.passOnGraph.nodes.subtree 1, CallSite.passOnGraph.initialState.Unshared n) ∧
    ((Analyzer.new pairs {}).function "outer" ({} : Session)).1.toOption.map (·.findings.map (·.kind)) =
      some [.doubleFree, .doubleFree] := by
  refine ⟨?_, ?_, ?_⟩ <;> decide +kernel

end Analyzer

end Dangling
