import Dangling.Proofs.Path.Values
import Dangling.Proofs.Path.Writes
import Mathlib.Data.List.Induction
import Mathlib.Data.List.Nodup
import Mathlib.Logic.Relation

/-!
# Proofs — Path — Joins

Joins one after the other.  Each join spreads taint over the two classes as they are then, yet what
comes out in the end is told by the pairs alone, whatever their order.  The classes are those of the
least equivalence that holds within the old classes and for the pairs; where a class has a node of a
pair, all its nodes are tainted if one was before.

* `PathState.joinAll`: joins the nodes of each pair in turn.
* `PathState.Partitioned.mem_aliases_joinAll`: the classes in the end.
* `PathState.Partitioned.tainted_joinAll`: the taint in the end.
* `PathState.Classified.joinAll_congr`: the same pairs in another order, turned round or repeated.
* `CallSite.link_eq_of_samePairs`: the order in which a summary lists its pairs does not matter.
-/

namespace Dangling

namespace PathState

/-- Joins the nodes of each pair, one pair after the other. -/
def joinAll (s : PathState) (pairs : List (NodeId × NodeId)) : PathState :=
  pairs.foldl (fun s p => s.join p.1 p.2) s

/-- Two nodes are of one class, or a pair. -/
def Tied (s : PathState) (pairs : List (NodeId × NodeId)) (i j : NodeId) : Prop :=
  j ∈ s.aliases i ∨ (i, j) ∈ pairs

/-- The class of a node has a node of a pair. -/
def Touched (s : PathState) (pairs : List (NodeId × NodeId)) (i : NodeId) : Prop :=
  ∃ p ∈ pairs, p.1 ∈ s.aliases i ∨ p.2 ∈ s.aliases i

/-- The same nodes are paired, in whatever order and direction, and however often. -/
def SamePairs (ps qs : List (NodeId × NodeId)) : Prop :=
  ∀ a b, ((a, b) ∈ ps ∨ (b, a) ∈ ps) ↔ ((a, b) ∈ qs ∨ (b, a) ∈ qs)

variable {s : PathState} {ps qs : List (NodeId × NodeId)} {a b i j : NodeId} {n : Nat}

/-! ### One join -/

/-- Two nodes share a class after a join if they did before or both are in it. -/
theorem Partitioned.mem_aliases_join (h : s.Partitioned) :
    j ∈ (s.join a b).aliases i ↔ j ∈ s.aliases i ∨ i ∈ s.merged a b ∧ j ∈ s.merged a b := by
  rw [h.aliases_join]
  split
  case isTrue hi =>
    refine ⟨fun hj => .inr ⟨hi, hj⟩, ?_⟩
    rintro (hj | ⟨-, hj⟩)
    · exact h.mem_merged_of_mem hi hj
    · exact hj
  case isFalse hi =>
    refine ⟨.inl, ?_⟩
    rintro (hj | ⟨hin, -⟩)
    · exact hj
    · exact absurd hin hi

theorem Partitioned.tainted_join (h : s.Partitioned) :
    ((s.join a b).node i).tainted = true ↔
      (s.node i).tainted = true ∨
        i ∈ s.merged a b ∧ ∃ k ∈ s.merged a b, (s.node k).tainted = true := by
  rw [h.node_join]
  split
  case isTrue hi => simp [anyTainted, hi]
  case isFalse hi => simp [hi]

/-- What a join leaves of a node besides its class and its taint. -/
theorem node_join_rest (s : PathState) (a b i : NodeId) :
    ((s.join a b).node i).owned = (s.node i).owned ∧
      ((s.join a b).node i).fate = (s.node i).fate := by
  rw [node_join]
  split <;> exact ⟨rfl, rfl⟩

/-! ### Joins in turn -/

theorem joinAll_append (s : PathState) (ps qs : List (NodeId × NodeId)) :
    s.joinAll (ps ++ qs) = (s.joinAll ps).joinAll qs :=
  List.foldl_append

theorem joinAll_concat (s : PathState) (ps : List (NodeId × NodeId)) (p : NodeId × NodeId) :
    s.joinAll (ps ++ [p]) = (s.joinAll ps).join p.1 p.2 :=
  joinAll_append s ps [p]

/-- What every join keeps is kept by all of them. -/
theorem joinAll_keeps {P : PathState → Prop} (hstep : ∀ u a b, P u → P (u.join a b)) (h : P s)
    (ps : List (NodeId × NodeId)) : P (s.joinAll ps) :=
  List.foldlRecOn (motive := P) ps _ h fun u hu p _ => hstep u p.1 p.2 hu

@[simp] theorem size_joinAll (s : PathState) (ps : List (NodeId × NodeId)) :
    (s.joinAll ps).size = s.size :=
  joinAll_keeps (P := fun u => u.size = s.size) (fun u a b hu => (size_join u a b).trans hu) rfl ps

@[simp] theorem values_joinAll (s : PathState) (ps : List (NodeId × NodeId)) :
    (s.joinAll ps).values = s.values :=
  joinAll_keeps (P := fun u => u.values = s.values) (fun u a b hu => (values_join u a b).trans hu)
    rfl ps

/-- Joins change neither owners nor fates. -/
theorem node_joinAll_rest (s : PathState) (ps : List (NodeId × NodeId)) (i : NodeId) :
    ((s.joinAll ps).node i).owned = (s.node i).owned ∧
      ((s.joinAll ps).node i).fate = (s.node i).fate :=
  joinAll_keeps
    (P := fun u => (u.node i).owned = (s.node i).owned ∧ (u.node i).fate = (s.node i).fate)
    (fun u a b hu => ⟨(node_join_rest u a b i).1.trans hu.1, (node_join_rest u a b i).2.trans hu.2⟩)
    ⟨rfl, rfl⟩ ps

theorem Partitioned.joinAll (h : s.Partitioned) (ps : List (NodeId × NodeId)) :
    (s.joinAll ps).Partitioned :=
  joinAll_keeps (fun _ a b hu => hu.join a b) h ps

theorem Classified.joinAll (h : Classified n s) (ps : List (NodeId × NodeId)) :
    Classified n (s.joinAll ps) :=
  joinAll_keeps (fun _ a b hu => hu.apply (.join a b)) h ps

/-! ### Classes -/

/-- What is in one class stays in one class. -/
theorem Partitioned.mem_joinAll_of_mem (h : s.Partitioned) (hj : j ∈ s.aliases i)
    (ps : List (NodeId × NodeId)) : j ∈ (s.joinAll ps).aliases i :=
  (joinAll_keeps (P := fun u => u.Partitioned ∧ j ∈ u.aliases i)
    (fun _ a b hu => ⟨hu.1.join a b, hu.1.mem_aliases_join.mpr (.inl hu.2)⟩) ⟨h, hj⟩ ps).2

/-- A pair comes into one class. -/
theorem Partitioned.pair_mem_joinAll (h : s.Partitioned) (hab : (a, b) ∈ ps) (ha : a < s.size)
    (hb : b < s.size) : b ∈ (s.joinAll ps).aliases a := by
  obtain ⟨before, after, rfl⟩ := List.append_of_mem hab
  have hu : (s.joinAll before).Partitioned := h.joinAll before
  have hjoin : b ∈ ((s.joinAll before).join a b).aliases a := by
    refine hu.mem_aliases_join.mpr (.inr ⟨mem_merged.mpr (.inl ?_), mem_merged.mpr (.inr ?_)⟩)
    · exact hu.self a (by rwa [size_joinAll])
    · exact hu.self b (by rwa [size_joinAll])
  rw [joinAll_append]
  exact (hu.join a b).mem_joinAll_of_mem hjoin after

/-- Joins bring together only what is tied by old classes and pairs. -/
theorem Partitioned.eqvGen_of_mem_joinAll (h : s.Partitioned)
    (hj : j ∈ (s.joinAll ps).aliases i) : Relation.EqvGen (s.Tied ps) i j := by
  induction ps using List.reverseRecOn generalizing i j with
  | nil => exact .rel _ _ (.inl hj)
  | append_singleton ps p ih =>
      have hbefore : ∀ {i j}, j ∈ (s.joinAll ps).aliases i →
          Relation.EqvGen (s.Tied (ps ++ [p])) i j := fun hj =>
        Relation.EqvGen.mono (fun _ _ => Or.imp_right (List.mem_append_left [p])) _ _ (ih hj)
      have hpair : Relation.EqvGen (s.Tied (ps ++ [p])) p.1 p.2 :=
        .rel _ _ (.inr (List.mem_append_right ps (List.mem_singleton_self p)))
      -- all of the class that the last join makes is tied to the first node of its pair
      have hmerged : ∀ {k}, k ∈ (s.joinAll ps).merged p.1 p.2 →
          Relation.EqvGen (s.Tied (ps ++ [p])) p.1 k := by
        intro k hk
        rcases mem_merged.mp hk with hk | hk
        · exact hbefore hk
        · exact .trans _ _ _ hpair (hbefore hk)
      rw [joinAll_concat, (h.joinAll ps).mem_aliases_join] at hj
      rcases hj with hj | ⟨hi, hj⟩
      · exact hbefore hj
      · exact .trans _ _ _ (.symm _ _ (hmerged hi)) (hmerged hj)

/-- **The classes after joins are those of the equivalence that old classes and pairs generate.** -/
theorem Partitioned.mem_aliases_joinAll (h : s.Partitioned)
    (hps : ∀ p ∈ ps, p.1 < s.size ∧ p.2 < s.size) (hi : i < s.size) :
    j ∈ (s.joinAll ps).aliases i ↔ Relation.EqvGen (s.Tied ps) i j := by
  have hu : (s.joinAll ps).Partitioned := h.joinAll ps
  refine ⟨h.eqvGen_of_mem_joinAll, fun htied => ?_⟩
  have hclosed : i = j ∨ j ∈ (s.joinAll ps).aliases i := by
    clear hi
    induction htied with
    | rel i j hij =>
        rcases hij with hj | hpair
        · exact .inr (h.mem_joinAll_of_mem hj ps)
        · exact .inr (h.pair_mem_joinAll hpair (hps _ hpair).1 (hps _ hpair).2)
    | refl i => exact .inl rfl
    | symm i j _ ih => exact ih.imp Eq.symm hu.symm
    | trans i j k _ _ ih₁ ih₂ =>
        rcases ih₁ with rfl | hj
        · exact ih₂
        · rcases ih₂ with rfl | hk
          · exact .inr hj
          · exact .inr (hu.trans hj hk)
  rcases hclosed with rfl | hj
  · exact hu.self i (by rwa [size_joinAll])
  · exact hj

/-! ### Taint -/

/-- The class that a join makes is touched by its pair. -/
theorem Partitioned.touched_of_mem_merged (h : s.Partitioned) (hi : i ∈ s.merged a b) :
    a ∈ s.merged a b ∨ b ∈ s.merged a b := by
  rcases mem_merged.mp hi with hi | hi
  · exact .inl (mem_merged.mpr (.inl (h.self a (lt_of_mem_aliases hi))))
  · exact .inr (mem_merged.mpr (.inr (h.self b (lt_of_mem_aliases hi))))

/-- Another class is not. -/
theorem Partitioned.not_touched_of_not_mem_merged (h : s.Partitioned) (hi : i ∉ s.merged a b) :
    a ∉ s.aliases i ∧ b ∉ s.aliases i :=
  ⟨fun ha => hi (mem_merged.mpr (.inl (h.symm ha))),
    fun hb => hi (mem_merged.mpr (.inr (h.symm hb)))⟩

/-- **A node is tainted after joins iff it was before, or a pair touches its class in the end and
one node of this class was.** -/
theorem Partitioned.tainted_joinAll (h : s.Partitioned) (ps : List (NodeId × NodeId)) (i : NodeId) :
    ((s.joinAll ps).node i).tainted = true ↔
      (s.node i).tainted = true ∨
        (s.joinAll ps).Touched ps i ∧
          ∃ j ∈ (s.joinAll ps).aliases i, (s.node j).tainted = true := by
  induction ps using List.reverseRecOn generalizing i with
  | nil =>
      refine ⟨.inl, ?_⟩
      rintro (hi | ⟨⟨p, hp, -⟩, -⟩)
      · exact hi
      · exact absurd hp List.not_mem_nil
  | append_singleton ps p ih =>
      have hu : (s.joinAll ps).Partitioned := h.joinAll ps
      rw [joinAll_concat, hu.tainted_join]
      generalize hM : (s.joinAll ps).merged p.1 p.2 = M
      by_cases hi : i ∈ M
      · -- the last join makes the class of `i`
        have hclass : ((s.joinAll ps).join p.1 p.2).aliases i = M := by
          rw [hu.aliases_join, hM, if_pos hi]
        have htouched : ((s.joinAll ps).join p.1 p.2).Touched (ps ++ [p]) i := by
          refine ⟨p, List.mem_append_right ps (List.mem_singleton_self p), ?_⟩
          rw [hclass, ← hM]
          exact hu.touched_of_mem_merged (hM ▸ hi)
        -- taint that a node of the class got by earlier joins comes from within the class
        have hsome : (∃ k ∈ M, ((s.joinAll ps).node k).tainted = true) ↔
            ∃ k ∈ M, (s.node k).tainted = true := by
          constructor
          · rintro ⟨k, hk, htainted⟩
            rcases (ih k).mp htainted with htainted | ⟨-, j, hj, htainted⟩
            · exact ⟨k, hk, htainted⟩
            · subst hM
              exact ⟨j, hu.mem_merged_of_mem hk hj, htainted⟩
          · rintro ⟨k, hk, htainted⟩
            exact ⟨k, hk, (ih k).mpr (.inl htainted)⟩
        rw [hclass, ← hsome]
        constructor
        · rintro (htainted | ⟨-, hany⟩)
          · exact .inr ⟨htouched, i, hi, htainted⟩
          · exact .inr ⟨htouched, hany⟩
        · rintro (htainted | ⟨-, hany⟩)
          · exact .inl ((ih i).mpr (.inl htainted))
          · exact .inr ⟨hi, hany⟩
      · -- the last join leaves the class of `i` alone
        have hclass : ((s.joinAll ps).join p.1 p.2).aliases i = (s.joinAll ps).aliases i := by
          rw [hu.aliases_join, hM, if_neg hi]
        have htouched : ((s.joinAll ps).join p.1 p.2).Touched (ps ++ [p]) i ↔
            (s.joinAll ps).Touched ps i := by
          obtain ⟨hfirst, hsecond⟩ := hu.not_touched_of_not_mem_merged (hM ▸ hi)
          simp [Touched, hclass, or_and_right, exists_or, hfirst, hsecond]
        rw [hclass, htouched, ← ih i]
        exact ⟨fun htainted => htainted.resolve_right fun hin => hi hin.1, .inl⟩

/-! ### Order -/

namespace SamePairs

theorem symm (h : SamePairs ps qs) : SamePairs qs ps := fun a b => (h a b).symm

/-- A pair may stand the other way round. -/
theorem of_mem (h : SamePairs ps qs) {p : NodeId × NodeId} (hp : p ∈ ps) :
    p ∈ qs ∨ (p.2, p.1) ∈ qs :=
  (h p.1 p.2).mp (.inl hp)

/-- What holds of the nodes of all pairs, in both directions, holds of the same pairs. -/
theorem forall_mem (h : SamePairs ps qs) {P : NodeId → Prop} (hps : ∀ p ∈ ps, P p.1 ∧ P p.2) :
    ∀ p ∈ qs, P p.1 ∧ P p.2 := by
  intro p hp
  rcases h.symm.of_mem hp with hp | hp
  · exact hps p hp
  · exact (hps _ hp).symm

/-- The same pairs tie the same nodes. -/
theorem eqvGen (h : SamePairs ps qs) (hij : Relation.EqvGen (s.Tied ps) i j) :
    Relation.EqvGen (s.Tied qs) i j := by
  induction hij with
  | rel i j hij =>
      rcases hij with hj | hpair
      · exact .rel _ _ (.inl hj)
      · rcases h.of_mem hpair with hpair | hpair
        · exact .rel _ _ (.inr hpair)
        · exact .symm _ _ (.rel _ _ (.inr hpair))
  | refl i => exact .refl i
  | symm i j _ ih => exact .symm _ _ ih
  | trans i j k _ _ ih₁ ih₂ => exact .trans _ _ _ ih₁ ih₂

theorem touched (h : SamePairs ps qs) (hi : s.Touched ps i) : s.Touched qs i := by
  obtain ⟨p, hp, hmem⟩ := hi
  rcases h.of_mem hp with hp | hp
  · exact ⟨p, hp, hmem⟩
  · exact ⟨_, hp, hmem.symm⟩

end SamePairs

/-- States that know the same of all their nodes are the same. -/
theorem eq_of_node {u u' : PathState} (hsize : u.size = u'.size)
    (hnode : ∀ i < u.size, u.node i = u'.node i) (hvalues : u.values = u'.values) : u = u' := by
  obtain ⟨nodes, values⟩ := u
  obtain ⟨nodes', values'⟩ := u'
  obtain rfl : values = values' := hvalues
  have hnodes : nodes = nodes' := by
    refine Array.ext hsize fun i hi hi' => ?_
    have hi₁ : PathState.node ⟨nodes, values⟩ i = nodes[i] := by
      rw [node_eq, Array.getElem?_eq_getElem hi]
      rfl
    have hi₂ : PathState.node ⟨nodes', values⟩ i = nodes'[i] := by
      rw [node_eq, Array.getElem?_eq_getElem hi']
      rfl
    rw [← hi₁, ← hi₂]
    exact hnode i hi
  rw [hnodes]

/-- A class is listed in one way only. -/
theorem Classified.aliases_eq {u u' : PathState} (h : Classified n u) (h' : Classified n u')
    (hmem : ∀ j, j ∈ u.aliases i ↔ j ∈ u'.aliases i) : u.aliases i = u'.aliases i := by
  have hnodup : ∀ {u : PathState}, Classified n u → (u.aliases i).Nodup := fun hu =>
    (hu.ascending i).imp Nat.ne_of_lt
  refine List.Perm.eq_of_pairwise (fun x y _ _ hxy hyx => absurd hxy (Nat.lt_asymm hyx))
    (h.ascending i) (h'.ascending i) ?_
  exact (List.perm_ext_iff_of_nodup (hnodup h) (hnodup h')).mpr hmem

/-- **The order of joins does not matter, nor the direction of a pair or its repetition.** -/
theorem Classified.joinAll_congr (h : Classified n s) (hps : ∀ p ∈ ps, p.1 < n ∧ p.2 < n)
    (hsame : SamePairs ps qs) : s.joinAll ps = s.joinAll qs := by
  obtain rfl := h.size
  have hqs := hsame.forall_mem (P := fun i => i < s.size) hps
  refine eq_of_node (by simp) (fun i hi => ?_) (by simp)
  rw [size_joinAll] at hi
  have haliases : (s.joinAll ps).aliases i = (s.joinAll qs).aliases i := by
    refine (h.joinAll ps).aliases_eq (h.joinAll qs) fun j => ?_
    rw [h.partitioned.mem_aliases_joinAll hps hi, h.partitioned.mem_aliases_joinAll hqs hi]
    exact ⟨hsame.eqvGen, hsame.symm.eqvGen⟩
  have htouched : (s.joinAll ps).Touched ps i ↔ (s.joinAll qs).Touched qs i := by
    have hclass : ∀ rs, (s.joinAll ps).Touched rs i ↔ (s.joinAll qs).Touched rs i := fun rs => by
      simp only [Touched, haliases]
    exact ⟨fun ht => (hclass qs).mp (hsame.touched ht),
      fun ht => (hclass ps).mpr (hsame.symm.touched ht)⟩
  have htainted : ((s.joinAll ps).node i).tainted = ((s.joinAll qs).node i).tainted := by
    rw [Bool.eq_iff_iff, h.partitioned.tainted_joinAll, h.partitioned.tainted_joinAll, htouched,
      haliases]
  obtain ⟨howned, hfate⟩ := node_joinAll_rest s ps i
  obtain ⟨howned', hfate'⟩ := node_joinAll_rest s qs i
  exact NodeState.ext (howned.trans howned'.symm) (hfate.trans hfate'.symm) htainted haliases

/-- **Joins commute.**  Over any classes that form a partition, whatever is tainted,

* the same pairs in another order, turned round or repeated, lead to the same state;
* its classes are those of the equivalence that the old classes and the pairs generate;
* a node is tainted in it iff it was before, or a pair touches its class and a node of this class
  was;
* nothing else is changed. -/
theorem joins_commute {n : Nat} {s : PathState} (h : Classified n s) (ps : List (NodeId × NodeId))
    (hps : ∀ p ∈ ps, p.1 < n ∧ p.2 < n) :
    (∀ qs, SamePairs ps qs → s.joinAll qs = s.joinAll ps) ∧
      (∀ i < n, ∀ j, j ∈ (s.joinAll ps).aliases i ↔ Relation.EqvGen (s.Tied ps) i j) ∧
      (∀ i, ((s.joinAll ps).node i).tainted = true ↔
        (s.node i).tainted = true ∨
          (s.joinAll ps).Touched ps i ∧
            ∃ j ∈ (s.joinAll ps).aliases i, (s.node j).tainted = true) ∧
      (∀ i, ((s.joinAll ps).node i).owned = (s.node i).owned ∧
        ((s.joinAll ps).node i).fate = (s.node i).fate) ∧
      (s.joinAll ps).values = s.values := by
  refine ⟨fun qs hsame => (h.joinAll_congr hps hsame).symm, fun i hi j => ?_,
    h.partitioned.tainted_joinAll ps, node_joinAll_rest s ps, values_joinAll s ps⟩
  obtain rfl := h.size
  exact h.partitioned.mem_aliases_joinAll hps hi

/-- Two classes of two nodes, in each of which one node alone is tainted, and three more nodes. -/
def dented : PathState :=
  [Write.join 0 1, .markDropped [0] 0 none true, .join 5 6, .markDropped [5] 5 none true].foldl
    Write.apply (initial 7)

/-- Taint comes to what is joined with a class, however late, and stays within the other class. -/
theorem dented_joins_commute :
    Classified 7 dented ∧
      dented.joinAll [(4, 3), (2, 1), (3, 2), (1, 2)] = dented.joinAll [(1, 2), (2, 3), (3, 4)] ∧
      Relation.EqvGen (dented.Tied [(1, 2), (2, 3), (3, 4)]) 0 4 ∧
      ((dented.joinAll [(1, 2), (2, 3), (3, 4)]).node 4).tainted = true ∧
      ((dented.joinAll [(1, 2), (2, 3), (3, 4)]).node 5).tainted = true ∧
      ((dented.joinAll [(1, 2), (2, 3), (3, 4)]).node 6).tainted = false := by
  have hdented : Classified 7 dented :=
    List.foldlRecOn (motive := Classified 7) _ Write.apply (classified_initial 7)
      fun _ hu w _ => hu.apply w
  obtain ⟨horder, hclasses, htaint, -⟩ :=
    joins_commute hdented [(1, 2), (2, 3), (3, 4)] (by simp)
  refine ⟨hdented, horder _ fun a b => ?_, (hclasses 0 (by decide) 4).mp (by decide),
    (htaint 4).mpr (.inr ⟨⟨(3, 4), by simp, .inr (by decide)⟩, 0, by decide, rfl⟩), rfl, rfl⟩
  simp only [List.mem_cons, Prod.mk.injEq, List.not_mem_nil]
  grind

end PathState

/-! ### Summaries -/

namespace CallSite

open PathState (SamePairs Classified)

variable {t : NodeTable} {c c' : CallSite} {dest : NodeId} {s : PathState} {sum sum' : Summary}

/-- The nodes that the pairs of a summary stand for, as far as they differ. -/
def slotPairs (t : NodeTable) (c : CallSite) (dest : NodeId) (aliases : List AliasPair) :
    List (NodeId × NodeId) :=
  aliases.filterMap fun pair =>
    (c.slotNode t dest pair.1).bind fun a =>
      (c.slotNode t dest pair.2).bind fun b => if a = b then none else some (a, b)

/-- A summarised call joins the nodes of its pairs. -/
theorem link_eq_joinAll (hc : c.effect = .summarised sum) (s : PathState) :
    c.link t dest s = s.joinAll (c.slotPairs t dest sum.aliases) := by
  have hfold : ∀ (aliases : List AliasPair) (s : PathState),
      aliases.foldl (c.joinSlots t dest) s = s.joinAll (c.slotPairs t dest aliases) := by
    intro aliases
    induction aliases with
    | nil => exact fun _ => rfl
    | cons pair aliases ih =>
        intro s
        rw [List.foldl_cons, ih]
        simp only [slotPairs, List.filterMap_cons, joinSlots]
        cases c.slotNode t dest pair.1 with
        | none => rfl
        | some a =>
            cases c.slotNode t dest pair.2 with
            | none => rfl
            | some b =>
                by_cases hab : a = b
                · simp [hab]
                · simp [hab, PathState.joinAll]
  rw [link, hc]
  exact hfold sum.aliases s

/-- **The order in which a summary lists its pairs does not matter.** -/
theorem link_eq_of_samePairs {n : Nat} (h : Classified n s) (hc : c.effect = .summarised sum)
    (hc' : c'.effect = .summarised sum')
    (hrange : ∀ p ∈ c.slotPairs t dest sum.aliases, p.1 < n ∧ p.2 < n)
    (hsame : SamePairs (c.slotPairs t dest sum.aliases) (c'.slotPairs t dest sum'.aliases)) :
    c.link t dest s = c'.link t dest s := by
  rw [link_eq_joinAll hc, link_eq_joinAll hc', h.joinAll_congr hrange hsame]

end CallSite

end Dangling
