import Dangling.Proofs.Path.Classes

/-!
# Proofs — Path — Writes

Path states under writes in any order, to any of several copies.  Whatever is written, the classes of
every copy form a partition: a join makes one class of two, forgotten nodes become classes of their
own, and no other write touches a class.

* `PathState.Write`, `PathState.Command`: the writes to a state, and to one of several.
* `PathState.Classified`: the classes form a partition, each listed in ascending order; kept by every
  write (`PathState.Classified.apply`).
* `PathState.classes_form_partition`: the classes after any commands, and after one more write.
-/

namespace Dangling.PathState

/-- A write to a path state. -/
inductive Write where
  | join (a b : NodeId)
  | kill (ids : List NodeId)
  | taint (n : NodeId)
  | markDropped (ids : List NodeId) (origin : NodeId) (loc : Option Location) (manual : Bool)
  | setOwned (n : NodeId) (owned : Bool)
  | setKnown (n : NodeId) (v : Scalar)

namespace Write

/-- The state after a write. -/
def apply (s : PathState) : Write → PathState
  | join a b => s.join a b
  | kill ids => s.kill ids
  | taint n => s.taint n
  | markDropped ids origin loc manual => s.markDropped ids origin loc manual
  | setOwned n owned => s.setOwned n owned
  | setKnown n v => s.setKnown n v

/-- The classes of `s'` are what a write makes of those of `s`. -/
def Reclasses (s s' : PathState) : Write → Prop
  | join a b => ∀ i < s.size, s'.aliases i =
      if i ∈ s.aliases a ∨ i ∈ s.aliases b then s.merged a b else s.aliases i
  | kill ids => ∀ i < s.size, s'.aliases i =
      if i ∈ ids then [i] else (s.aliases i).filter (· ∉ ids)
  | taint _ | markDropped _ _ _ _ | setOwned _ _ | setKnown _ _ => ∀ i, s'.aliases i = s.aliases i

end Write

/-- A write to one of several states, by its position, or a copy of one, which comes last. -/
inductive Command where
  | write (i : Nat) (w : Write)
  | copy (i : Nat)

/-- The states after a command. -/
def Command.apply (states : List PathState) : Command → List PathState
  | write i w => states.modify i w.apply
  | copy i => states ++ states[i]?.toList

/-! ### Classes -/

/-- The classes of `n` nodes form a partition, and each is listed in ascending order. -/
structure Classified (n : Nat) (s : PathState) : Prop where
  size : s.size = n
  partitioned : s.Partitioned
  ascending : ∀ i, (s.aliases i).Pairwise (· < ·)

variable {n : Nat} {s : PathState}

theorem classified_initial (n : Nat) : Classified n (initial n) := by
  have hsize := size_initial n
  refine ⟨hsize, partitioned_initial n, fun i => ?_⟩
  rcases Nat.lt_or_ge i n with hi | hi
  · rw [aliases, node_initial hi]
    exact List.pairwise_singleton _ _
  · rw [aliases_of_size_le (hsize.symm ▸ hi)]
    exact .nil

theorem pairwise_merged (h : Classified n s) (a b : NodeId) :
    (s.merged a b).Pairwise (· < ·) :=
  (Sorted.pairwise_union _ ((h.ascending a).imp Nat.compare_eq_lt.mpr)).imp Nat.compare_eq_lt.mp

/-- A write makes of the classes what it says. -/
theorem Partitioned.reclasses (h : s.Partitioned) (w : Write) : w.Reclasses s (w.apply s) := by
  cases w with
  | join a b =>
      intro i _
      simp only [Write.apply, h.aliases_join, mem_merged]
  | kill ids => exact fun i hi => h.aliases_kill ids hi
  | taint n => exact aliases_taint s n
  | markDropped ids origin loc manual => exact aliases_markDropped s ids origin loc manual
  | setOwned n owned => exact aliases_update s n fun _ => rfl
  | setKnown n v => exact fun _ => rfl

theorem Partitioned.write (h : s.Partitioned) (w : Write) : (w.apply s).Partitioned := by
  cases w with
  | join a b => exact h.join a b
  | kill ids => exact h.kill ids
  | taint n => exact h.apply (.taint n)
  | markDropped ids origin loc manual => exact h.apply (.release ids origin loc manual)
  | setOwned n owned => exact h.apply (.own n owned)
  | setKnown n v => exact h.apply (.learn n (some v))

theorem Write.size_apply (w : Write) (s : PathState) : (w.apply s).size = s.size := by
  cases w with
  | join a b => exact size_join s a b
  | kill ids => exact size_kill s ids
  | taint n => exact size_taint s n
  | markDropped ids origin loc manual => exact size_markDropped s ids origin loc manual
  | setOwned n owned => exact size_update s n _
  | setKnown n v => rfl

/-- **Every write keeps a partition.** -/
theorem Classified.apply (h : Classified n s) (w : Write) : Classified n (w.apply s) := by
  refine ⟨(w.size_apply s).trans h.size, h.partitioned.write w, fun i => ?_⟩
  rcases Nat.lt_or_ge i (w.apply s).size with hi | hi
  · rw [w.size_apply] at hi
    -- what the write says of the classes tells how they are listed
    have hre := h.partitioned.reclasses w
    cases w with
    | join a b =>
        rw [hre i hi]
        split
        · exact pairwise_merged h a b
        · exact h.ascending i
    | kill ids =>
        rw [hre i hi]
        split
        · exact List.pairwise_singleton _ _
        · exact (h.ascending i).filter _
    | taint _ | markDropped _ _ _ _ | setOwned _ _ | setKnown _ _ =>
        rw [hre i]
        exact h.ascending i
  · rw [aliases_of_size_le hi]
    exact .nil

/-- What holds of every state before a command, and is kept by writes, holds of every state after
it. -/
theorem Command.classified_apply {states : List PathState} (h : ∀ s ∈ states, Classified n s)
    (c : Command) : ∀ s ∈ c.apply states, Classified n s := by
  cases c with
  | write i w =>
      intro s hs
      obtain ⟨j, hj, rfl⟩ := List.mem_iff_getElem.mp hs
      simp only [Command.apply, List.getElem_modify]
      split
      · exact (h _ (List.getElem_mem _)).apply w
      · exact h _ (List.getElem_mem _)
  | copy i =>
      intro s hs
      rcases List.mem_append.mp hs with hs | hs
      · exact h s hs
      · exact h s (List.mem_of_getElem? (Option.mem_toList.mp hs))

/-- **The classes form a partition after any commands**, to whichever copies they are given, and one
more write makes of them what it says. -/
theorem classes_form_partition (n : Nat) (commands : List Command) (s : PathState)
    (hs : s ∈ commands.foldl Command.apply [initial n]) :
    s.size = n ∧ (∀ i < n, i ∈ s.aliases i) ∧
      (∀ i j k, i ∈ s.aliases k → j ∈ s.aliases k → s.aliases i = s.aliases j) ∧
      (∀ i m, m ∈ s.aliases i → i < n ∧ m < n) ∧
      (∀ i, (s.aliases i).Pairwise (· < ·)) ∧
      (∀ a b m, m ∈ s.merged a b ↔ m ∈ s.aliases a ∨ m ∈ s.aliases b) ∧
      ∀ w : Write, w.Reclasses s (w.apply s) := by
  have hall : ∀ s ∈ commands.foldl Command.apply [initial n], Classified n s :=
    List.foldlRecOn (motive := fun states => ∀ s ∈ states, Classified n s) commands _
      (by simpa using classified_initial n) fun _ h c _ => c.classified_apply h
  obtain ⟨hsize, h, hascending⟩ := hall s hs
  subst hsize
  refine ⟨rfl, h.self, fun i j k hi hj => ?_, fun i m hm => ⟨lt_of_mem_aliases hm, h.lt hm⟩, hascending,
    fun _ _ _ => mem_merged, h.reclasses⟩
  rw [h.same hi, h.same hj]

/-- Of four nodes three are joined; then one of two copies forgets two of these, and joins a third
with the fourth. -/
def parting : List Command :=
  [.write 0 (.join 0 1), .write 0 (.join 2 1), .write 0 (.taint 2), .copy 0,
    .write 1 (.kill [1, 0, 1]), .write 0 (.setOwned 0 true), .write 1 (.join 3 2)]

theorem parting_forms_partition :
    ∃ s u, parting.foldl Command.apply [initial 4] = [s, u] ∧
      s.aliases 1 = [0, 1, 2] ∧ u.aliases 1 = [1] ∧ u.aliases 3 = [2, 3] ∧
      (∀ i < 4, i ∈ u.aliases i) ∧
      (∀ i j k, i ∈ u.aliases k → j ∈ u.aliases k → u.aliases i = u.aliases j) ∧
      ∀ w : Write, w.Reclasses u (w.apply u) := by
  refine ⟨_, _, rfl, rfl, rfl, rfl, ?_⟩
  obtain ⟨-, hself, hsame, -, -, -, hwrite⟩ := classes_form_partition 4 parting _
    (List.mem_cons_of_mem _ List.mem_cons_self)
  exact ⟨hself, hsame, hwrite⟩

end Dangling.PathState
