import Dangling.Proofs.Path.Classes

/-!
# Proofs — Path — Released

Which nodes are released after each act, and when that is known under all names of the memory.  A
join of two classes does not compare their fates, so it keeps the rule only where they are the same; a
move takes the fate along, so it keeps the rule where nothing else names the node that is moved into.

* `PathState.Coherent`: all names of released memory are released; `PathState.Sound`: and the classes
  form a partition.
* `PathState.Agrees`: two states do not differ in classes and releases.
* `PathState.Sound.join`, `PathState.Sound.kill`, `PathState.Sound.moveInto`: joins of classes with
  one fate, overwritten nodes, and moves into them.
-/

namespace Dangling

/-- The act touches neither classes nor releases. -/
inductive Act.Idle : Act → Prop where
  | own {n : NodeId} {owned : Bool} : Idle (.own n owned)
  | leave {n : NodeId} : Idle (.leave n)
  | learn {n : NodeId} {v : Option Scalar} : Idle (.learn n v)
  | taint {n : NodeId} : Idle (.taint n)

namespace PathState

variable {s s' : PathState} {t : NodeTable} {a b n m dest src : NodeId}

/-! ### What is released -/

/-- Outside of the state nothing is released. -/
theorem isDropped_of_size_le (h : s.size ≤ n) : s.isDropped n = false := by
  rw [isDropped, node_of_size_le h]
  rfl

/-- A change that releases nothing and forgets no release. -/
theorem isDropped_update (s : PathState) (id : NodeId) {f : NodeState → NodeState}
    (hf : ∀ x, (f x).isDropped = x.isDropped) (n : NodeId) :
    (s.update id f).isDropped n = s.isDropped n := by
  rw [isDropped, node_update]
  split
  · exact hf _
  · rfl

/-- What is taken out stays released, if it was. -/
theorem isDropped_leave (x : NodeState) : x.leave.isDropped = x.isDropped := by
  obtain ⟨owned, fate, tainted, aliases⟩ := x
  cases fate <;> rfl

/-- The destination of a move is released as its source is. -/
theorem isDropped_inherit (s : PathState) (dest src n : NodeId) :
    (s.inherit dest src).isDropped n =
      if n = dest ∧ n < s.size then s.isDropped src else s.isDropped n := by
  rw [isDropped, inherit, node_update]
  split <;> rfl

@[simp] theorem isDropped_join (s : PathState) (a b n : NodeId) :
    (s.join a b).isDropped n = s.isDropped n := by
  rw [isDropped, node_join]
  split <;> rfl

@[simp] theorem isDropped_setKnown? (s : PathState) (id : NodeId) (v : Option Scalar) (n : NodeId) :
    (s.setKnown? id v).isDropped n = s.isDropped n := by
  rw [isDropped, node_setKnown?]
  rfl

/-- What is forgotten counts as not released. -/
theorem isDropped_forget (s : PathState) (id n : NodeId) :
    (s.forget id).isDropped n = if n = id then false else s.isDropped n := by
  by_cases hn : n < s.size
  · rw [isDropped, node_forget]
    by_cases e : n = id
    · rw [if_pos ⟨e, hn⟩, if_pos e]
      rfl
    · rw [if_neg fun h => e h.1, if_neg e]
      split <;> rfl
  · rw [isDropped_of_size_le (by rw [size_forget]; exact Nat.not_lt.mp hn),
      isDropped_of_size_le (Nat.not_lt.mp hn), ite_self]

/-- A drop releases the nodes it names, and no other. -/
theorem isDropped_markDropped (s : PathState) (ids : List NodeId) (origin : NodeId)
    (loc : Option Location) (manual : Bool) (n : NodeId) :
    (s.markDropped ids origin loc manual).isDropped n =
      (decide (n ∈ ids ∧ n < s.size) || s.isDropped n) := by
  rw [isDropped, node_markDropped]
  by_cases h : n ∈ ids ∧ n < s.size
  · rw [if_pos h, decide_eq_true h]
    rfl
  · rw [if_neg h, decide_eq_false h]
    rfl

/-! ### States that agree -/

/-- Two states have the same classes and the same released nodes. -/
structure Agrees (s s' : PathState) : Prop where
  size : s'.size = s.size
  aliases : ∀ n, s'.aliases n = s.aliases n
  dropped : ∀ n, s'.isDropped n = s.isDropped n

theorem Agrees.refl (s : PathState) : s.Agrees s := ⟨rfl, fun _ => rfl, fun _ => rfl⟩

/-- One change after another. -/
theorem Agrees.trans {s'' : PathState} (h : s.Agrees s') (h' : s'.Agrees s'') : s.Agrees s'' :=
  ⟨h'.size.trans h.size, fun n => (h'.aliases n).trans (h.aliases n),
    fun n => (h'.dropped n).trans (h.dropped n)⟩

/-- A change that keeps classes and releases. -/
theorem agrees_update (s : PathState) (id : NodeId) {f : NodeState → NodeState}
    (ha : ∀ x, (f x).aliases = x.aliases) (hd : ∀ x, (f x).isDropped = x.isDropped) :
    s.Agrees (s.update id f) :=
  ⟨size_update s id f, aliases_update s id ha, isDropped_update s id hd⟩

/-- An idle act is such a change. -/
theorem agrees_idle (s : PathState) {a : Act} (h : a.Idle) : s.Agrees (a.apply s) := by
  cases h with
  | own => exact agrees_update s _ (fun _ => rfl) fun _ => rfl
  | leave => exact agrees_update s _ (fun _ => rfl) isDropped_leave
  | @learn n v => exact ⟨size_setKnown? s n v, aliases_setKnown? s n v, isDropped_setKnown? s n v⟩
  | @taint n =>
      refine ⟨size_taint s n, aliases_taint s n, fun m => ?_⟩
      rw [Act.apply, isDropped, node_taint]
      split <;> rfl

/-- So is a course of idle acts. -/
theorem agrees_course (h : Course Act.Idle s s') : s.Agrees s' :=
  h.keeps (P := fun u => s.Agrees u) (fun u _ ha hu => hu.trans (agrees_idle u ha)) (.refl s)

/-! ### Coherence -/

/-- Released memory is released under all its names. -/
def Coherent (s : PathState) : Prop :=
  ∀ n m, m ∈ s.aliases n → s.isDropped n = true → s.isDropped m = true

/-- The classes form a partition, and releases are coherent. -/
structure Sound (s : PathState) : Prop where
  classes : s.Partitioned
  coherent : s.Coherent

/-- Whether classes are released alike is told by classes and releases. -/
theorem Agrees.sound (h : s.Agrees s') (hs : s.Sound) : s'.Sound := by
  refine ⟨hs.classes.congr h.size h.aliases, fun n m hm hd => ?_⟩
  rw [h.aliases] at hm
  rw [h.dropped] at hd ⊢
  exact hs.coherent n m hm hd

namespace Sound

/-- The names of a node are released or not as the node is. -/
theorem isDropped_eq (h : s.Sound) (hm : m ∈ s.aliases n) : s.isDropped m = s.isDropped n :=
  Bool.eq_iff_iff.mpr ⟨h.coherent m n (h.classes.symm hm), h.coherent n m hm⟩

/-- The node that is forgotten is alone afterwards. -/
theorem forget (h : s.Sound) (id : NodeId) : (s.forget id).Sound := by
  refine ⟨h.classes.forget id, fun n m hm hd => ?_⟩
  rw [h.classes.aliases_forget] at hm
  rw [isDropped_forget] at hd ⊢
  split at hd
  · exact nomatch hd
  case isFalse hn =>
    rw [if_neg fun e => hn e.1] at hm
    obtain ⟨hm, hid⟩ := List.mem_filter.mp hm
    rw [if_neg (of_decide_eq_true hid)]
    exact h.coherent n m hm hd

/-- Two classes with one fate may be joined. -/
theorem join (h : s.Sound) (hab : ∀ x ∈ s.aliases a, ∀ y ∈ s.aliases b,
    s.isDropped x = s.isDropped y) : (s.join a b).Sound := by
  refine ⟨h.classes.join a b, fun n m hm hd => ?_⟩
  rw [h.classes.aliases_join] at hm
  rw [isDropped_join] at hd ⊢
  split at hm
  case isFalse => exact h.coherent n m hm hd
  case isTrue hn =>
    rcases mem_merged.mp hn with hn | hn <;> rcases mem_merged.mp hm with hm | hm
    · exact h.coherent n m ((h.classes.same hn).symm ▸ hm) hd
    · rw [← hab n hn m hm, hd]
    · rw [hab m hm n hn, hd]
    · exact h.coherent n m ((h.classes.same hn).symm ▸ hm) hd

/-- Two nodes with one fate may be joined. -/
theorem join_nodes (h : s.Sound) (hab : s.isDropped a = s.isDropped b) : (s.join a b).Sound :=
  h.join fun x hx y hy => by rw [h.isDropped_eq hx, hab, h.isDropped_eq hy]

end Sound

/-! ### Overwritten nodes -/

/-- Nothing else names the memory of the node. -/
def Alone (s : PathState) (n : NodeId) : Prop := ∀ m ∈ s.aliases n, m = n

theorem Agrees.alone (h : s.Agrees s') (hn : s.Alone n) : s'.Alone n := fun m hm =>
  hn m (h.aliases n ▸ hm)

/-- A forgotten node is alone, and others stay so. -/
theorem Partitioned.alone_forget (h : s.Partitioned) (id : NodeId) (hn : s.Alone n ∨ n = id) :
    (s.forget id).Alone n := by
  intro m hm
  rw [h.aliases_forget] at hm
  split at hm
  case isTrue e => rw [List.mem_singleton.mp hm, e.1]
  case isFalse hne =>
    obtain ⟨hmem, -⟩ := List.mem_filter.mp hm
    rcases hn with hn | e
    · exact hn m hmem
    · exact absurd ⟨e, lt_of_mem_aliases hmem⟩ hne

/-- Overwritten nodes are alone and live; the others keep their fate. -/
theorem Sound.kill (ids : List NodeId) : ∀ {s : PathState}, s.Sound →
    (s.kill ids).Sound ∧ (∀ n, s.Alone n ∨ n ∈ ids → (s.kill ids).Alone n) ∧
      ∀ n, (s.kill ids).isDropped n = if n ∈ ids then false else s.isDropped n := by
  induction ids with
  | nil =>
      intro s h
      exact ⟨h, fun n hn => hn.resolve_right List.not_mem_nil, fun n => rfl⟩
  | cons id ids ih =>
      intro s h
      obtain ⟨hsound, halone, hdropped⟩ := ih (h.forget id)
      refine ⟨hsound, fun n hn => halone n ?_, fun n => (hdropped n).trans ?_⟩
      · rcases hn with hn | hn
        · exact .inl (h.classes.alone_forget id (.inl hn))
        · rcases List.mem_cons.mp hn with e | hn
          · exact .inl (h.classes.alone_forget id (.inr e))
          · exact .inr hn
      · rw [isDropped_forget]
        by_cases e : n = id <;> by_cases hn : n ∈ ids <;> simp [e, hn]

/-! ### Moves -/

/-- A move of a node, act by act. -/
theorem moveNode_eq (s : PathState) (dest src : NodeId) :
    s.moveNode dest src =
      (((s.inherit dest src).join dest src).setKnown? dest
        (((s.inherit dest src).join dest src).known src)).update src NodeState.leave := rfl

/-- Of the acts of a move only the join concerns classes. -/
theorem Partitioned.aliases_moveNode (h : s.Partitioned) (dest src n : NodeId) :
    (s.moveNode dest src).aliases n =
      if n ∈ s.merged dest src then s.merged dest src else s.aliases n := by
  have hinherit : ∀ n, (s.inherit dest src).aliases n = s.aliases n :=
    aliases_update s dest fun _ => rfl
  have hmerged : (s.inherit dest src).merged dest src = s.merged dest src := by
    rw [merged, merged, hinherit, hinherit]
  have hpart : (s.inherit dest src).Partitioned := h.apply (.inherit dest src)
  have hleave : ∀ x : NodeState, x.leave.aliases = x.aliases := fun _ => rfl
  rw [moveNode_eq, aliases_update _ src hleave, aliases_setKnown?, hpart.aliases_join, hmerged,
    hinherit]

/-- Of the acts of a move only the inheritance concerns releases. -/
theorem isDropped_moveNode (s : PathState) (dest src n : NodeId) :
    (s.moveNode dest src).isDropped n =
      if n = dest ∧ n < s.size then s.isDropped src else s.isDropped n := by
  rw [moveNode_eq, isDropped_update _ src isDropped_leave, isDropped_setKnown?, isDropped_join,
    isDropped_inherit]

theorem Partitioned.moveNode (h : s.Partitioned) (dest src : NodeId) :
    (s.moveNode dest src).Partitioned :=
  (((h.apply (.inherit dest src)).apply (.join dest src)).apply (.learn dest _)).apply (.leave src)

/-- A node is moved into one that nothing else names. -/
theorem Sound.moveNode (h : s.Sound) (hne : src ≠ dest) (hd : s.Alone dest) :
    (s.moveNode dest src).Sound := by
  have hsrc : dest ∉ s.aliases src := fun hm => hne (hd src (h.classes.symm hm))
  -- all that the joined class holds has the fate of `src`
  have hfate : ∀ n ∈ s.merged dest src, (s.moveNode dest src).isDropped n = s.isDropped src := by
    intro n hn
    rw [isDropped_moveNode]
    rcases mem_merged.mp hn with hn | hn
    · rw [hd n hn, if_pos ⟨rfl, lt_of_mem_aliases hn⟩]
    · have hnd : ¬(n = dest ∧ n < s.size) := fun e => hsrc (e.1 ▸ hn)
      rw [if_neg hnd, h.isDropped_eq hn]
  have hother : ∀ n, n ∉ s.merged dest src →
      (s.moveNode dest src).isDropped n = s.isDropped n := by
    intro n hn
    rw [isDropped_moveNode, if_neg]
    rintro ⟨rfl, hlt⟩
    exact hn (mem_merged.mpr (.inl (h.classes.self _ hlt)))
  refine ⟨h.classes.moveNode dest src, fun n m hm hdrop => ?_⟩
  rw [h.classes.aliases_moveNode] at hm
  split at hm
  case isTrue hn => rw [hfate m hm, ← hfate n hn, hdrop]
  case isFalse hn =>
    have hm' : m ∉ s.merged dest src := fun hmem => hn <| by
      rcases mem_merged.mp hmem with hmem | hmem
      · exact mem_merged.mpr (.inl (h.classes.trans hmem (h.classes.symm hm)))
      · exact mem_merged.mpr (.inr (h.classes.trans hmem (h.classes.symm hm)))
    rw [hother n hn] at hdrop
    rw [hother m hm']
    exact h.coherent n m hm hdrop

/-- A node that takes no part in a move stays alone. -/
theorem Partitioned.alone_moveNode (h : s.Partitioned) (hd : s.Alone dest) (hn : s.Alone n)
    (hdest : n ≠ dest) (hsrc : n ≠ src) : (s.moveNode dest src).Alone n := by
  intro m hm
  rw [h.aliases_moveNode, if_neg] at hm
  · exact hn m hm
  · intro hmem
    rcases mem_merged.mp hmem with hmem | hmem
    · exact hdest (hd n hmem)
    · exact hsrc (hn src (h.symm hmem)).symm

/-- Moves into different nodes that nothing else names, from elsewhere. -/
structure Movable (s : PathState) (pairs : List (NodeId × NodeId)) : Prop where
  distinct : (pairs.map (·.1)).Nodup
  elsewhere : ∀ x ∈ pairs, ∀ y ∈ pairs, x.2 ≠ y.1
  alone : ∀ x ∈ pairs, s.Alone x.1

/-- Moves, one after the other: the next destination is still alone. -/
theorem Sound.foldl_moveNode (pairs : List (NodeId × NodeId)) : ∀ {s : PathState}, s.Sound →
    s.Movable pairs →
    (pairs.foldl (fun s x => s.moveNode x.1 x.2) s).Sound ∧
      (∀ n ∉ pairs.map (·.1),
        (pairs.foldl (fun s x => s.moveNode x.1 x.2) s).isDropped n = s.isDropped n) ∧
      ∀ n ∉ pairs.map (·.1), n ∉ pairs.map (·.2) → s.Alone n →
        (pairs.foldl (fun s x => s.moveNode x.1 x.2) s).Alone n := by
  induction pairs with
  | nil => exact fun h _ => ⟨h, fun _ _ => rfl, fun _ _ _ hn => hn⟩
  | cons x pairs ih =>
      intro s h hmov
      obtain ⟨hx, hdistinct⟩ := List.nodup_cons.mp hmov.distinct
      have hself : x.2 ≠ x.1 := hmov.elsewhere x List.mem_cons_self x List.mem_cons_self
      have hd : s.Alone x.1 := hmov.alone x List.mem_cons_self
      have hrest : (s.moveNode x.1 x.2).Movable pairs := by
        refine ⟨hdistinct, fun y hy z hz => ?_, fun y hy => ?_⟩
        · exact hmov.elsewhere y (List.mem_cons_of_mem _ hy) z (List.mem_cons_of_mem _ hz)
        · refine h.classes.alone_moveNode hd (hmov.alone y (List.mem_cons_of_mem _ hy)) ?_ ?_
          · exact fun e => hx (List.mem_map.mpr ⟨y, hy, e⟩)
          · exact (hmov.elsewhere x List.mem_cons_self y (List.mem_cons_of_mem _ hy)).symm
      obtain ⟨hsound, hdropped, halone⟩ := ih (h.moveNode hself hd) hrest
      simp only [List.foldl_cons, List.map_cons, List.mem_cons, not_or]
      refine ⟨hsound, fun n hn => ?_, fun n hn hn' ha => ?_⟩
      · have hnd : ¬(n = x.1 ∧ n < s.size) := fun e => hn.1 e.1
        rw [hdropped n hn.2, isDropped_moveNode, if_neg hnd]
      · exact halone n hn.2 hn'.2 (h.classes.alone_moveNode hd ha hn.1 hn'.1)

/-- No node is moved into twice. -/
theorem nodup_moves (ht : t.Layered) (depth : Nat) :
    ∀ dest src, ((moves t depth dest src).map (·.1)).Nodup := by
  induction depth with
  | zero => exact fun _ _ => List.pairwise_singleton _ _
  | succ depth ih =>
      intro dest src
      rw [moves, List.map_cons, List.map_flatMap]
      -- the moves into the fields of `dest` stay below them
      have hbelow : ∀ (c : String × NodeId) (n : NodeId), n ∈ List.map (·.1)
          ((t.child? src c.1).toList.flatMap fun k => moves t depth c.2 k) →
            n ∈ t.subtreeWithin depth c.2 := by
        intro c n hn
        obtain ⟨x, hx, rfl⟩ := List.mem_map.mp hn
        obtain ⟨k, -, hx⟩ := List.mem_flatMap.mp hx
        exact (mem_moves hx).1
      refine List.nodup_cons.mpr ⟨fun hmem => ?_, List.pairwise_flatMap.mpr ⟨fun c _ => ?_, ?_⟩⟩
      · obtain ⟨c, hc, hn⟩ := List.mem_flatMap.mp hmem
        obtain ⟨room, hroomy⟩ := ht
        exact hroomy.not_below hc (hbelow c dest hn)
      · cases t.child? src c.1 with
        | none => exact List.nodup_nil
        | some k =>
            rw [Option.toList_some, List.flatMap_singleton]
            exact ih _ _
      · refine (ht.subtrees_apart dest depth).imp fun {c d} hapart n hn m hm => ?_
        rintro rfl
        exact hapart n (hbelow c n hn) (hbelow d n hm)

/-- A value is moved into nodes that nothing else names, from outside of them. -/
theorem Sound.moveInto (ht : t.Layered) (h : s.Sound) (hd : ∀ n ∈ t.subtree dest, s.Alone n)
    (hout : ∀ n ∈ t.subtree src, n ∉ t.subtree dest) :
    (s.moveInto t dest src).Sound ∧
      (∀ n ∉ t.subtree dest, (s.moveInto t dest src).isDropped n = s.isDropped n) ∧
      ∀ n ∉ t.subtree dest, n ∉ t.subtree src → s.Alone n → (s.moveInto t dest src).Alone n := by
  have hmem : ∀ x ∈ moves t maxFieldDepth dest src, x.1 ∈ t.subtree dest ∧ x.2 ∈ t.subtree src :=
    fun x hx => mem_moves hx
  have hmov : s.Movable (moves t maxFieldDepth dest src) := by
    refine ⟨nodup_moves ht _ dest src, fun x hx y hy e => ?_, fun x hx => hd _ (hmem x hx).1⟩
    exact hout x.2 (hmem x hx).2 (e ▸ (hmem y hy).1)
  have hfst : ∀ n ∉ t.subtree dest, n ∉ (moves t maxFieldDepth dest src).map (·.1) :=
    fun n hn hm => by
      obtain ⟨x, hx, rfl⟩ := List.mem_map.mp hm
      exact hn (hmem x hx).1
  have hsnd : ∀ n ∉ t.subtree src, n ∉ (moves t maxFieldDepth dest src).map (·.2) :=
    fun n hn hm => by
      obtain ⟨x, hx, rfl⟩ := List.mem_map.mp hm
      exact hn (hmem x hx).2
  rw [PathState.moveInto, moveWithin_eq]
  obtain ⟨hsound, hdropped, halone⟩ := h.foldl_moveNode _ hmov
  exact ⟨hsound, fun n hn => hdropped n (hfst n hn),
    fun n hn hn' ha => halone n (hfst n hn) (hsnd n hn') ha⟩

end PathState

end Dangling
