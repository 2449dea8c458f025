import Dangling.Proofs.Path.Alarms
import Dangling.Proofs.Path.Released

/-!
# Proofs — Path — Coherence

When is memory that is released known to be released under all its names?  A release marks the class
of the released node and all fields below it, and a move takes the fate along.  What breaks the rule
is a new name for memory that is released already, other than by a move; and a name of a field that a
release does not reach.

* `PathState.Fits`: what an assignment lays down keeps the rule.
* `PathState.Covers`: a release reaches all names of what it releases.
* `Progress.sound_assignTo`, `Progress.sound_release`, `CallSite.sound_apply`: under these conditions
  every step keeps the rule.
-/

namespace Dangling

namespace PathState

variable {s s' : PathState} {t : NodeTable} {dest src : NodeId}

/-! ### Values laid down -/

/-- Where nothing released is handed over, a value is laid down among live nodes. -/
theorem Sound.laying {I N M T : List NodeId} (h : s.Sound)
    (hlive : ∀ n ∈ I ++ (N ++ M), s.isDropped n = false) (hc : Course (Laying I N M T) s s') :
    s'.Sound := by
  refine (hc.keeps (P := fun u => u.Sound ∧ ∀ n ∈ I ++ (N ++ M), u.isDropped n = false)
    (fun u a ha hu => ?_) ⟨h, hlive⟩).1
  obtain ⟨hu, hlive⟩ := hu
  have hagrees : ∀ {u'}, u.Agrees u' →
      u'.Sound ∧ ∀ n ∈ I ++ (N ++ M), u'.isDropped n = false := fun hag =>
    ⟨hag.sound hu, fun n hn => (hag.dropped n).trans (hlive n hn)⟩
  cases ha with
  | own hn => exact hagrees (agrees_idle u .own)
  | learn => exact hagrees (agrees_idle u .learn)
  | leave hn => exact hagrees (agrees_idle u .leave)
  | @inherit dest src hd hs =>
      refine hagrees ⟨size_update u dest _, aliases_update u dest fun _ => rfl, fun n => ?_⟩
      rw [Act.apply, isDropped_inherit]
      split
      case isFalse => rfl
      case isTrue e =>
        rw [e.1, hlive dest (List.mem_append_left _ hd),
          hlive src (List.mem_append_right _ (List.mem_append_right _ hs))]
  | @join dest src hd hs =>
      have hsrc : u.isDropped src = false :=
        hlive src (List.mem_append_right _ (List.mem_append.mpr hs))
      refine ⟨hu.join_nodes ?_, fun n hn => ?_⟩
      · rw [hlive dest (List.mem_append_left _ hd), hsrc]
      · rw [Act.apply, isDropped_join, hlive n hn]

/-- A new aggregate is being filled from outside: the fields still to come are alone and live, and
so are `dest` and all nodes that get another name there. -/
structure Filling (t : NodeTable) (dest : NodeId) (named : List NodeId) (s : PathState)
    (children : List NodeId) : Prop where
  sound : s.Sound
  fresh : ∀ c ∈ children, ∀ n ∈ t.subtree c, s.Alone n ∧ s.isDropped n = false
  live : ∀ n ∈ dest :: named, s.isDropped n = false

namespace Filling

variable {named children : List NodeId} {child : NodeId} {o : Operand}

theorem agrees (h : Filling t dest named s children) (ha : s.Agrees s') :
    Filling t dest named s' children :=
  ⟨ha.sound h.sound,
    fun c hc n hn => ⟨ha.alone (h.fresh c hc n hn).1, (ha.dropped n).trans (h.fresh c hc n hn).2⟩,
    fun n hn => (ha.dropped n).trans (h.live n hn)⟩

theorem tail (h : Filling t dest named s (child :: children)) : Filling t dest named s children :=
  ⟨h.sound, fun c hc => h.fresh c (List.mem_cons_of_mem _ hc), h.live⟩

/-- A live node outside gets another name in the aggregate. -/
theorem join {into : NodeId} (h : Filling t dest named s children)
    (hinto : s.isDropped into = false)
    (hapart : ∀ c ∈ children, ∀ n ∈ t.subtree c, into ∉ s.aliases n)
    (hsrc : src ∈ named) (hout : ∀ c ∈ children, src ∉ t.subtree c) :
    Filling t dest named (s.join into src) children := by
  have hlive : s.isDropped src = false := h.live src (List.mem_cons_of_mem _ hsrc)
  refine ⟨h.sound.join_nodes (hinto.trans hlive.symm), fun c hc n hn => ⟨fun m hm => ?_, ?_⟩,
    fun n hn => ?_⟩
  · obtain ⟨halone, -⟩ := h.fresh c hc n hn
    rw [h.sound.classes.aliases_join, if_neg] at hm
    · exact halone m hm
    · intro hmem
      rcases mem_merged.mp hmem with hmem | hmem
      · exact hapart c hc n hn (h.sound.classes.symm hmem)
      · exact hout c hc (halone src (h.sound.classes.symm hmem) ▸ hn)
  · rw [isDropped_join]
    exact (h.fresh c hc n hn).2
  · rw [isDropped_join]
    exact h.live n hn

theorem fillField (ht : t.Layered) (h : Filling t dest named s (child :: children))
    (hin : ∀ c ∈ child :: children, t.subtree c ⊆ t.subtree dest) (hdest : dest ∉ t.subtree child)
    (hapart : ∀ c ∈ children, ∀ n ∈ t.subtree child, n ∉ t.subtree c)
    (hnamed : ∀ n ∈ named, n ∉ t.subtree dest) (hcopied : o.copied t ⊆ named)
    (htaken : ∀ n ∈ o.taken t, n ∉ t.subtree dest) :
    Filling t dest named (s.fillField t child o) children := by
  have hchild := h.fresh child List.mem_cons_self
  rw [PathState.fillField]
  split
  · exact h.tail.agrees (agrees_idle s .learn)
  case h_2 place hp =>
    dsimp only
    split
    · exact h.tail.agrees (agrees_course (Course.refl.ownByType fun _ _ _ => .own))
    case isFalse hd =>
      rw [Bool.not_eq_true] at hd
      split
      case isTrue hmove =>
        rw [Operand.taken_eq hp hd hmove] at htaken
        obtain ⟨hsound, hdropped, halone⟩ := h.sound.moveInto ht (fun n hn => (hchild n hn).1)
          (fun n hn hmem => htaken n hn (hin child List.mem_cons_self hmem))
        -- neither the fields to come nor what is named lies in the field that is filled
        have hlater : ∀ c ∈ children, ∀ n ∈ t.subtree c, n ∉ t.subtree child := fun c hc n hn hmem =>
          hapart c hc n hmem hn
        have hlive : ∀ n ∈ dest :: named, n ∉ t.subtree child := by
          intro n hn hmem
          rcases List.mem_cons.mp hn with rfl | hn
          · exact hdest hmem
          · exact hnamed n hn (hin child List.mem_cons_self hmem)
        refine ⟨hsound, fun c hc n hn => ⟨?_, ?_⟩, fun n hn => ?_⟩
        · have hsrc : n ∉ t.subtree (t.lookup place).1 := fun hmem =>
            htaken n hmem (hin c (List.mem_cons_of_mem _ hc) hn)
          exact halone n (hlater c hc n hn) hsrc (h.tail.fresh c hc n hn).1
        · rw [hdropped n (hlater c hc n hn)]
          exact (h.tail.fresh c hc n hn).2
        · rw [hdropped n (hlive n hn)]
          exact h.live n hn
      case isFalse hmove =>
        rw [Bool.not_eq_true] at hmove
        split
        case isFalse => exact h.tail
        case isTrue hptr =>
          rw [Operand.copied_eq hp hd hmove hptr] at hcopied
          have hsrc := hcopied List.mem_cons_self
          have hself := t.self_mem_subtree child
          refine h.tail.join (hchild child hself).2 (fun c hc n hn hmem => ?_) hsrc
            fun c hc hmem => hnamed _ hsrc (hin c (List.mem_cons_of_mem _ hc) hmem)
          obtain rfl := (h.tail.fresh c hc n hn).1 child hmem
          exact hapart c hc child hself hn

theorem fillWhole (h : Filling t dest named s []) (hsource : o.source t ⊆ named) :
    Filling t dest named (s.fillWhole t dest o) [] := by
  have hdest : s.isDropped dest = false := h.live dest List.mem_cons_self
  rw [PathState.fillWhole]
  split
  · exact h
  case h_2 place hp =>
    dsimp only
    split
    · exact h
    case isFalse hd =>
      rw [Bool.not_eq_true] at hd
      rw [Operand.source_eq hp hd] at hsource
      have hsrc := hsource List.mem_cons_self
      have hnone : ∀ c ∈ ([] : List NodeId), (t.lookup place).1 ∉ t.subtree c :=
        List.forall_mem_nil _
      split
      case isTrue =>
        have hown : Filling t dest named
            (if (s.node (t.lookup place).1).owned then s.setOwned dest true else s) [] := by
          split
          · exact h.agrees (agrees_idle s .own)
          · exact h
        refine (hown.join (hown.live dest List.mem_cons_self) (List.forall_mem_nil _) hsrc
          hnone).agrees (agrees_course ?_)
        exact Course.refl.loseOwnership fun _ _ => .leave
      case isFalse =>
        split
        · exact h.join hdest (List.forall_mem_nil _) hsrc hnone
        · exact h

/-- The fields of an aggregate, one after the other. -/
theorem fill (ht : t.Layered) (hnamed : ∀ n ∈ named, n ∉ t.subtree dest) (os : List Operand) :
    ∀ {s : PathState} {children : List NodeId}, Filling t dest named s children →
    (∀ c ∈ children, t.subtree c ⊆ t.subtree dest ∧ dest ∉ t.subtree c) →
    children.Pairwise (fun c d => ∀ n ∈ t.subtree c, n ∉ t.subtree d) →
    (∀ o ∈ os, o.copied t ⊆ named) →
    (∀ o ∈ os.take children.length, ∀ n ∈ o.taken t, n ∉ t.subtree dest) →
    (∀ o ∈ os.drop children.length, o.source t ⊆ named) →
    (PathState.fill t dest s os children).Sound := by
  induction os with
  | nil =>
      intro s children h _ _ _ _ _
      rw [PathState.fill]
      exact h.sound
  | cons o os ih =>
      intro s children h hin hapart hcopied htaken hsource
      obtain ⟨ho, hcopied⟩ := List.forall_mem_cons.mp hcopied
      cases children with
      | nil =>
          rw [List.length_nil, List.drop_zero] at hsource
          obtain ⟨hso, hsource⟩ := List.forall_mem_cons.mp hsource
          exact ih (h.fillWhole hso) hin hapart hcopied (List.forall_mem_nil _) hsource
      | cons child children =>
          rw [List.length_cons, List.take_succ_cons] at htaken
          obtain ⟨hto, htaken⟩ := List.forall_mem_cons.mp htaken
          rw [List.length_cons, List.drop_succ_cons] at hsource
          obtain ⟨hfirst, hapart⟩ := List.pairwise_cons.mp hapart
          have hfield := h.fillField ht (fun c hc => (hin c hc).1) (hin child List.mem_cons_self).2
            hfirst hnamed ho hto
          exact ih hfield (fun c hc => hin c (List.mem_cons_of_mem _ hc)) hapart hcopied htaken hsource

end Filling

/-! ### Conditions -/

/-- What an assignment to `dest` hands over: either nothing of it is released, or only parts of `dest`
that are overwritten anyway; or it all comes from outside of `dest`, and what is released is moved. -/
def Fits (t : NodeTable) (s : PathState) (dest : NodeId) (r : Rvalue) : Prop :=
  (∀ n ∈ r.named t dest ++ r.moved t dest, s.isDropped n = true → n ∈ t.subtree dest) ∨
    (∀ n ∈ r.named t dest ++ r.moved t dest, n ∉ t.subtree dest) ∧
      ∀ n ∈ r.named t dest, s.isDropped n = false

instance (t : NodeTable) (s : PathState) (dest : NodeId) (r : Rvalue) : Decidable (s.Fits t dest r) :=
  inferInstanceAs (Decidable ((∀ n ∈ _, _ → _) ∨ (∀ n ∈ _, _) ∧ ∀ n ∈ _, _))

/-- A release of `id` reaches all names of all that it releases, unless they are released already. -/
def Covers (t : NodeTable) (s : PathState) (id : NodeId) : Prop :=
  ∀ n ∈ Progress.dropTargets t s id, ∀ m ∈ s.aliases n,
    m ∈ Progress.dropTargets t s id ∨ s.isDropped m = true

instance (t : NodeTable) (s : PathState) (id : NodeId) : Decidable (s.Covers t id) :=
  inferInstanceAs (Decidable (∀ n ∈ _, ∀ m ∈ _, _))

/-- Each node, when its turn comes, is released already, or its release reaches all names. -/
def CoversAll (t : NodeTable) (loc : Location) : PathState → List (NodeId × Bool) → Prop
  | _, [] => True
  | s, x :: xs =>
    (s.isDropped x.1 = true ∨ s.Covers t x.1) ∧
      CoversAll t loc (({ state := s } : Progress).release t x.1 loc x.2 "").state xs

instance CoversAll.decidable (t : NodeTable) (loc : Location) : ∀ (s : PathState)
    (xs : List (NodeId × Bool)), Decidable (CoversAll t loc s xs)
  | _, [] => isTrue trivial
  | s, x :: xs =>
    have := CoversAll.decidable t loc (({ state := s } : Progress).release t x.1 loc x.2 "").state xs
    inferInstanceAs (Decidable ((s.isDropped x.1 = true ∨ s.Covers t x.1) ∧ _))

end PathState

/-! ### Statements -/

namespace Progress

variable {t : NodeTable} {p : Progress}

/-- Where nothing released is handed over, the course of the assignment stays among live nodes. -/
theorem sound_assignTo_live (ht : t.Layered) (h : p.state.Sound) (loc : Location) {dest : NodeId}
    {r : Rvalue} (hlive : ∀ n ∈ r.named t dest ++ r.moved t dest,
      p.state.isDropped n = true → n ∈ t.subtree dest) : (p.assignTo t loc dest r).state.Sound := by
  obtain ⟨hsound, -, hdropped⟩ := h.kill (t.subtree dest)
  rcases assignTo_course ht p loc dest r with hself | hcourse
  · rw [hself]
    exact h
  · refine PathState.Sound.laying hsound (fun n hn => ?_) hcourse
    rw [hdropped]
    split
    · rfl
    case isFalse hout =>
      rcases List.mem_append.mp hn with hn | hn
      · exact absurd hn hout
      · exact Bool.eq_false_iff.mpr fun hd => hout (hlive n hn hd)

/-- An operand is moved from outside. -/
theorem sound_storeOperand_moved (ht : t.Layered) {s : PathState} (h : s.Sound) {dest : NodeId}
    {o : Operand} (hmoved : o.taken t ≠ []) (hout : ∀ n ∈ o.taken t, n ∉ t.subtree dest) :
    (s.storeOperand t dest o).Sound := by
  obtain ⟨place, hp, hd, hmove⟩ := Operand.exists_of_taken hmoved
  rw [Operand.taken_eq hp hd hmove] at hout
  have hne : (t.lookup place).1 ≠ dest := fun e =>
    hout _ (t.self_mem_subtree _) (e ▸ t.self_mem_subtree _)
  have hstore : s.storeOperand t dest o = (s.overwrite t dest).moveInto t dest (t.lookup place).1 := by
    simp only [PathState.storeOperand, hp, hd, hmove, if_neg hne]
    rfl
  obtain ⟨hsound, halone, -⟩ := h.kill (t.subtree dest)
  rw [hstore]
  exact (hsound.moveInto ht (fun n hn => halone n (.inr hn)) hout).1

/-- An aggregate is made of parts from outside, and only moved ones are released. -/
theorem sound_fill_outside (ht : t.Layered) {s : PathState} (h : s.Sound) {dest : NodeId}
    {items : List Operand} {name : Option String}
    (hnamed : ∀ n ∈ (Rvalue.aggregate items name).named t dest,
      n ∉ t.subtree dest ∧ s.isDropped n = false)
    (hmoved : ∀ n ∈ (Rvalue.aggregate items name).moved t dest, n ∉ t.subtree dest) :
    ((s.overwrite t dest).fill t dest items ((t.children dest).map (·.2))).Sound := by
  obtain ⟨hsound, halone, hdropped⟩ := h.kill (t.subtree dest)
  have hlen : ((t.children dest).map (·.2)).length = (t.children dest).length := List.length_map _
  have hin : ∀ c ∈ (t.children dest).map (·.2),
      t.subtree c ⊆ t.subtree dest ∧ dest ∉ t.subtree c := fun c hc => by
    obtain ⟨x, hx, rfl⟩ := List.mem_map.mp hc
    exact ⟨ht.subtree_child_subset hx, ht.not_mem_subtree_child hx⟩
  have hfilling : PathState.Filling t dest ((Rvalue.aggregate items name).named t dest)
      (s.overwrite t dest) ((t.children dest).map (·.2)) := by
    refine ⟨hsound, fun c hc n hn => ?_, fun n hn => (hdropped n).trans ?_⟩
    · have hmem := (hin c hc).1 hn
      exact ⟨halone n (.inr hmem), (hdropped n).trans (if_pos hmem)⟩
    · rcases List.mem_cons.mp hn with rfl | hn
      · rw [if_pos (t.self_mem_subtree n)]
      · rw [if_neg (hnamed n hn).1, (hnamed n hn).2]
  refine hfilling.fill ht (fun n hn => (hnamed n hn).1) items hin
    (List.pairwise_map.mpr (ht.subtrees_apart dest _)) (fun o ho n hn => ?_) (fun o ho n hn => ?_)
    (fun o ho n hn => ?_)
  · exact List.mem_append_left _ (List.mem_flatMap.mpr ⟨o, ho, hn⟩)
  · rw [hlen] at ho
    exact hmoved n (List.mem_flatMap.mpr ⟨o, ho, hn⟩)
  · rw [hlen] at ho
    exact List.mem_append_right _ (List.mem_flatMap.mpr ⟨o, ho, hn⟩)

/-- **An assignment of what fits keeps states coherent.** -/
theorem sound_assignTo (ht : t.Layered) (h : p.state.Sound) (loc : Location) {dest : NodeId}
    {r : Rvalue} (hfits : p.state.Fits t dest r) : (p.assignTo t loc dest r).state.Sound := by
  rcases hfits with hlive | ⟨hout, hnamed⟩
  · exact sound_assignTo_live ht h loc hlive
  by_cases hmoved : r.moved t dest = []
  · refine sound_assignTo_live ht h loc fun n hn hd => ?_
    rw [hmoved, List.append_nil] at hn
    exact nomatch hd.symm.trans (hnamed n hn)
  -- only an operand and the parts of an aggregate are ever moved
  cases r with
  | use o =>
      rw [assignTo, state_on, state_useOperand]
      exact sound_storeOperand_moved ht h hmoved fun n hn => hout n (List.mem_append_right _ hn)
  | aggregate items name =>
      simp only [assignTo, state_on, state_foldl (fun p o => state_useOperand p loc _ o)]
      exact sound_fill_outside ht h
        (fun n hn => ⟨hout n (List.mem_append_left _ hn), hnamed n hn⟩)
        fun n hn => hout n (List.mem_append_right _ hn)
  | _ => exact absurd rfl hmoved

/-! ### Releases -/

/-- **A release that reaches all names keeps states coherent.** -/
theorem sound_release (h : p.state.Sound) {id : NodeId}
    (hcovers : p.state.isDropped id = true ∨ p.state.Covers t id) (loc : Location) (manual : Bool)
    (context : String) : (p.release t id loc manual context).state.Sound := by
  rw [release]
  split
  · split <;> exact h
  case isFalse hd =>
    have hcovers := hcovers.resolve_left hd
    refine ⟨h.classes.apply (.release _ id (some loc) manual), fun n m hm hn => ?_⟩
    rw [state_on, PathState.aliases_markDropped] at hm
    rw [state_on, PathState.isDropped_markDropped, Bool.or_eq_true, decide_eq_true_eq] at hn ⊢
    rcases hn with ⟨hn, -⟩ | hn
    · exact (hcovers n hn m hm).imp_left fun hmem => ⟨hmem, h.classes.lt hm⟩
    · exact .inr (h.coherent n m hm hn)

/-- What a release does to the state does not depend on the alarms, nor on what they say. -/
theorem state_release (p : Progress) (id : NodeId) (loc : Location) (manual : Bool)
    (context : String) : (p.release t id loc manual context).state =
      (({ state := p.state } : Progress).release t id loc manual "").state := by
  rw [release, release]
  split
  · split <;> rfl
  · rfl

theorem sound_releases {loc : Location} {context : String} (xs : List (NodeId × Bool)) :
    ∀ {p : Progress}, p.state.Sound → p.state.CoversAll t loc xs →
      (xs.foldl (fun p x => p.release t x.1 loc x.2 context) p).state.Sound := by
  induction xs with
  | nil => exact fun h _ => h
  | cons x xs ih =>
      intro p h hcovers
      obtain ⟨hx, hxs⟩ := hcovers
      rw [← state_release p x.1 loc x.2 context] at hxs
      exact ih (sound_release h hx loc x.2 context) hxs

end Progress

/-! ### Calls -/

namespace CallSite

variable {t : NodeTable}

/-- The state of a call when its result is stored and nothing is joined yet. -/
def stateStored (t : NodeTable) (c : CallSite) (dest : NodeId) (s : PathState) : PathState :=
  c.store t dest (c.move t (c.drop t { state := s }).state)

/-- A call releases all names of what it releases, and joins only nodes with one fate. -/
def Fits (t : NodeTable) (c : CallSite) (destination : Place) (s : PathState) : Prop :=
  s.CoversAll t c.loc (c.released t) ∧
    ((t.lookup destination).2 = false → ∀ x ∈ c.joined t (t.lookup destination).1,
      (c.stateStored t (t.lookup destination).1 s).isDropped x.1 =
        (c.stateStored t (t.lookup destination).1 s).isDropped x.2)

instance (t : NodeTable) (c : CallSite) (destination : Place) (s : PathState) :
    Decidable (c.Fits t destination s) :=
  inferInstanceAs (Decidable (s.CoversAll t c.loc (c.released t) ∧ (_ → ∀ x ∈ _, _)))

theorem sound_link (c : CallSite) {dest : NodeId} {s : PathState} (h : s.Sound)
    (hjoined : ∀ x ∈ c.joined t dest, s.isDropped x.1 = s.isDropped x.2) :
    (c.link t dest s).Sound := by
  refine ((c.link_course dest s).keeps
    (P := fun u => u.Sound ∧ ∀ n, u.isDropped n = s.isDropped n) (fun u a ha hu => ?_)
    ⟨h, fun _ => rfl⟩).1
  obtain ⟨hu, hsame⟩ := hu
  cases ha with
  | @taint n =>
      have hag : u.Agrees (Act.apply u (.taint n)) := u.agrees_idle .taint
      exact ⟨hag.sound hu, fun n => (hag.dropped n).trans (hsame n)⟩
  | @join a b hab =>
      refine ⟨hu.join_nodes ?_, fun n => (PathState.isDropped_join u a b n).trans (hsame n)⟩
      rw [hsame, hsame]
      exact hjoined (a, b) hab

/-- **A call that fits keeps states coherent.** -/
theorem sound_apply (c : CallSite) {destination : Place} {p : Progress} (h : p.state.Sound)
    (hfits : c.Fits t destination p.state) : (c.apply t destination p).state.Sound := by
  obtain ⟨hcovers, hjoined⟩ := hfits
  have hstate : (c.drop t (c.use t p)).state = (c.drop t { state := p.state }).state := by
    rw [c.blind_drop.state_eq, state_use]
  have hdrop : (c.drop t { state := p.state }).state.Sound := by
    rw [drop_eq]
    exact Progress.sound_releases _ h hcovers
  have hmove : (c.move t (c.drop t { state := p.state }).state).Sound := by
    exact (PathState.agrees_course (c.course_move (fun _ _ => .leave) .refl)).sound hdrop
  rw [apply]
  dsimp only
  split
  · rw [Progress.state_checkUse, Progress.state_on, hstate]
    exact hmove
  case isFalse hd =>
    rw [Progress.state_on, Progress.state_on, hstate]
    refine sound_link c ?_ (hjoined (Bool.not_eq_true _ ▸ hd))
    have hover := (hmove.kill (t.subtree (t.lookup destination).1)).1
    exact (PathState.agrees_course (Course.refl.ownAs (fun _ _ _ => .own) _)).sound hover

end CallSite

end Dangling
