import Dangling.Proofs.Path.Coherence
import Dangling.Proofs.Walk.History

/-!
# Proofs — Walk — AllNames

On which paths released memory is known to be released under all its names.  A path is tidy as long as
nothing gets a new name after its release, other than by a move, and no release leaves out a name of
what it releases.

* `Deed.Tidy`: a deed keeps the names of released memory together.
* `Walk.Leg.Passes`: the states that a visit passes.
* `Walk.released_under_all_names`: on a tidy path every state is coherent.
* `Walk.renamed_hides_release`: a name that is given after the release is not known as released.
-/

namespace Dangling

/-! ### Tidy paths -/

namespace Deed

/-- The deed gives no new name to released memory, unless it moves it, and releases memory only
together with all its names. -/
def Tidy (t : NodeTable) (s : PathState) : Deed → Prop
  | statement st =>
    match st.kind with
    | .assign place r => (t.lookup place).2 = false → s.Fits t (t.lookup place).1 r
    | _ => True
  | finish b =>
    match b.terminator.kind with
    | .drop place _ _ =>
      (t.lookup place).2 = false → (s.node (t.lookup place).1).owned = true →
        s.isDropped (t.lookup place).1 = true ∨ s.Covers t (t.lookup place).1
    | _ => True
  | call site destination => site.Fits t destination s

/-- Each deed is tidy in the state that it finds. -/
def TidyFrom (t : NodeTable) : PathState → List Deed → Prop
  | _, [] => True
  | s, d :: deeds => d.Tidy t s ∧ TidyFrom t (d.apply t { state := s }).state deeds

variable {t : NodeTable}

theorem sound_finish (b : GraphBlock) {p : Progress} (h : p.state.Sound)
    (htidy : (finish b).Tidy t p.state) : ((finish b).apply t p).state.Sound := by
  rw [Tidy] at htidy
  rw [apply, Visit.plain]
  cases hk : b.terminator.kind with
  | goto _ | call _ _ _ _ _ | unreachable | resume | abort => exact h
  | switchInt discr arms otherwise =>
      dsimp only
      split <;> exact Progress.state_useOperand p _ _ discr ▸ h
  | ret => exact Progress.state_checkUse p _ _ _ ▸ h
  | assert cond expected target unwind =>
      dsimp only
      split <;> exact Progress.state_useOperand p _ _ cond ▸ h
  | drop place target unwind =>
      rw [hk] at htidy
      dsimp only at htidy ⊢
      split
      · exact Progress.state_checkUse p _ _ _ ▸ h
      case isFalse hd =>
        rw [Progress.releaseOwned]
        split
        · exact Progress.sound_release h (htidy (by simpa using hd) ‹_›) _ _ _
        · exact h

/-- **A tidy deed keeps states coherent.** -/
theorem sound_apply (ht : t.Layered) (d : Deed) {p : Progress} (h : p.state.Sound)
    (htidy : d.Tidy t p.state) : (d.apply t p).state.Sound := by
  cases d with
  | finish b => exact sound_finish b h htidy
  | call site destination => exact site.sound_apply h htidy
  | statement st =>
      rw [Tidy] at htidy
      rw [apply, Progress.statement]
      cases hk : st.kind with
      | storageLive _ | storageDead _ | nop => exact h
      | assign place r =>
          rw [hk] at htidy
          dsimp only at htidy ⊢
          rw [Progress.assign]
          dsimp only
          split
          case isFalse hd => exact Progress.sound_assignTo ht h _ (htidy (by simpa using hd))
          case isTrue =>
            -- through a pointer: moved operands lose their owners, and nothing gets a name
            rw [Progress.assignThrough]
            refine List.foldlRecOn (motive := fun q : Progress => q.state.Sound) r.operands _ ?_
              fun q hq o _ => ?_
            · rw [Progress.state_checkUse]
              exact h
            · rw [Progress.state_on, Progress.state_useOperand]
              have htaken := Progress.course_takeMoved (t := t) (o := o) (fun _ _ => Act.Idle.leave)
                (Course.refl (s := q.state))
              exact (PathState.agrees_course htaken).sound hq

theorem sound_foldl (ht : t.Layered) (deeds : List Deed) : ∀ {p : Progress}, p.state.Sound →
    TidyFrom t p.state deeds → (deeds.foldl (Deed.apply t) p).state.Sound := by
  induction deeds with
  | nil => exact fun h _ => h
  | cons d deeds ih =>
      intro p h htidy
      obtain ⟨hd, htidy⟩ := htidy
      rw [← d.blind_apply.state_eq p] at htidy
      exact ih (d.sound_apply ht h hd) htidy

end Deed

/-- At the entry nothing is released. -/
theorem FunctionGraph.sound_initialState (g : FunctionGraph) : g.initialState.Sound := by
  have hinitial : (PathState.initial g.nodes.size).Sound := by
    refine ⟨PathState.partitioned_initial _, fun n m hm hd => ?_⟩
    rw [PathState.isDropped, NodeState.isDropped, PathState.fate_initial] at hd
    cases hd
  exact (PathState.agrees_course (g.course_initialState fun _ _ => .own)).sound hinitial

/-! ### The states of a walk -/

namespace Walk

variable {σ : Type}

/-- A visit passes a state, when its path has done `done` since the entry. -/
def Leg.Passes (g : FunctionGraph) (leg : Leg) (done : List Deed) (state : PathState) : Prop :=
  ∃ now rest, leg.deeds = now ++ rest ∧ done = leg.before ++ now ∧
    state = (now.foldl (Deed.apply g.nodes) { state := leg.item.state }).state

/-- **On a tidy path released memory is released under all its names**, in every state that a walk
passes, whatever is known of callees. -/
theorem released_under_all_names {ds : Declarations} {b : Body} {g : FunctionGraph}
    (hb : FunctionGraph.ofBody ds b = .ok g) {cfg : Config} {resolve : Resolver σ} {s : σ}
    {leg : Leg} (hleg : leg.OnRun g cfg resolve s) {done : List Deed} {state : PathState}
    (hpass : leg.Passes g done state) (htidy : Deed.TidyFrom g.nodes g.initialState done) :
    state.Coherent := by
  have ht : g.nodes.Layered := (FunctionGraph.built_of_ofBody hb).layered
  obtain ⟨now, rest, -, rfl, rfl⟩ := hpass
  rw [(Makes.true_to_path hleg (faithful_start g)).1, ← g.stateAfter_append]
  exact (Deed.sound_foldl ht _ g.sound_initialState htidy).coherent

/-- Every callee releases what its first argument points to. -/
def releasesPointee : Resolver Unit :=
  .pure fun _ => .modelled { drops := [0], manual := true, throughPointer := true }

/-- A function that copies its argument, a pointer, releases what it points to, and moves the copy. -/
def handedOn : Body where
  name := "handed_on"
  argCount := 1
  locals := [{ ty := Ty.unit }, { ty := .rawPtr true Ty.int32 }, { ty := .rawPtr true Ty.int32 },
    { ty := .rawPtr true Ty.int32 }, { ty := Ty.unit }]
  blocks :=
    [{ id := 0, statements := [⟨default, .assign { base := 2 } (.use (.copy { base := 1 }))⟩],
       terminator :=
         ⟨default, .call "drop_in_place" [.copy { base := 1 }] { base := 4 } (some 1) none⟩ },
     { id := 1, statements := [⟨default, .assign { base := 3 } (.use (.move { base := 2 }))⟩],
       terminator := ⟨default, .ret⟩ }]
  distinct := by decide

/-- Its graph. -/
def handedOnGraph : FunctionGraph := (FunctionGraph.ofBody .empty handedOn).toOption.get rfl

/-- The memory is released under three names, one of which it got by a move after the release. -/
theorem handedOn_under_all_names :
    FunctionGraph.ofBody .empty handedOn = .ok handedOnGraph ∧
      ∃ leg done state, Leg.OnRun handedOnGraph {} releasesPointee () leg ∧
        leg.Passes handedOnGraph done state ∧
        Deed.TidyFrom handedOnGraph.nodes handedOnGraph.initialState done ∧
        state.aliases 1 = [1, 2, 3] ∧ state.isDropped 1 = true ∧ state.Coherent := by
  have hg : FunctionGraph.ofBody .empty handedOn = .ok handedOnGraph := rfl
  obtain ⟨leg, done, state, hleg, hpass, htidy, halias, hdropped⟩ : ∃ leg done state,
      Leg.OnRun handedOnGraph {} releasesPointee () leg ∧ leg.Passes handedOnGraph done state ∧
        Deed.TidyFrom handedOnGraph.nodes handedOnGraph.initialState done ∧
        state.aliases 1 = [1, 2, 3] ∧ state.isDropped 1 = true := by
    refine ⟨_, _, _, .onward rfl rfl (.visit rfl rfl), ⟨[_], [_], rfl, rfl, rfl⟩,
      ⟨fun _ => ?_, ?_, fun _ => ?_, trivial⟩, rfl, rfl⟩
    · exact .inl (by decide +kernel)
    · change CallSite.Fits _ ⟨_, _, _, _⟩ { base := 4 } _
      decide +kernel
    · exact .inr (by decide +kernel)
  exact ⟨hg, leg, done, state, hleg, hpass, htidy, halias, hdropped,
    released_under_all_names hg hleg hpass htidy⟩

/-- A function that releases what its argument points to, and copies the argument afterwards. -/
def renamed : Body where
  name := "renamed"
  argCount := 1
  locals := [{ ty := Ty.unit }, { ty := .rawPtr true Ty.int32 }, { ty := .rawPtr true Ty.int32 },
    { ty := Ty.unit }]
  blocks :=
    [{ id := 0, statements := [],
       terminator :=
         ⟨default, .call "drop_in_place" [.copy { base := 1 }] { base := 3 } (some 1) none⟩ },
     { id := 1, statements := [⟨default, .assign { base := 2 } (.use (.copy { base := 1 }))⟩],
       terminator := ⟨default, .ret⟩ }]
  distinct := by decide

/-- Its graph. -/
def renamedGraph : FunctionGraph := (FunctionGraph.ofBody .empty renamed).toOption.get rfl

/-- **A name given after the release hides it**: both pointers name the released memory, but only one
of them is known as released. -/
theorem renamed_hides_release :
    FunctionGraph.ofBody .empty renamed = .ok renamedGraph ∧
      ∃ leg done state, Leg.OnRun renamedGraph {} releasesPointee () leg ∧
        leg.Passes renamedGraph done state ∧ state.aliases 1 = [1, 2] ∧
        state.isDropped 1 = true ∧ state.isDropped 2 = false ∧ ¬state.Coherent := by
  obtain ⟨leg, done, state, hleg, hpass, halias, hone, htwo⟩ : ∃ leg done state,
      Leg.OnRun renamedGraph {} releasesPointee () leg ∧ leg.Passes renamedGraph done state ∧
        state.aliases 1 = [1, 2] ∧ state.isDropped 1 = true ∧ state.isDropped 2 = false :=
    ⟨_, _, _, .onward rfl rfl (.visit rfl rfl), ⟨[_], [_], rfl, rfl, rfl⟩, rfl, rfl, rfl⟩
  refine ⟨rfl, leg, done, state, hleg, hpass, halias, hone, htwo, fun hcoherent => ?_⟩
  have hmem : 2 ∈ state.aliases 1 := by
    rw [halias]
    exact .tail _ (.head _)
  exact nomatch htwo.symm.trans (hcoherent 1 2 hmem hone)

end Walk

end Dangling
