import Dangling.Proofs.Walk.History
import Dangling.Proofs.Walk.Pathwise

/-!
# Proofs — Walk — Limits

Two walks of one function with different limits.  Loops may be unrolled more often and panics may be
followed in one of them; then it cuts paths elsewhere and comes by its blocks in another order, so the
two cannot be compared visit by visit.  Their paths can: a path of the narrower walk is a path of the
wider one, with the same state and the same counts at each block (`Walked.widen`), since neither limit
is looked at by anything but the choice of where a path goes on.

* `Visit.Widens`: a visit that brings the same and goes on to no fewer blocks.
* `Visited.widen`: what is visited within narrower limits is visited within wider ones.
* `wider_limits_lose_nothing`: every finding, alias pair and released slot is there again.
-/

namespace Dangling

/-- What the limits of `cfg` let a path do, those of `cfg'` do. -/
structure Config.Narrower (cfg cfg' : Config) : Prop where
  unroll : cfg.loopUnroll ≤ cfg'.loopUnroll
  unwind : cfg.followUnwind = true → cfg'.followUnwind = true

/-! ### Visits -/

namespace Visit

/-- `v'` brings what `v` brings, and goes on where `v` does. -/
structure Widens (v v' : Visit) : Prop where
  progress : v'.progress = v.progress
  returns : v'.returns = v.returns
  succs : v.succs ⊆ v'.succs

theorem Widens.refl (v : Visit) : v.Widens v := ⟨rfl, rfl, List.Subset.refl _⟩

theorem andAlso_subset (bs : List BlockId) {more more' : List BlockId} (h : more ⊆ more') :
    andAlso bs more ⊆ andAlso bs more' := by
  intro x hx
  simp only [andAlso, List.mem_append, List.mem_filter] at hx ⊢
  exact hx.imp_right fun hx => ⟨h hx.1, hx.2⟩

/-- Only where a path goes on depends on the panics that are followed.  Where an assertion is known
to fail, they are all there is to follow. -/
theorem plain_widens (t : NodeTable) (b : GraphBlock) {unwind unwind' : List BlockId}
    (h : unwind ⊆ unwind') (p : Progress) : (plain t b unwind p).Widens (plain t b unwind' p) := by
  simp only [plain]
  split
  case h_4 place target _ _ => exact ⟨rfl, rfl, andAlso_subset _ h⟩
  case h_5 cond expected target _ _ =>
    split
    case h_1 v _ =>
      refine ⟨rfl, rfl, ?_⟩
      dsimp only
      split
      · exact List.Subset.refl _
      · exact h
    case h_2 => exact ⟨rfl, rfl, andAlso_subset _ h⟩
  all_goals exact .refl _

variable {σ : Type} {g : FunctionGraph} {cfg cfg' : Config} {resolve : Resolver σ}

theorem unwinds_subset (h : cfg.Narrower cfg') (b : GraphBlock) :
    (if cfg.followUnwind then b.unwinds else []) ⊆ if cfg'.followUnwind then b.unwinds else [] := by
  intro x hx
  split at hx
  case isTrue hu => rwa [if_pos (h.unwind hu)]
  case isFalse => exact absurd hx List.not_mem_nil

theorem terminator_widens (h : cfg.Narrower cfg') {b : GraphBlock} {p : Progress} {s s' : σ}
    {v : Visit} (hv : terminator g cfg resolve b p s = (.ok v, s')) :
    ∃ v', terminator g cfg' resolve b p s = (.ok v', s') ∧ v.Widens v' := by
  have hu := unwinds_subset h b
  simp only [terminator] at hv ⊢
  split at hv
  case h_1 callee args destination target _ hk =>
    split at hv
    · cases hv
    split at hv
    case isTrue => cases hv
    case isFalse hm =>
      cases hv
      exact ⟨_, if_neg hm, rfl, rfl, andAlso_subset _ hu⟩
  case h_2 =>
    cases hv
    exact ⟨_, rfl, plain_widens _ _ hu _⟩

/-- **A visit within narrower limits is one within wider limits.** -/
theorem block_widens (h : cfg.Narrower cfg') {b : GraphBlock} {state : PathState} {s s' : σ}
    {v : Visit} (hv : block g cfg resolve b state s = (.ok v, s')) :
    ∃ v', block g cfg' resolve b state s = (.ok v', s') ∧ v.Widens v' := by
  rw [block] at hv ⊢
  split at hv
  case h_1 => cases hv
  case h_2 =>
    split at hv
    case h_2 => cases hv
    case h_1 v₁ s₁ ht =>
      obtain ⟨v', ht', hw⟩ := terminator_widens h ht
      rw [ht']
      -- the alarms of both visits are the same, so neither has one about an unnamed node
      simp only [named, hw.progress] at hv ⊢
      split at hv
      · cases hv
      · cases hv
        exact ⟨v', rfl, hw⟩

end Visit

/-! ### Paths -/

namespace Walk

variable {σ : Type} {g : FunctionGraph} {cfg cfg' : Config} {resolve : Resolver σ}
  {effect : String → CalleeEffect}

theorem enter?_widen (h : cfg.Narrower cfg') {i j : Item} (he : enter? g cfg i = some j) :
    enter? g cfg' i = some j := by
  have hunroll := h.unroll
  rw [enter?] at he ⊢
  split at he
  case isFalse hc => rwa [if_neg hc]
  case isTrue hc =>
    split at he
    case isTrue => cases he
    case isFalse hl =>
      have hl' : ¬ cfg'.loopUnroll ≤ i.entries.count i.block := by omega
      rwa [if_pos hc, if_neg hl']

theorem continuations_widen {v v' : Visit} (h : v.Widens v') (j : Item) :
    continuations g j v ⊆ continuations g j v' := by
  rw [continuations, continuations, h.progress]
  exact List.map_subset _ h.succs

/-- **A path within narrower limits is a path within wider limits**, with the same item at its end. -/
theorem Walked.widen (h : cfg.Narrower cfg') {done : List BlockId} {i : Item}
    (hw : Walked g cfg resolve done i) : Walked g cfg' resolve done i := by
  induction hw with
  | start => exact .start
  | step _ he hv hk ih =>
      obtain ⟨v', hv', hwide⟩ := Visit.block_widens h hv
      exact ih.step (enter?_widen h he) hv' (continuations_widen hwide _ hk)

theorem Visited.widen (h : cfg.Narrower cfg') {v : Visit} (hv : Visited g cfg effect v) :
    ∃ v', Visited g cfg' effect v' ∧ v.Widens v' := by
  obtain ⟨done, i, j, hw, he, hb⟩ := hv
  obtain ⟨v', hb', hwide⟩ := Visit.block_widens h hb
  exact ⟨v', ⟨done, i, j, hw.widen h, enter?_widen h he, hb'⟩, hwide⟩

end Walk

/-! ### What a complete walk holds -/

namespace Ledger

/-- What is recorded was there or is the record of an alarm. -/
theorem exists_of_holds_recordAll (t : NodeTable) (alarms : List Alarm) (l : Ledger)
    {key : Misuse × Int × Int} (h : (l.recordAll t alarms).holds key = true) :
    l.holds key = true ∨ ∃ a ∈ alarms, a.key = key := by
  induction alarms generalizing l with
  | nil => exact .inl h
  | cons a alarms ih =>
      rcases ih (l.record (finding t l.function a)) h with h | ⟨b, hb, hk⟩
      · rw [record] at h
        split at h
        · exact .inl h
        · rw [holds, List.any_append, Bool.or_eq_true] at h
          refine h.imp_right fun h => ⟨a, List.mem_cons_self, ?_⟩
          have hk : (finding t l.function a).key = key := by simpa using h
          exact hk
      · exact .inr ⟨b, List.mem_cons_of_mem _ hb, hk⟩

end Ledger

namespace Walk

variable {g : FunctionGraph} {cfg cfg' : Config} {effect : String → CalleeEffect} {o : Outcome}

/-- A walk holds exactly what the visits of its paths bring. -/
structure Gathers (g : FunctionGraph) (cfg : Config) (effect : String → CalleeEffect) (o : Outcome) :
    Prop where
  findings : ∀ key, (∃ f ∈ o.findings, f.key = key) ↔
    ∃ v, Visited g cfg effect v ∧ ∃ a ∈ v.progress.alarms, a.key = key
  aliases : ∀ pair, pair ∈ o.summary.aliases ↔
    ∃ v, Visited g cfg effect v ∧ v.returns = true ∧ pair ∈ g.aliasPairs v.progress.state
  dropped : ∀ d, d ∈ o.summary.dropped ↔
    ∃ v, Visited g cfg effect v ∧ v.returns = true ∧ d ∈ g.droppedSlots v.progress.state

theorem gathers_of_complete (h : run g cfg (.pure effect) () = (.ok o, ()))
    (hc : o.complete = true) : Gathers g cfg effect o := by
  rw [run] at h
  split at h
  case h_2 => cases h
  case h_1 t complete u hx =>
    cases h
    obtain rfl : complete = true := hc
    obtain ⟨es, hp, -, rfl⟩ := (explore_eq_ok_iff _ _ _ _).mp hx
    have hb := Tally.brought_foldl g es { ledger := { function := g.name } }
    refine ⟨fun key => ?_, fun pair => ?_, fun d => ?_⟩
    · simp only [Outcome.ofTally, ← Ledger.holds_iff, hb.ledger, ← hp.mem_visits]
      constructor
      · intro hk
        rcases Ledger.exists_of_holds_recordAll _ _ _ hk with hk | ⟨a, ha, hk⟩
        · cases hk
        · obtain ⟨v, hv, ha⟩ := List.mem_flatMap.mp ha
          exact ⟨v, hv, a, ha, hk⟩
      · rintro ⟨v, hv, a, ha, rfl⟩
        exact Ledger.holds_recordAll _ _ _ (List.mem_flatMap.mpr ⟨v, hv, ha⟩)
    · refine (hb.aliases pair).trans ?_
      simp only [List.not_mem_nil, false_or, hp.mem_visits]
    · refine (hb.dropped d).trans ?_
      simp only [List.not_mem_nil, false_or, hp.mem_visits]

/-- **Wider limits lose nothing.**  Let two walks of a function, with the same knowledge of callees, be
complete, the second with loops unrolled no less often and panics followed if the first follows them.
Then the second has a finding of the same misuse, node and origin for every finding of the first, and
all its alias pairs and released slots. -/
theorem wider_limits_lose_nothing {g : FunctionGraph} {cfg cfg' : Config}
    {effect : String → CalleeEffect} {o o' : Outcome} (hunroll : cfg.loopUnroll ≤ cfg'.loopUnroll)
    (hunwind : cfg.followUnwind = true → cfg'.followUnwind = true)
    (h : run g cfg (.pure effect) () = (.ok o, ())) (hc : o.complete = true)
    (h' : run g cfg' (.pure effect) () = (.ok o', ())) (hc' : o'.complete = true) :
    (∀ f ∈ o.findings, ∃ f' ∈ o'.findings, f'.key = f.key) ∧
      o.summary.aliases ⊆ o'.summary.aliases ∧ o.summary.dropped ⊆ o'.summary.dropped := by
  have hn : cfg.Narrower cfg' := ⟨hunroll, hunwind⟩
  have hsmall := gathers_of_complete h hc
  have hlarge := gathers_of_complete h' hc'
  refine ⟨fun f hf => ?_, fun pair hpair => ?_, fun d hd => ?_⟩
  · obtain ⟨v, hv, a, ha, hk⟩ := (hsmall.findings f.key).mp ⟨f, hf, rfl⟩
    obtain ⟨v', hv', hw⟩ := hv.widen hn
    exact (hlarge.findings f.key).mpr ⟨v', hv', a, hw.progress ▸ ha, hk⟩
  · obtain ⟨v, hv, hr, hp⟩ := (hsmall.aliases pair).mp hpair
    obtain ⟨v', hv', hw⟩ := hv.widen hn
    exact (hlarge.aliases pair).mpr ⟨v', hv', hw.returns.trans hr, hw.progress ▸ hp⟩
  · obtain ⟨v, hv, hr, hp⟩ := (hsmall.dropped d).mp hd
    obtain ⟨v', hv', hw⟩ := hv.widen hn
    exact (hlarge.dropped d).mpr ⟨v', hv', hw.returns.trans hr, hw.progress ▸ hp⟩

/-- A function that returns a copy of its first argument and, as often as its second one says,
releases it by hand; if that panics, it looks at what it has released. -/
def drain : Body where
  name := "drain"
  argCount := 2
  locals := [{ ty := .rawPtr true Ty.int32 }, { ty := .rawPtr true Ty.int32 }, { ty := Ty.int32 },
    { ty := Ty.int32 }]
  blocks :=
    [{ id := 0, statements := [⟨default, .assign { base := 0 } (.use (.copy { base := 1 }))⟩],
       terminator := ⟨default, .goto 1⟩ },
     { id := 1, statements := [],
       terminator := ⟨default, .switchInt (.copy { base := 2 }) [(0, 3)] (some 2)⟩ },
     { id := 2, statements := [],
       terminator := ⟨default, .call "release" [.copy { base := 1 }] { base := 3 } (some 1) (some 4)⟩ },
     { id := 3, statements := [], terminator := ⟨default, .ret⟩ },
     { id := 4, isCleanup := true,
       statements :=
        [⟨default, .assign { base := 3 } (.use (.copy { base := 1, steps := [.deref] }))⟩],
       terminator := ⟨default, .resume⟩ }]
  distinct := by decide

/-- Its graph. -/
def drainGraph : FunctionGraph := (FunctionGraph.ofBody .empty drain).toOption.get rfl

/-- Knows that `release` releases the memory behind its argument. -/
def releasing (callee : String) : CalleeEffect :=
  if callee = "release" then .modelled { drops := [0], manual := true, throughPointer := true }
  else .unknown

/-- Followed on panics and unrolled once more, the loop is found to use what it has released; it is
found to release it twice with either limits. -/
theorem drain_loses_nothing :
    ∃ o o', run drainGraph {} (.pure releasing) () = (.ok o, ()) ∧ o.complete = true ∧
      run drainGraph { loopUnroll := 3, followUnwind := true } (.pure releasing) () =
        (.ok o', ()) ∧ o'.complete = true ∧
      o.findings.map (·.key) = [(.doubleFree, 1, 1), (.useAfterFree, 0, 1)] ∧
      o'.findings.length = 3 ∧ o.summary.aliases.length = 1 ∧ o.summary.dropped.length = 1 ∧
      (∀ f ∈ o.findings, ∃ f' ∈ o'.findings, f'.key = f.key) ∧
      o.summary.aliases ⊆ o'.summary.aliases ∧ o.summary.dropped ⊆ o'.summary.dropped := by
  have narrow : run drainGraph {} (.pure releasing) () = (.ok _, ()) := rfl
  have wide : run drainGraph { loopUnroll := 3, followUnwind := true } (.pure releasing) () =
      (.ok _, ()) := rfl
  have kept := wider_limits_lose_nothing (by decide) (by decide) narrow rfl wide rfl
  exact ⟨_, _, narrow, rfl, wide, rfl, by decide +kernel, by decide +kernel, by decide +kernel,
    by decide +kernel, kept⟩

end Walk

end Dangling
