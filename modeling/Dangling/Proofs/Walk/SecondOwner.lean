import Dangling.Proofs.Walk.History

/-!
# Proofs — Walk — SecondOwner

Memory that is given a second owner is released twice, and this is found.  A call that makes its
result an owner of an argument's memory taints all that name the memory.  From then on the two owners
stay owners, of one class and tainted, until one of them is written anew or its value is taken out,
whatever else happens on the path.  So when both go out of scope, the first drop releases the memory
under both names, unless that is done already, and the second one is a double free.

* `PathState.BothOwn`: two nodes own the same memory, which was handled by hand; kept by every deed
  that has neither in its footprint.
* `CallSite.tainted_link`: the names of memory that gets a new owner.
* `Walk.second_owner_is_reported`: the double free is found on every path that drops both.
-/

namespace Dangling

/-! ### Two owners -/

/-- Two nodes own the same memory, and it was handled by hand. -/
structure PathState.BothOwn (s : PathState) (v w : NodeId) : Prop where
  classes : s.Partitioned
  sameMemory : w ∈ s.aliases v
  owned : (s.node v).owned = true ∧ (s.node w).owned = true
  tainted : (s.node v).tainted = true ∧ (s.node w).tainted = true

namespace PathState.BothOwn

variable {s s' : PathState} {v w : NodeId} {t : NodeTable}

theorem symm (h : s.BothOwn v w) : s.BothOwn w v :=
  ⟨h.classes, h.classes.symm h.sameMemory, h.owned.symm, h.tainted.symm⟩

theorem apply (h : s.BothOwn v w) {a : Act} (hv : v ∉ a.rewrites) (hw : w ∉ a.rewrites) :
    (a.apply s).BothOwn v w := by
  have hvs := s.stays_apply a hv
  have hws := s.stays_apply a hw
  refine ⟨h.classes.apply a, h.classes.mem_aliases_apply a hv hw h.sameMemory, ⟨?_, ?_⟩,
    hvs.tainted h.tainted.1, hws.tainted h.tainted.2⟩
  · rw [hvs.owned, h.owned.1]
  · rw [hws.owned, h.owned.2]

theorem course {W : List NodeId} (h : s.BothOwn v w) (hv : v ∉ W) (hw : w ∉ W)
    (hc : Course (Act.Within W) s s') : s'.BothOwn v w :=
  hc.keeps (P := fun u => u.BothOwn v w)
    (fun _ _ ha hu => hu.apply (fun hm => hv (ha hm)) fun hm => hw (ha hm)) h

end PathState.BothOwn

/-! ### The new owner -/

namespace CallSite

variable {c : CallSite} {t : NodeTable} {s : PathState} {dest : NodeId}

theorem partitioned_reconstruct (h : s.Partitioned) (i : Int) :
    (c.reconstruct t dest s i).Partitioned := by
  rw [reconstruct]
  split
  · exact (h.join _ _).apply (.taint dest)
  · exact h

/-- All names of the memory are tainted by a new owner. -/
theorem tainted_reconstruct (h : s.Partitioned) {i : Int} (hi : (c.argNode t i).isSome = true) :
    ∀ n ∈ (c.reconstruct t dest s i).aliases dest,
      ((c.reconstruct t dest s i).node n).tainted = true := by
  intro n hn
  obtain ⟨id, hid⟩ := Option.isSome_iff_exists.mp hi
  simp only [reconstruct, hid] at hn ⊢
  rw [PathState.aliases_taint] at hn
  rw [PathState.node_taint, if_pos ⟨hn, (h.join _ _).lt hn⟩]

/-- **A call that gives memory a new owner taints all its names.** -/
theorem tainted_link {m : Model} (hs : s.Partitioned) (he : c.effect = .modelled m)
    (hrec : ∃ i ∈ m.reconstructs, (c.argNode t i).isSome = true) :
    ∀ n ∈ (c.link t dest s).aliases dest, ((c.link t dest s).node n).tainted = true := by
  simp only [link, he]
  have hstart : (m.retAliases.foldl (c.joinArg t dest) s).Partitioned := by
    refine List.foldlRecOn _ _ hs fun u hu i _ => ?_
    rw [joinArg]
    split
    · exact hu.join _ _
    · exact hu
  generalize m.retAliases.foldl (c.joinArg t dest) s = u at hstart
  obtain ⟨i, hi, hsome⟩ := hrec
  obtain ⟨before, after, hsplit⟩ := List.append_of_mem hi
  rw [hsplit, List.foldl_append, List.foldl_cons]
  have hbefore : (before.foldl (c.reconstruct t dest) u).Partitioned :=
    List.foldlRecOn _ _ hstart fun u hu i _ => partitioned_reconstruct hu i
  -- the arguments after this one are tainted anew, or are no places and change nothing
  refine (List.foldlRecOn (motive := fun u : PathState =>
      u.Partitioned ∧ ∀ n ∈ u.aliases dest, (u.node n).tainted = true) after _
    ⟨partitioned_reconstruct hbefore i, tainted_reconstruct hbefore hsome⟩ fun u hu j _ => ?_).2
  refine ⟨partitioned_reconstruct hu.1 j, ?_⟩
  cases hj : c.argNode t j with
  | some id => exact tainted_reconstruct hu.1 (by rw [hj]; rfl)
  | none =>
      rw [reconstruct, hj]
      exact hu.2

theorem state_apply_of_node (c : CallSite) {destination : Place}
    (hd : t.lookup destination = (dest, false)) (p : Progress) :
    (c.apply t destination p).state =
      c.link t dest (c.store t dest (c.move t (c.drop t (c.use t p)).state)) := by
  rw [apply, hd]
  rfl

end CallSite

/-- Two owners right after a call that makes the result one of them. -/
theorem CallSite.bothOwn_apply {c : CallSite} {t : NodeTable} {m : Model} {destination : Place}
    {v w : NodeId} {p : Progress} (hp : p.state.Partitioned) (he : c.effect = .modelled m)
    (hrec : ∃ i ∈ m.reconstructs, (c.argNode t i).isSome = true)
    (hw : t.lookup destination = (w, false))
    (hvw : v ∈ (c.apply t destination p).state.aliases w)
    (hov : ((c.apply t destination p).state.node v).owned = true)
    (how : ((c.apply t destination p).state.node w).owned = true) :
    (c.apply t destination p).state.BothOwn v w := by
  have hclasses : (c.apply t destination p).state.Partitioned :=
    hp.course (c.course_apply destination p)
  have htainted : ∀ n ∈ (c.apply t destination p).state.aliases w,
      ((c.apply t destination p).state.node n).tainted = true := by
    rw [c.state_apply_of_node hw]
    refine tainted_link ?_ he hrec
    have hdrop : (c.drop t (c.use t p)).state.Partitioned := by
      rw [drop_eq]
      refine List.foldlRecOn (motive := fun q : Progress => q.state.Partitioned) _ _ ?_
        fun q hq x _ => hq.course (Progress.course_release (W := []) .refl _ _ _ _)
      rw [state_use]
      exact hp
    have hmove := hdrop.course
      (c.course_move (t := t) (A := fun _ => True) (fun _ _ => trivial) .refl)
    exact hmove.course (c.course_store (fun _ h => h) .refl)
  have hself : w ∈ (c.apply t destination p).state.aliases w :=
    hclasses.self w (PathState.lt_of_mem_aliases hvw)
  exact ⟨hclasses, hclasses.symm hvw, ⟨hov, how⟩, htainted v hvw, htainted w hself⟩

/-! ### Drops -/

namespace Progress

variable {t : NodeTable} {p : Progress} {n : NodeId}

/-- A drop of memory that is released already, handled by hand, is a double free. -/
theorem releaseOwned_again (loc : Location) (context : String) (ho : (p.state.node n).owned = true)
    (ht : (p.state.node n).tainted = true) (hd : p.state.isDropped n = true) :
    ∃ a ∈ (p.releaseOwned t n loc context).alarms, a.kind = .doubleFree ∧ a.node = n := by
  have htainted : p.state.isTainted n = true := by
    rw [PathState.isTainted, ht]
    rfl
  rw [releaseOwned, if_pos ho, release, if_pos hd, htainted, Bool.or_true, if_pos rfl]
  exact ⟨_, List.mem_append_right _ List.mem_cons_self, rfl, rfl⟩

/-- A first drop releases the memory under all its names. -/
theorem releaseOwned_first (loc : Location) (context : String) (hp : p.state.Partitioned)
    (ho : (p.state.node n).owned = true) (hd : p.state.isDropped n = false) {m : NodeId}
    (hm : m ∈ p.state.aliases n) : (p.releaseOwned t n loc context).state.isDropped m = true := by
  have htarget : m ∈ dropTargets t p.state n :=
    List.mem_append_left _ (List.mem_flatMap.mpr ⟨m, hm, t.self_mem_subtree m⟩)
  rw [releaseOwned, if_pos ho, release, hd, if_neg Bool.false_ne_true, state_on,
    PathState.isDropped, PathState.node_markDropped, if_pos ⟨htarget, hp.lt hm⟩]
  rfl

end Progress

namespace Deed

variable {t : NodeTable} {v w : NodeId}

theorem Drops.apply_eq {d : Deed} (h : d.Drops t v) (p : Progress) :
    ∃ loc context, d.apply t p = p.releaseOwned t v loc context := by
  cases d with
  | statement st => exact nomatch h
  | call site destination => exact nomatch h
  | finish b =>
      obtain ⟨place, target, unwind, hk, hl⟩ := h
      refine ⟨b.terminator.loc, "scope end", ?_⟩
      simp only [Deed.apply, Visit.plain, hk, hl]
      rfl

theorem Drops.unique {d : Deed} (hv : d.Drops t v) (hw : d.Drops t w) : v = w := by
  cases d with
  | statement st => exact nomatch hv
  | call site destination => exact nomatch hv
  | finish b =>
      obtain ⟨place, target, unwind, hk, hl⟩ := hv
      obtain ⟨place', target', unwind', hk', hl'⟩ := hw
      obtain ⟨rfl, -, -⟩ := TerminatorKind.drop.inj (hk.symm.trans hk')
      exact congrArg Prod.fst (hl.symm.trans hl')

/-- Alarms are never taken back. -/
theorem alarms_subset_foldl (deeds : List Deed) (p : Progress) :
    p.alarms ⊆ (deeds.foldl (Deed.apply t) p).alarms := by
  rw [(Progress.Blind.foldl (Deed.blind_apply (t := t)) deeds).eq p]
  exact List.subset_append_left _ _

/-- The node is neither written anew nor is its value taken out. -/
def Spares (t : NodeTable) (n : NodeId) (d : Deed) : Prop := n ∉ d.footprint t

/-- A path that still drops an owner of released memory. -/
theorem alarm_of_released (ht : t.Layered) (deeds : List Deed) :
    ∀ {p : Progress}, p.state.BothOwn v w → p.state.isDropped v = true →
      (∀ d ∈ deeds, d.Spares t v ∧ d.Spares t w) → (∃ d ∈ deeds, d.Drops t v) →
      ∃ a ∈ (deeds.foldl (Deed.apply t) p).alarms, a.kind = .doubleFree ∧ a.node = v := by
  induction deeds with
  | nil =>
      intro p _ _ _ hdrop
      obtain ⟨d, hd, -⟩ := hdrop
      exact nomatch hd
  | cons d deeds ih =>
      intro p hboth hdropped hspare hdrop
      obtain ⟨⟨hv, hw⟩, hspare⟩ := List.forall_mem_cons.mp hspare
      rw [List.foldl_cons]
      by_cases hd : d.Drops t v
      · obtain ⟨loc, context, he⟩ := hd.apply_eq p
        obtain ⟨a, ha, hkind⟩ :=
          Progress.releaseOwned_again (t := t) loc context hboth.owned.1 hboth.tainted.1 hdropped
        exact ⟨a, alarms_subset_foldl deeds _ (he ▸ ha), hkind⟩
      · have hcourse := d.course_apply ht p
        have hstays := PathState.stays_course hcourse hv
        refine ih (hboth.course hv hw hcourse) (hstays.dropped hdropped) hspare ?_
        obtain ⟨e, he, hev⟩ := hdrop
        rcases List.mem_cons.mp he with rfl | he
        · exact absurd hev hd
        · exact ⟨e, he, hev⟩

/-- **A path that drops both owners raises an alarm for one of them**, in whatever order they are
dropped and whatever it does between. -/
theorem alarm_of_both_dropped (ht : t.Layered) (hne : v ≠ w) (deeds : List Deed) :
    ∀ {p : Progress}, p.state.BothOwn v w →
      (∀ d ∈ deeds, d.Spares t v ∧ d.Spares t w) → (∃ d ∈ deeds, d.Drops t v) →
      (∃ d ∈ deeds, d.Drops t w) →
      ∃ a ∈ (deeds.foldl (Deed.apply t) p).alarms,
        a.kind = .doubleFree ∧ (a.node = v ∨ a.node = w) := by
  -- the first of the two drops, of `m`, leaves the other node `n` released
  have hfirst : ∀ {m n : NodeId} {d : Deed} {rest : List Deed} {p : Progress}, m ≠ n →
      p.state.BothOwn m n → d.Drops t m → d.Spares t m → d.Spares t n →
      (∀ e ∈ rest, e.Spares t n ∧ e.Spares t m) → (∃ e ∈ d :: rest, e.Drops t n) →
      ∃ a ∈ (rest.foldl (Deed.apply t) (d.apply t p)).alarms,
        a.kind = .doubleFree ∧ (a.node = m ∨ a.node = n) := by
    intro m n d rest p hne hboth hd hm hn hspare hdrop
    have hrest : ∃ e ∈ rest, e.Drops t n := by
      obtain ⟨e, he, hen⟩ := hdrop
      rcases List.mem_cons.mp he with rfl | he
      · exact absurd (hd.unique hen) hne
      · exact ⟨e, he, hen⟩
    obtain ⟨loc, context, he⟩ := hd.apply_eq p
    cases hdropped : p.state.isDropped m with
    | true =>
        obtain ⟨a, ha, hkind, hnode⟩ :=
          Progress.releaseOwned_again (t := t) loc context hboth.owned.1 hboth.tainted.1 hdropped
        exact ⟨a, alarms_subset_foldl rest _ (he ▸ ha), hkind, .inl hnode⟩
    | false =>
        have hreleased : (d.apply t p).state.isDropped n = true := by
          rw [he]
          exact Progress.releaseOwned_first loc context hboth.classes hboth.owned.1 hdropped
            hboth.sameMemory
        have hstill := (hboth.course hm hn (d.course_apply ht p)).symm
        obtain ⟨a, ha, hkind, hnode⟩ := alarm_of_released ht rest hstill hreleased hspare hrest
        exact ⟨a, ha, hkind, .inr hnode⟩
  induction deeds with
  | nil =>
      intro p _ _ hdrop _
      obtain ⟨d, hd, -⟩ := hdrop
      exact nomatch hd
  | cons d deeds ih =>
      intro p hboth hspare hdropv hdropw
      obtain ⟨⟨hv, hw⟩, hspare⟩ := List.forall_mem_cons.mp hspare
      rw [List.foldl_cons]
      by_cases hdv : d.Drops t v
      · exact hfirst hne hboth hdv hv hw (fun e he => (hspare e he).symm) hdropw
      by_cases hdw : d.Drops t w
      · obtain ⟨a, ha, hkind, hnode⟩ := hfirst hne.symm hboth.symm hdw hw hv hspare hdropv
        exact ⟨a, ha, hkind, hnode.symm⟩
      refine ih (hboth.course hv hw (d.course_apply ht p)) hspare ?_ ?_
      · obtain ⟨e, he, hev⟩ := hdropv
        rcases List.mem_cons.mp he with rfl | he
        · exact absurd hev hdv
        · exact ⟨e, he, hev⟩
      · obtain ⟨e, he, hew⟩ := hdropw
        rcases List.mem_cons.mp he with rfl | he
        · exact absurd hew hdw
        · exact ⟨e, he, hew⟩

end Deed

namespace Walk

variable {σ : Type}

/-- **A second owner is found.**  Let a path of a walk call a function that makes its result `w` an
owner of the memory of an argument, and let `w` and another node `v` own the same memory then.  If the
path drops both afterwards, and writes neither anew nor takes its value out, then by the end of the
path's last visit a double free of `v` or `w` is recorded, and it is among the findings of the
function. -/
theorem second_owner_is_reported {ds : Declarations} {b : Body} {g : FunctionGraph}
    (hb : FunctionGraph.ofBody ds b = .ok g) {cfg : Config} {resolve : Resolver σ} {s : σ}
    {leg : Leg} (hleg : leg.OnRun g cfg resolve s) {earlier later : List Deed} {site : CallSite}
    {destination : Place} (hpath : leg.path = earlier ++ .call site destination :: later)
    {m : Model} (hmodel : site.effect = .modelled m)
    (hrec : ∃ i ∈ m.reconstructs, (site.argNode g.nodes i).isSome = true) {v w : NodeId}
    (hw : g.nodes.lookup destination = (w, false)) (hne : v ≠ w)
    (hclass : v ∈ (g.stateAfter (earlier ++ [.call site destination])).aliases w)
    (hownv : ((g.stateAfter (earlier ++ [.call site destination])).node v).owned = true)
    (hownw : ((g.stateAfter (earlier ++ [.call site destination])).node w).owned = true)
    (hspare : ∀ d ∈ later, d.Spares g.nodes v ∧ d.Spares g.nodes w)
    (hdropv : ∃ d ∈ later, d.Drops g.nodes v) (hdropw : ∃ d ∈ later, d.Drops g.nodes w) :
    (∃ f ∈ leg.tally.ledger.findings, f.kind = .doubleFree ∧ (f.node = v ∨ f.node = w)) ∧
      ∀ o s', run g cfg resolve s = (.ok o, s') →
        ∃ f ∈ o.findings, f.kind = .doubleFree ∧ (f.node = v ∨ f.node = w) := by
  have ht : g.nodes.Layered := (FunctionGraph.built_of_ofBody hb).layered
  have hboth : (g.stateAfter (earlier ++ [.call site destination])).BothOwn v w := by
    rw [g.stateAfter_append] at hclass hownv hownw ⊢
    have hpart := FunctionGraph.partitioned_stateAfter ht earlier
    exact CallSite.bothOwn_apply hpart hmodel hrec hw hclass hownv hownw
  obtain ⟨a, ha, hkind, hnode⟩ := Deed.alarm_of_both_dropped ht hne later
    (p := { state := g.stateAfter (earlier ++ [.call site destination]) }) hboth hspare hdropv hdropw
  have hon : a ∈ g.alarmsOn leg.path := by
    have happend : leg.path = (earlier ++ [.call site destination]) ++ later := by simp [hpath]
    rw [happend, g.alarmsOn_append]
    exact List.mem_append_right _ ha
  have hfinding : ∀ f : Finding, f.key = a.key →
      f.kind = .doubleFree ∧ (f.node = v ∨ f.node = w) := by
    intro f hf
    obtain ⟨hk, hn, -⟩ : f.kind = a.kind ∧ f.node = a.node ∧ f.origin = a.origin := by
      simpa [Finding.key, Alarm.key] using hf
    rw [hk, hn]
    exact ⟨hkind, hnode.imp (congrArg _) (congrArg _)⟩
  obtain ⟨⟨f, hf, hk⟩, hrun⟩ := hleg.reported hon
  refine ⟨⟨f, hf, hfinding f hk⟩, fun o s' ho => ?_⟩
  obtain ⟨f, hf, hk⟩ := hrun o s' ho
  exact ⟨f, hf, hfinding f hk⟩

/-- A function that makes a vector of the parts of its argument, another vector, and drops both. -/
def twoOwners : Body where
  name := "two_owners"
  argCount := 1
  locals := [{ ty := Ty.unit }, { ty := .container .vec "Vec" [Ty.int32] },
    { ty := .rawPtr true Ty.int32 }, { ty := .container .vec "Vec" [Ty.int32] }]
  blocks :=
    [{ id := 0, statements := [⟨default, .assign { base := 2 } (.addressOf true { base := 1 })⟩],
       terminator :=
         ⟨default, .call "from_raw_parts" [.copy { base := 2 }] { base := 3 } (some 1) none⟩ },
     { id := 1, statements := [], terminator := ⟨default, .drop { base := 3 } 2 none⟩ },
     { id := 2, statements := [], terminator := ⟨default, .drop { base := 1 } 3 none⟩ },
     { id := 3, statements := [], terminator := ⟨default, .ret⟩ }]
  distinct := by decide

/-- Its graph. -/
def twoOwnersGraph : FunctionGraph := (FunctionGraph.ofBody .empty twoOwners).toOption.get rfl

/-- Every callee makes a new owner of its first argument's memory. -/
def newOwners : Resolver Unit :=
  .pure fun _ => .modelled { reconstructs := [0], retOwned := some true }

theorem twoOwners_is_reported :
    FunctionGraph.ofBody .empty twoOwners = .ok twoOwnersGraph ∧
      (∃ leg : Leg, leg.OnRun twoOwnersGraph {} newOwners () ∧ leg.path.length = 4 ∧
        ∃ f ∈ leg.tally.ledger.findings, f.kind = .doubleFree ∧ (f.node = 1 ∨ f.node = 3)) ∧
      ∃ o, run twoOwnersGraph {} newOwners () = (.ok o, ()) ∧
        ∃ f ∈ o.findings, f.kind = .doubleFree ∧ (f.node = 1 ∨ f.node = 3) := by
  have hg : FunctionGraph.ofBody .empty twoOwners = .ok twoOwnersGraph := rfl
  obtain ⟨leg, hleg, hpath⟩ : ∃ leg : Leg, leg.OnRun twoOwnersGraph {} newOwners () ∧
      leg.path = [.statement ⟨default, .assign { base := 2 } (.addressOf true { base := 1 })⟩] ++
        .call ⟨default, "from_raw_parts",
            .modelled { reconstructs := [0], retOwned := some true }, [.copy { base := 2 }]⟩
          { base := 3 } ::
        [.finish ((twoOwnersGraph.block? 1).getD default),
          .finish ((twoOwnersGraph.block? 2).getD default)] :=
    ⟨_, .onward rfl rfl (.onward rfl rfl (.visit rfl rfl)), rfl⟩
  have found := second_owner_is_reported (v := 1) (w := 3) hg hleg hpath rfl ⟨0, .head _, rfl⟩ rfl
    (by decide) (by decide) rfl rfl
    (List.forall_mem_cons.mpr ⟨⟨List.not_mem_nil, List.not_mem_nil⟩,
      List.forall_mem_cons.mpr ⟨⟨List.not_mem_nil, List.not_mem_nil⟩, List.forall_mem_nil _⟩⟩)
    ⟨_, .tail _ (.head _), _, _, _, rfl, rfl⟩ ⟨_, .head _, _, _, _, rfl, rfl⟩
  have walked : run twoOwnersGraph {} newOwners () = (.ok _, ()) := rfl
  exact ⟨hg, ⟨leg, hleg, by rw [hpath]; rfl, found.1⟩, _, walked, found.2 _ _ walked⟩

end Walk

end Dangling
