import Dangling.Proofs.Path.Sources
import Dangling.Proofs.Walk.AllNames

/-!
# Proofs — Walk — Provenance

Every finding can be traced back.  On the path that met it, some drop released the memory for the
first time; the finding names the node of that drop as its origin and the end of the block that made
the drop as its location.

* `Deed.Frees`: a deed drops a node whose memory was not released before.
* `FunctionGraph.Freed`: what the deeds of a path have freed, and where.
* `FunctionGraph.sourced_stateAfter`: all that is released on a path was freed on it.
* `Walk.findings_have_provenance`: the provenance of findings.
-/

namespace Dangling

/-! ### Deeds -/

namespace Deed

/-- Where a deed is done. -/
def loc : Deed → Location
  | statement st => st.loc
  | finish b => b.terminator.loc
  | call site _ => site.loc

/-- The deed may drop something: it is a call, or the end of a scope that drops a place. -/
def MayDrop : Deed → Prop
  | statement _ => False
  | finish b => ∃ place target unwind, b.terminator.kind = .drop place target unwind
  | call _ _ => True

/-- In a state the deed drops the node `o`, and its memory was not released before. -/
def Frees (t : NodeTable) (s : PathState) (o : NodeId) : Deed → Prop
  | statement _ => False
  | finish b => (finish b).Drops t o ∧ (s.node o).owned = true ∧ s.isDropped o = false
  | call site _ => site.Frees t s o

/-- The deed is the end of a block by a call or a drop. -/
def EndOf (c : GraphBlock) (d : Deed) : Prop :=
  match c.terminator.kind with
  | .call callee args destination _ _ =>
    ∃ effect, d = call ⟨c.terminator.loc, callee, effect, args⟩ destination
  | .drop _ _ _ => d = finish c
  | _ => False

variable {t : NodeTable} {R : NodeId → Location → Prop}

theorem Frees.mayDrop {d : Deed} {s : PathState} {o : NodeId} (h : d.Frees t s o) : d.MayDrop := by
  cases d with
  | statement st => exact h.elim
  | finish b =>
      obtain ⟨⟨place, target, unwind, hk, -⟩, -⟩ := h
      exact ⟨place, target, unwind, hk⟩
  | call site destination => trivial

theorem EndOf.loc_eq {c : GraphBlock} {d : Deed} (h : d.EndOf c) : d.loc = c.terminator.loc := by
  rw [EndOf] at h
  split at h
  · obtain ⟨effect, rfl⟩ := h
    rfl
  · rw [h]
    rfl
  · exact h.elim

/-- A deed of a block that may drop something is its end. -/
theorem endOf_of_mem {c : GraphBlock} {effect : CalleeEffect} {d : Deed} (hd : d ∈ c.deeds effect)
    (hdrop : d.MayDrop) : d.EndOf c := by
  rw [GraphBlock.deeds] at hd
  rcases List.mem_append.mp hd with hd | hd
  · obtain ⟨st, -, rfl⟩ := List.mem_map.mp hd
    exact hdrop.elim
  · obtain rfl := List.mem_singleton.mp hd
    rw [EndOf]
    cases hk : c.terminator.kind with
    | call callee args destination target unwind => exact ⟨effect, rfl⟩
    | drop place target unwind => rfl
    | _ =>
        rw [hk] at hdrop
        obtain ⟨place, target, unwind, hdrop⟩ := hdrop
        cases hk.symm.trans hdrop

/-- The end of a block is a source only if it frees the node that it drops. -/
theorem sourced_finish (b : GraphBlock) {p : Progress}
    (h : p.Sourced R b.terminator.loc (finish b).MayDrop)
    (hfrees : ∀ o, (finish b).Frees t p.state o → R o b.terminator.loc) :
    (apply t p (finish b)).Sourced R b.terminator.loc (finish b).MayDrop := by
  rw [apply, Visit.plain]
  cases hk : b.terminator.kind with
  | goto _ | call _ _ _ _ _ | unreachable | resume | abort => exact h
  | switchInt discr arms otherwise =>
      dsimp only
      split <;> exact h.useOperand _ discr
  | ret => exact h.checkUse _ _
  | assert cond expected target unwind =>
      dsimp only
      split <;> exact h.useOperand _ cond
  | drop place target unwind =>
      dsimp only
      split
      · exact h.checkUse _ _
      case isFalse hd =>
        rw [Progress.releaseOwned]
        split
        case isFalse => exact h
        case isTrue hown =>
          refine h.release ⟨place, target, unwind, hk⟩ (fun hlive => hfrees _ ⟨?_, hown, hlive⟩) _ _
          exact ⟨place, target, unwind, hk, Prod.ext rfl (by simpa using hd)⟩

/-- **A deed keeps sources**, if what it frees has one. -/
theorem sourced_apply (ht : t.Layered) (d : Deed) {p : Progress} (h : p.Sourced R d.loc d.MayDrop)
    (hfrees : ∀ o, d.Frees t p.state o → R o d.loc) :
    (d.apply t p).Sourced R d.loc d.MayDrop := by
  cases d with
  | statement st => exact Progress.Sourced.statement ht h
  | finish b => exact sourced_finish b h hfrees
  | call site destination => exact CallSite.sourced_apply h trivial hfrees destination

/-- An alarm of several deeds is raised by one of them. -/
theorem exists_of_mem_alarms {a : Alarm} (deeds : List Deed) : ∀ {s : PathState},
    a ∈ (deeds.foldl (apply t) { state := s }).alarms →
      ∃ now d rest, deeds = now ++ d :: rest ∧
        a ∈ (d.apply t { state := (now.foldl (apply t) { state := s }).state }).alarms := by
  induction deeds with
  | nil => exact fun ha => absurd ha List.not_mem_nil
  | cons d deeds ih =>
      intro s ha
      rw [List.foldl_cons, (Progress.Blind.foldl blind_apply deeds).eq] at ha
      rcases List.mem_append.mp ha with ha | ha
      · exact ⟨[], d, deeds, rfl, ha⟩
      · obtain ⟨now, e, rest, rfl, ha⟩ := ih ha
        refine ⟨d :: now, e, rest, rfl, ?_⟩
        rwa [List.foldl_cons, (Progress.Blind.foldl blind_apply now).state_eq]

end Deed

/-! ### Paths -/

namespace FunctionGraph

variable {g : FunctionGraph} {done now : List Deed}

/-- A deed of the path, done at `loc`, freed the node `o`. -/
def Freed (g : FunctionGraph) (path : List Deed) (o : NodeId) (loc : Location) : Prop :=
  ∃ earlier e later, path = earlier ++ e :: later ∧ e.Frees g.nodes (g.stateAfter earlier) o ∧
    e.loc = loc

theorem Freed.append {o : NodeId} {loc : Location} (h : g.Freed done o loc) (now : List Deed) :
    g.Freed (done ++ now) o loc := by
  obtain ⟨earlier, e, later, rfl, hfrees, hloc⟩ := h
  exact ⟨earlier, e, later ++ now, by simp, hfrees, hloc⟩

/-- At the entry nothing is released. -/
theorem sourced_initialState (g : FunctionGraph) (R : NodeId → Location → Prop) :
    g.initialState.Sourced R := by
  have hinitial : (PathState.initial g.nodes.size).Sourced R := by
    intro n o l hn
    rw [PathState.fate_initial] at hn
    cases hn
  exact hinitial.course (g.course_initialState fun _ _ => trivial)

/-- One more deed. -/
theorem sourced_deed (ht : g.nodes.Layered) (h : (g.stateAfter done).Sourced (g.Freed done))
    (d : Deed) :
    (d.apply g.nodes { state := g.stateAfter done }).Sourced (g.Freed (done ++ [d])) d.loc
      d.MayDrop := by
  refine d.sourced_apply ht ⟨h.mono fun o loc ho => ho.append [d], ?_⟩ fun o ho => ?_
  · exact fun a ha => absurd ha List.not_mem_nil
  · exact ⟨done, d, [], rfl, ho, rfl⟩

/-- **All that is released on a path was freed on it.** -/
theorem sourced_stateAfter (ht : g.nodes.Layered) (path : List Deed) :
    (g.stateAfter path).Sourced (g.Freed path) := by
  have hrest : ∀ now done : List Deed, (g.stateAfter done).Sourced (g.Freed done) →
      (g.stateAfter (done ++ now)).Sourced (g.Freed (done ++ now)) := by
    intro now
    induction now with
    | nil =>
        intro done h
        rwa [List.append_nil]
    | cons d now ih =>
        intro done h
        have hnext : (g.stateAfter (done ++ [d])).Sourced (g.Freed (done ++ [d])) := by
          rw [g.stateAfter_append]
          exact (sourced_deed ht h d).state
        have hsplit : done ++ d :: now = (done ++ [d]) ++ now := by simp
        rw [hsplit]
        exact ih _ hnext
  exact hrest path [] (g.sourced_initialState _)

end FunctionGraph

/-! ### Records -/

namespace Ledger

theorem function_recordAll (t : NodeTable) (alarms : List Alarm) (l : Ledger) :
    (l.recordAll t alarms).function = l.function := by
  refine List.foldlRecOn (motive := fun k : Ledger => k.function = l.function) alarms _ rfl
    fun k hk a _ => ?_
  rw [record]
  split <;> exact hk

/-- A record was there before or is that of an alarm. -/
theorem mem_recordAll (t : NodeTable) (alarms : List Alarm) {l : Ledger} {f : Finding}
    (h : f ∈ (l.recordAll t alarms).entries) :
    f ∈ l.entries ∨ ∃ a ∈ alarms, f = finding t l.function a := by
  induction alarms generalizing l with
  | nil => exact .inl h
  | cons a alarms ih =>
      have hfunction : (l.record (finding t l.function a)).function = l.function :=
        function_recordAll t [a] l
      rcases ih (l := l.record (finding t l.function a)) h with h | ⟨b, hb, rfl⟩
      · rw [record] at h
        split at h
        · exact .inl h
        · rcases List.mem_append.mp h with h | h
          · exact .inl h
          · exact .inr ⟨a, List.mem_cons_self, List.mem_singleton.mp h⟩
      · exact .inr ⟨b, List.mem_cons_of_mem _ hb, by rw [hfunction]⟩

/-- Of each misuse, node and origin there is one record at most. -/
theorem nodup_recordAll (t : NodeTable) (alarms : List Alarm) (l : Ledger)
    (h : (l.entries.map Finding.key).Nodup) :
    ((l.recordAll t alarms).entries.map Finding.key).Nodup := by
  refine List.foldlRecOn (motive := fun k : Ledger => (k.entries.map Finding.key).Nodup) alarms _ h
    fun k hk a _ => ?_
  rw [record]
  split
  · exact hk
  case isFalse hnew =>
    rw [List.map_append, List.nodup_append]
    refine ⟨hk, List.pairwise_singleton _ _, fun x hx y hy => ?_⟩
    obtain ⟨f, hf, rfl⟩ := List.mem_map.mp hx
    obtain rfl := List.mem_singleton.mp hy
    intro hkey
    exact hnew (List.any_eq_true.mpr ⟨f, hf, beq_iff_eq.mpr hkey⟩)

end Ledger

namespace Walk

variable {σ : Type} {g : FunctionGraph} {cfg : Config} {resolve : Resolver σ}

/-- A deed of a visit that may drop something is the end of a block of the graph. -/
theorem exists_endOf_of_mem {j : Item} {s : σ} {d : Deed} (hd : d ∈ deedsOf g resolve j s)
    (hdrop : d.MayDrop) : ∃ c ∈ g.blocks, d.EndOf c := by
  rcases mem_deedsOf hd with ⟨c, hc, hd⟩ | rfl
  · exact ⟨c, hc, Deed.endOf_of_mem hd hdrop⟩
  · obtain ⟨place, target, unwind, hk⟩ := hdrop
    cases hk

/-- The findings of a ledger, each with the alarm of a visit that it tells of. -/
def Tally.Recounts (g : FunctionGraph) (legs : Leg → Prop) (t : Tally) : Prop :=
  t.ledger.function = g.name ∧ ∀ f ∈ t.ledger.entries,
    ∃ leg, legs leg ∧ ∃ a ∈ leg.visit.progress.alarms, f = Ledger.finding g.nodes g.name a

theorem Tally.Recounts.add {legs : Leg → Prop} {t : Tally} (h : t.Recounts g legs) {leg : Leg}
    (hleg : legs leg) : (t.add g leg.visit).Recounts g legs := by
  rw [Recounts, Tally.add_ledger]
  refine ⟨(Ledger.function_recordAll _ _ _).trans h.1, fun f hf => ?_⟩
  rcases Ledger.mem_recordAll _ _ hf with hf | ⟨a, ha, rfl⟩
  · exact h.2 f hf
  · exact ⟨leg, hleg, a, ha, by rw [h.1]⟩

/-- A finding of a walk is that of an alarm of one of its visits. -/
theorem exists_leg_of_mem_findings {s s' : σ} {o : Outcome}
    (hrun : run g cfg resolve s = (.ok o, s')) {f : Finding} (hf : f ∈ o.findings) :
    ∃ leg : Leg, leg.OnRun g cfg resolve s ∧
      ∃ a ∈ leg.visit.progress.alarms, f = Ledger.finding g.nodes g.name a := by
  obtain ⟨t, complete, hrecounts, rfl⟩ := Leg.OnRun.keeps
    (Q := Tally.Recounts g (Leg.OnRun g cfg resolve s)) hrun (fun _ h => h)
    (fun _ hleg _ h => h.add hleg) ⟨rfl, fun _ hf => absurd hf List.not_mem_nil⟩
  exact hrecounts.2 f (Sorted.mem_sortBy.mp hf)

/-- Findings of a walk differ in the misuse, the node or the origin. -/
theorem nodup_findings {s s' : σ} {o : Outcome} (hrun : run g cfg resolve s = (.ok o, s')) :
    (o.findings.map Finding.key).Nodup := by
  have hadd : ∀ (t : Tally) (v : Visit), (t.ledger.entries.map Finding.key).Nodup →
      ((t.add g v).ledger.entries.map Finding.key).Nodup := fun t v h => by
    rw [Tally.add_ledger]
    exact Ledger.nodup_recordAll _ _ _ h
  obtain ⟨t, complete, hnodup, rfl⟩ := Leg.OnRun.keeps
    (Q := fun t => (t.ledger.entries.map Finding.key).Nodup) hrun (fun _ h => h)
    (fun leg _ t h => hadd t leg.visit h) List.nodup_nil
  exact ((Sorted.sortBy_perm _ _).map _).nodup_iff.mpr hnodup

/-- **Findings have a provenance**, whatever is known of callees.

* In every state that a walk passes, a node is released if and only if its state tells whose drop it
  was, and if and only if it tells where.
* No two findings have the same misuse, node and origin.  Each one is raised on some path by a deed
  `d`, where it is located; a double free by the end of a block, a call or a drop.  A deed `e` of the
  path up to there, the end of a block too, freed the origin, where the finding says. -/
theorem findings_have_provenance {ds : Declarations} {b : Body} {g : FunctionGraph}
    (hg : FunctionGraph.ofBody ds b = .ok g) (cfg : Config) (resolve : Resolver σ) (s : σ) :
    (∀ leg : Leg, leg.OnRun g cfg resolve s → ∀ done state, leg.Passes g done state → ∀ n,
      (state.isDropped n = true ↔ (state.node n).fate.origin?.isSome = true) ∧
        (state.isDropped n = true ↔ (state.node n).fate.loc?.isSome = true)) ∧
    ∀ o s', run g cfg resolve s = (.ok o, s') →
      (o.findings.map Finding.key).Nodup ∧
      ∀ f ∈ o.findings, ∃ leg : Leg, leg.OnRun g cfg resolve s ∧
        ∃ done d rest, leg.path = done ++ d :: rest ∧ f.loc = d.loc ∧
          (∃ a ∈ (d.apply g.nodes { state := g.stateAfter done }).alarms,
            f = Ledger.finding g.nodes g.name a) ∧
          (f.kind = .doubleFree → ∃ c ∈ g.blocks, d.EndOf c ∧ f.loc = c.terminator.loc) ∧
          ∃ (earlier : List Deed) (e : Deed) (later : List Deed) (origin : NodeId),
            done ++ [d] = earlier ++ e :: later ∧
            e.Frees g.nodes (g.stateAfter earlier) origin ∧ f.origin = (origin : Int) ∧
            ∃ c ∈ g.blocks, e.EndOf c ∧ f.dropLoc = some c.terminator.loc := by
  have ht : g.nodes.Layered := (FunctionGraph.built_of_ofBody hg).layered
  refine ⟨fun leg hleg done state hpass n => ?_, fun o s' hrun => ⟨nodup_findings hrun, ?_⟩⟩
  · obtain ⟨now, rest, -, rfl, rfl⟩ := hpass
    rw [(Makes.true_to_path hleg (faithful_start g)).1, ← g.stateAfter_append]
    exact (FunctionGraph.sourced_stateAfter ht _).told n
  · intro f hf
    obtain ⟨leg, hleg, a, ha, rfl⟩ := exists_leg_of_mem_findings hrun hf
    -- the deed of the visit that raises the alarm
    rw [Makes.progress hleg, (Makes.true_to_path hleg (faithful_start g)).1] at ha
    obtain ⟨now, d, rest, hdeeds, ha⟩ := Deed.exists_of_mem_alarms _ ha
    rw [← g.stateAfter_append] at ha
    have hpath : leg.path = (leg.before ++ now) ++ d :: rest := by
      rw [Leg.path, hdeeds, List.append_assoc]
    have hends : ∀ e ∈ leg.path, e.MayDrop → ∃ c ∈ g.blocks, e.EndOf c :=
      hleg.forall_path fun _ _ _ he hdrop => exists_endOf_of_mem he hdrop
    have hsourced := FunctionGraph.sourced_deed ht
      (FunctionGraph.sourced_stateAfter ht (leg.before ++ now)) d
    obtain ⟨hloc, ⟨l, hdropLoc, earlier, e, later, hsplit, hfrees, rfl⟩, hkind⟩ := hsourced.alarms a ha
    refine ⟨leg, hleg, leg.before ++ now, d, rest, hpath, hloc, ⟨a, ha, rfl⟩, fun hdouble => ?_,
      earlier, e, later, a.origin, hsplit, hfrees, rfl, ?_⟩
    · obtain ⟨c, hc, hend⟩ := hends d (by simp [hpath]) (hkind hdouble)
      exact ⟨c, hc, hend, hloc.trans hend.loc_eq⟩
    · have hmem : e ∈ leg.path := by
        have hon : e ∈ (leg.before ++ now) ++ [d] := by simp [hsplit]
        rw [hpath]
        rcases List.mem_append.mp hon with hon | hon
        · exact List.mem_append_left _ hon
        · exact List.mem_append_right _ (List.mem_singleton.mp hon ▸ List.mem_cons_self)
      obtain ⟨c, hc, hend⟩ := hends e hmem hfrees.mayDrop
      exact ⟨c, hc, hend, hdropLoc.trans (congrArg some hend.loc_eq)⟩

/-- A line of a file. -/
def onLine (n : Int) : Location := { file := "vectors", line := n }

/-- A function that releases its argument, a vector, through a pointer and drops it again. -/
def releasedTwice : Body where
  name := "released_twice"
  argCount := 1
  locals := [{ ty := Ty.unit }, { ty := .container .vec "Vec" [Ty.int32] },
    { ty := .rawPtr true Ty.int32 }, { ty := Ty.unit }]
  blocks :=
    [{ id := 0,
       statements := [⟨onLine 1, .assign { base := 2 } (.addressOf true { base := 1 })⟩],
       terminator :=
         ⟨onLine 2, .call "drop_in_place" [.copy { base := 2 }] { base := 3 } (some 1) none⟩ },
     { id := 1, statements := [], terminator := ⟨onLine 3, .drop { base := 1 } 2 none⟩ },
     { id := 2, statements := [], terminator := ⟨onLine 4, .ret⟩ }]
  distinct := by decide

/-- Its graph. -/
def releasedTwiceGraph : FunctionGraph :=
  (FunctionGraph.ofBody .empty releasedTwice).toOption.get rfl

/-- The double free of the vector, at the end of its scope, goes back to the call that dropped the
pointer. -/
theorem releasedTwice_has_provenance :
    FunctionGraph.ofBody .empty releasedTwice = .ok releasedTwiceGraph ∧
      ∃ o, run releasedTwiceGraph {} releasesPointee () = (.ok o, ()) ∧
        ∃ f ∈ o.findings, f.kind = .doubleFree ∧ f.node = 1 ∧ f.origin = 2 ∧
          f.loc = onLine 3 ∧ f.dropLoc = some (onLine 2) ∧
          ∃ leg : Leg, leg.OnRun releasedTwiceGraph {} releasesPointee () ∧
            ∃ path d, (path ++ [d]) <+: leg.path ∧
              (∃ c ∈ releasedTwiceGraph.blocks, d.EndOf c ∧
                c.terminator.loc = onLine 3) ∧
              ∃ e ∈ path ++ [d], ∃ state, e.Frees releasedTwiceGraph.nodes state 2 := by
  have hg : FunctionGraph.ofBody .empty releasedTwice = .ok releasedTwiceGraph := rfl
  obtain ⟨o, walked, f, hf, hkind, hnode, horigin, hloc, hdropLoc⟩ : ∃ o,
      run releasedTwiceGraph {} releasesPointee () = (.ok o, ()) ∧
        ∃ f ∈ o.findings, f.kind = .doubleFree ∧ f.node = 1 ∧ f.origin = 2 ∧
          f.loc = onLine 3 ∧ f.dropLoc = some (onLine 2) :=
    ⟨_, rfl, _, .head _, rfl, rfl, rfl, rfl, rfl⟩
  obtain ⟨leg, hleg, done, d, rest, hpath, -, -, hdouble, earlier, e, later, origin, hsplit, hfrees,
    hnumber, -⟩ := ((findings_have_provenance hg {} releasesPointee ()).2 o () walked).2 f hf
  obtain ⟨c, hc, hend, hat⟩ := hdouble hkind
  obtain rfl : origin = 2 := by
    rw [horigin] at hnumber
    exact Int.ofNat.inj hnumber.symm
  refine ⟨hg, o, walked, f, hf, hkind, hnode, horigin, hloc, hdropLoc, leg, hleg, done, d,
    ⟨rest, by rw [hpath, List.append_assoc]; rfl⟩, ⟨c, hc, hend, hat.symm.trans hloc⟩, e, ?_,
    _, hfrees⟩
  rw [hsplit]
  exact List.mem_append_right _ List.mem_cons_self

end Walk

end Dangling
