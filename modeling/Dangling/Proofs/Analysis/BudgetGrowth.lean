import Dangling.Proofs.Analysis.Memo
import Dangling.Proofs.Analysis.Once
import Dangling.Proofs.Walk.Answers

/-!
# Proofs — Analysis — BudgetGrowth

What a larger visit budget does to the reports on a program.  The walk of one function keeps its
findings; but the functions it calls are walked further too, and a summary that gains a slot released
by hand takes away the use that was found where the slot's argument is handed over
(`tandem_loses_a_finding`).  Findings stay where this cannot happen.

* `Report.Final`: no budget is asked for any more.
* `all_raise`: if all reports are final, a larger budget changes nothing, in any program.
* `plainReport_raise`: neither does it for a function below which all reports are final.
* `findings_raise`: a function keeps its findings if the functions it asks for keep their effects.
-/

namespace Dangling

/-- The walk came to its end, or the body is refused. -/
def Report.Final (r : Report) : Prop := r.complete = true ∨ r.isAnalyzed = false

/-- What a caller is told of a function: alias pairs and released slots. -/
def Report.effect (r : Report) : Option (List AliasPair × List DroppedSlot) :=
  r.summary.map fun sum => (sum.aliases, sum.dropped)

/-- All reports are final. -/
def Session.Spared (s : Session) : Prop := ∀ f r, s.cache.report? f = some r → r.Final

namespace Analyzer

/-- The same analysis with another budget. -/
def raise (a : Analyzer) (budget : Int) : Analyzer :=
  { a with config := { a.config with visitBudget := budget } }

variable {a : Analyzer} {A A' : Step Desk} {f g : String} {d d' : Desk} {s s' t : Session}
  {r : Report} {o : Walk.Outcome} {n : Nesting} {budget : Int} {names : List String} {rs done : List Report}

/-- The report of a walk is final if the walk came to its end. -/
theorem complete_of_final (h : (reportOf f o).Final) : o.complete = true :=
  h.resolve_right Bool.noConfusion

/-- If all reports are final in the end, they were on the way. -/
theorem Leaves.spared {α : Type} {x : Except AnalysisFault α × Desk} (h : Leaves a d x)
    (hs : x.2.session.Spared) : d.session.Spared :=
  fun g r hg => hs g r (h.grown g r hg)

/-- So was the report that came last. -/
theorem Concluded.spared (h : Concluded f r s s') (hu : s.cache.report? f = none)
    (hs : s'.Spared) : s.Spared ∧ r.Final := by
  refine ⟨fun g q hg => hs g q ?_, hs f r ?_⟩
  · have hne : g ≠ f := by
      rintro rfl
      cases hu.symm.trans hg
    rw [h.report, if_neg hne, hg]
  · rw [h.report, if_pos rfl]

/-! ### Where all reports are final -/

/-- Where analyses leave final reports only, the others bring the same. -/
def Frugal (a : Analyzer) (A A' : Step Desk) : Prop :=
  ∀ ⦃n f d⦄, Ready a n f d → d.session.cache.report? f = none →
    (A n f d).2.session.Spared → A' n f d = A n f d

section Frugal

variable (hA : Frugal a A A')

include hA

/-- The report that is kept is the same. -/
theorem Frugal.reported (hd : Ready a n f d)
    (hs : (reported A n f d).2.session.Spared) :
    reported A' n f d = reported A n f d := by
  rw [Analyzer.reported] at hs ⊢
  rw [Analyzer.reported]
  cases hu : (SessionStore.session d).cache.report? f with
  | some r => rfl
  | none =>
      rw [hu] at hs
      exact hA hd hu hs

variable (budget) (h : Lawful a A)

include h

/-- The cycle is entered at the same head. -/
theorem Frugal.fromHead (hd : Ready a n f d) (hu : d.session.cache.report? f = none)
    (hs : (a.fromHead A n f d).2.session.Spared) :
    (a.raise budget).fromHead A' n f d = a.fromHead A n f d := by
  have hhead : (a.raise budget).head f = a.head f := rfl
  rw [Analyzer.fromHead] at hs ⊢
  rw [Analyzer.fromHead, hhead]
  split at hs
  case isFalse hc =>
    rw [if_neg hc, if_neg hc]
    exact hA hd hu hs
  case isTrue hc =>
    rw [if_pos hc, if_pos hc]
    cases hr : (SessionStore.session d).cache.report? (a.head f) with
    | some r =>
        rw [hr] at hs
        exact hA.reported hd hs
    | none =>
        rw [hr] at hs
        dsimp only at hs ⊢
        generalize s!"{f} is recursive, entering its cycle at {a.head f}" = line at hs ⊢
        have hnote := Leaves.turn hd.sound (still_note d.session line) (.ok ())
        have hready : Ready a n (a.head f) (note d line) :=
          Ready.leaves { hd with idle := hd.active ▸ hc.2 } hnote
        have hlaw := hnote.trans (h hready hr).toLeaves
        have hsame := hA hready hr
        cases hx : A n (a.head f) (note d line) with
        | mk x d' =>
            rw [hx] at hs hlaw hsame
            cases x with
            | error fault => rw [hsame hs]
            | ok r =>
                have hafter : Ready a n f d' := hd.leaves hlaw
                rw [hsame ((h.reported hafter).toLeaves.spared hs)]
                exact hA.reported hafter hs

variable (hd : Sound a d) (hactive : n.active = d.active) (hdepth : n.depth = d.active.length)

include hd hactive hdepth

/-- A callee without a kept summary has the same one. -/
theorem Frugal.summaryUnless (kept : Option Summary)
    (hs : (a.summaryUnless kept A n f d).2.session.Spared) :
    (a.raise budget).summaryUnless kept A' n f d = a.summaryUnless kept A n f d := by
  have hprogram : (a.raise budget).program = a.program := rfl
  have hlimits : (a.raise budget).config.maxCallDepth = a.config.maxCallDepth := rfl
  unfold Analyzer.summaryUnless at hs ⊢
  rw [hprogram, hlimits]
  cases kept with
  | some sum => rfl
  | none =>
  cases hb : a.program.body? f with
  | none => rfl
  | some body =>
      rw [hb] at hs
      dsimp only at hs ⊢
      split at hs
      case isTrue hm => rw [if_pos hm, if_pos hm]
      case isFalse hm =>
        rw [if_neg hm, if_neg hm]
        split at hs
        case isTrue hlimit => rw [if_pos hlimit, if_pos hlimit]
        case isFalse hlimit =>
          rw [if_neg hlimit, if_neg hlimit]
          cases hr : (SessionStore.session d).cache.report? f with
          | some r => rfl
          | none =>
              rw [hr] at hs
              dsimp only at hs ⊢
              have hready : Ready a n f d := ⟨hd, hactive, hdepth, by omega, hactive ▸ hm⟩
              have hsame := hA.fromHead budget h hready hr
              cases hx : a.fromHead A n f d with
              | mk x d' =>
                  rw [hx] at hs hsame
                  cases x <;> rw [hsame hs]

/-- A callee has the same summary. -/
theorem Frugal.summary (hs : (a.summaryWith A n f d).2.session.Spared) :
    (a.raise budget).summaryWith A' n f d = a.summaryWith A n f d := by
  have hasked := Leaves.turn hd (still_asked d.session f) (.ok ())
  rw [summaryWith_asked] at hs ⊢
  rw [summaryWith_asked]
  exact hA.summaryUnless budget h hasked.sound hactive hdepth _ hs

/-- A walk hears the same of its callees. -/
theorem Frugal.resolver (c : String) (hs : (a.resolver A n f c d).2.session.Spared) :
    (a.raise budget).resolver A' n f c d = a.resolver A n f c d := by
  have hprogram : (a.raise budget).program = a.program := rfl
  rw [Analyzer.resolver] at hs ⊢
  rw [Analyzer.resolver, hprogram]
  cases hc : a.program.resolve c with
  | none => cases a.program.library.lookup c <;> rfl
  | some body =>
      rw [hc] at hs
      dsimp only at hs ⊢
      have hsame := hA.summary budget h hd hactive hdepth (f := body.name)
      cases hx : a.summaryWith A n body.name d with
      | mk x d' =>
          rw [hx] at hs hsame
          cases x with
          | error fault => rw [hsame hs]
          | ok found => cases found <;> rw [hsame hs]

/-- A walk that does not run out of budget, nor do the walks inside it. -/
theorem Frugal.walk (hle : a.config.visitBudget ≤ budget) (f : String) (gr : FunctionGraph)
    {x : Except AnalysisFault Walk.Outcome} (hs : d'.session.Spared)
    (hx : Walk.run gr a.config (a.resolver A n f) d = (x, d'))
    (hcomplete : ∀ o, x = .ok o → o.complete = true) :
    Walk.run gr (a.raise budget).config ((a.raise budget).resolver A' n f) d = (x, d') := by
  have hagree : Walk.run gr a.config ((a.raise budget).resolver A' n f) d = (x, d') := by
    rw [← hx, Walk.run_eq, Walk.run_eq]
    rw [Walk.run_eq] at hx
    refine (Dialogue.run_eq_of_final (I := fun d' => Sound a d' ∧ d'.active = d.active)
      (P := fun d' => d'.session.Spared) ?_ ?_ ?_ _ ⟨hd, rfl⟩ ?_).1
    · rintro c d' ⟨hd', hstack⟩
      have hc := h.resolver hd' (hactive.trans hstack.symm) (hstack ▸ hdepth) f c
      exact ⟨hc.sound, hc.active.trans hstack⟩
    · rintro c d' ⟨hd', hstack⟩ hend
      exact (h.resolver hd' (hactive.trans hstack.symm) (hstack ▸ hdepth) f c).spared hend
    · rintro c d' ⟨hd', hstack⟩ hend
      exact hA.resolver budget h hd' (hactive.trans hstack.symm) (hstack ▸ hdepth) c hend
    · rw [hx]
      exact hs
  rw [← hagree]
  refine Walk.run_eq_of_unspent hle fun o t ho => ?_
  cases hagree.symm.trans ho
  exact hcomplete o rfl

end Frugal

/-- A walk that came to its end is concluded in the same way with any budget. -/
theorem conclude_raise (a : Analyzer) (budget : Int) (ho : o.complete = true) :
    (a.raise budget).conclude f o s = a.conclude f o s := by
  rw [conclude, conclude, ho]
  rfl

/-- By induction on the fuel: analyses with the larger budget bring the same. -/
theorem analyze_frugal (a : Analyzer) (hle : a.config.visitBudget ≤ budget) (fuel : Nat) :
    Frugal a (a.analyze fuel) ((a.raise budget).analyze fuel) := by
  induction fuel with
  | zero => exact fun _ _ _ _ _ _ => rfl
  | succ fuel ih =>
      intro n f d hd hu hs
      have hprogram : (a.raise budget).program = a.program := rfl
      obtain ⟨henter, hactive, hdepth⟩ := hd.enter hu
      rw [analyze] at hs ⊢
      rw [analyze, hprogram]
      cases hb : a.program.body? f with
      | none => rfl
      | some body =>
      rw [hb] at hs
      dsimp only at hs ⊢
      cases hg : FunctionGraph.ofBody a.program.decls body with
      | error cause => rfl
      | ok gr =>
          rw [hg] at hs
          dsimp only at hs ⊢
          rw [show SessionStore.enter d f = d.enter f from rfl] at hs ⊢
          have hlaw := analyze_lawful a fuel
          have hleaves := hlaw.walk henter hactive hdepth f gr
          cases hx : Walk.run gr a.config (a.resolver (a.analyze fuel) (n.push f) f)
              (d.enter f) with
          | mk x d' =>
              rw [hx] at hs hleaves
              cases x with
              | error fault =>
                  have hspared : d'.session.Spared := hs
                  rw [ih.walk budget hlaw henter hactive hdepth hle f gr hspared hx fun o ho => by cases ho]
              | ok o =>
                  have htop := hleaves.sound.unkept_top hleaves.active
                  obtain ⟨hspared, hfinal⟩ :=
                    (hleaves.sound.concluded_walked htop a o).2.spared htop hs
                  have ho := complete_of_final hfinal
                  rw [ih.walk budget hlaw henter hactive hdepth hle f gr hspared hx
                    fun o' ho' => Except.ok.inj ho' ▸ ho]
                  dsimp only
                  rw [conclude_raise a budget ho]

/-- So do requests. -/
theorem function_raise (hle : a.config.visitBudget ≤ budget) (hd : Sound a d)
    (hidle : d.active = []) (hs : (a.function f d).2.session.Spared) :
    (a.raise budget).function f d = a.function f d := by
  have hbodies : (a.raise budget).program.hasBody f = a.program.hasBody f := rfl
  have hfuel : (a.raise budget).fuel = a.fuel := rfl
  rw [function] at hs ⊢
  rw [function, hbodies, hfuel]
  cases hu : (SessionStore.session d).cache.report? f with
  | some r => rfl
  | none =>
      rw [hu] at hs
      dsimp only at hs ⊢
      split at hs
      case isFalse hb => rw [if_neg hb, if_neg hb]
      case isTrue hb =>
        rw [if_pos hb, if_pos hb]
        exact (analyze_frugal a hle a.fuel).fromHead budget (analyze_lawful a a.fuel)
          (ready_start hd hidle f) hu hs

/-! ### The reports of requests -/

/-- Requests that are all answered bring reports that are kept, one for every name. -/
theorem functions_reports (hd : Sound a d) (hidle : d.active = [])
    (hdone : ∀ r ∈ done, d.session.cache.report? r.function = some r)
    (h : a.functions names done d.session = (.ok rs, t)) :
    ∃ d', Sound a d' ∧ d'.active = [] ∧ d'.session = t ∧ done ⊆ rs ∧
      (∀ r ∈ rs, t.cache.report? r.function = some r) ∧ ∀ f ∈ names, ∃ r ∈ rs, r.function = f := by
  induction names generalizing done d with
  | nil =>
      cases h
      exact ⟨d, hd, hidle, rfl, fun _ hr => hr, hdone, fun f hf => absurd hf List.not_mem_nil⟩
  | cons name names ih =>
      have hmatch : Matches (a.function name d) (a.function name d.session) :=
        function_matches a name d
      have hreports := function_reports a name hd hidle
      rw [functions] at h
      split at h
      case h_2 => cases h
      case h_1 r s' hr =>
        rw [hr] at hmatch
        obtain rfl : _ = s' := hmatch.session
        have hkept := hreports.kept r hmatch.result
        obtain ⟨hname, -⟩ := hreports.sound.known name r hkept
        have hgrown : ∀ q ∈ done, (a.function name d).2.session.cache.report? q.function = some q :=
          fun q hq => hreports.grown _ q (hdone q hq)
        by_cases hany : done.any (·.function == name) = true
        · rw [if_pos hany] at h
          obtain ⟨d', hd', hidle', hsession, hsub, hall, hnames⟩ :=
            ih hreports.sound (hreports.active.trans hidle) hgrown h
          refine ⟨d', hd', hidle', hsession, hsub, hall, List.forall_mem_cons.mpr ⟨?_, hnames⟩⟩
          obtain ⟨q, hq, hqname⟩ := List.any_eq_true.mp hany
          exact ⟨q, hsub hq, beq_iff_eq.mp hqname⟩
        · rw [if_neg hany] at h
          obtain ⟨d', hd', hidle', hsession, hsub, hall, hnames⟩ :=
            ih hreports.sound (hreports.active.trans hidle) (List.forall_mem_append.mpr
              ⟨hgrown, List.forall_mem_singleton.mpr (hname.symm ▸ hkept)⟩) h
          refine ⟨d', hd', hidle', hsession, fun q hq => hsub (List.mem_append_left _ hq), hall,
            List.forall_mem_cons.mpr ⟨?_, hnames⟩⟩
          exact ⟨r, hsub (List.mem_append_right _ (List.mem_singleton_self r)), hname⟩

/-- So do those for all functions, and no other reports are kept. -/
theorem all_reports (h : a.all {} = (.ok rs, t)) :
    (∀ f r, t.cache.report? f = some r → r.function = f ∧ a.program.hasBody f = true) ∧
      (∀ r ∈ rs, t.cache.report? r.function = some r) ∧
      ∀ f, a.program.hasBody f = true → ∃ r ∈ rs, r.function = f := by
  obtain ⟨d, hd, -, rfl, -, hkept, hnames⟩ := functions_reports (sound_empty a) rfl
    (fun r hr => absurd hr List.not_mem_nil) h
  exact ⟨hd.known, hkept, fun f hf => hnames f (Program.mem_functionNames.mpr hf)⟩

/-- The reports on all functions are those that are kept. -/
theorem mem_all_iff (h : a.all {} = (.ok rs, t)) : r ∈ rs ↔ t.cache.report? r.function = some r := by
  obtain ⟨hknown, hkept, hall⟩ := all_reports h
  refine ⟨hkept r, fun hr => ?_⟩
  obtain ⟨q, hq, hname⟩ := hall r.function (hknown _ r hr).2
  have hsame := hkept q hq
  rw [hname, hr] at hsame
  rwa [Option.some.inj hsame]

theorem hasBody_of_mem_all (h : a.all {} = (.ok rs, t)) (hr : r ∈ rs) :
    a.program.hasBody r.function = true :=
  ((all_reports h).1 _ r ((mem_all_iff h).mp hr)).2

theorem exists_mem_all (h : a.all {} = (.ok rs, t)) (hf : a.program.hasBody f = true) :
    ∃ r ∈ rs, r.function = f :=
  (all_reports h).2.2 f hf

/-- By induction on the requests. -/
theorem functions_raise (hle : a.config.visitBudget ≤ budget) (hd : Sound a d) (hidle : d.active = [])
    (h : a.functions names done d.session = (.ok rs, t)) (hs : t.Spared) :
    (a.raise budget).functions names done d.session = (.ok rs, t) ∧ d.session.Spared := by
  induction names generalizing done d with
  | nil =>
      cases h
      exact ⟨rfl, hs⟩
  | cons name names ih =>
      have hmatch : Matches (a.function name d) (a.function name d.session) :=
        function_matches a name d
      have hreports := function_reports a name hd hidle
      rw [functions] at h
      split at h
      case h_2 => cases h
      case h_1 r s' hr =>
        rw [hr] at hmatch
        obtain rfl : _ = s' := hmatch.session
        obtain ⟨hrest, hspared⟩ := ih hreports.sound (hreports.active.trans hidle) h
        have hraise := function_raise hle hd hidle hspared
        have hmatch' : Matches ((a.raise budget).function name d)
            ((a.raise budget).function name d.session) :=
          function_matches (a.raise budget) name d
        rw [hraise] at hmatch'
        have hsame : (a.raise budget).function name d.session = (.ok r, (a.function name d).2.session) :=
          Prod.ext (hmatch'.result.symm.trans hmatch.result) hmatch'.session.symm
        refine ⟨?_, hreports.toLeaves.spared hspared⟩
        rw [functions, hsame]
        exact hrest

/-- **If all reports are final, a larger budget changes nothing.** -/
theorem all_raise (hle : a.config.visitBudget ≤ budget) (h : a.all {} = (.ok rs, t))
    (hfinal : ∀ r ∈ rs, r.Final) : (a.raise budget).all {} = (.ok rs, t) := by
  have hspared : t.Spared := by
    intro f r hr
    obtain ⟨rfl, -⟩ := (all_reports h).1 f r hr
    exact hfinal r ((mem_all_iff h).mpr hr)
  exact (functions_raise hle (sound_empty a) rfl h hspared).1

/-! ### Recursion over calls -/

section Grounded

variable {p : Program} {cfg : Config} {b b' : Int} {r' : Report}
  {D D' : String → Except AnalysisFault Report}

/-- Without names, a function of the program answers with its effect. -/
theorem answers_anonymous {c : String} {body : Body} (h : p.resolve c = some body)
    (heffect : (D body.name).map (·.effect) = (D' body.name).map (·.effect)) :
    ((p.answers D).anonymous c ()).1 = ((p.answers D').anonymous c ()).1 := by
  have hanswer : ∀ D, ((p.answers D).anonymous c ()).1 = ((D body.name).map (·.effect)).map fun
      effect => (effect.map fun (slots : List AliasPair × List DroppedSlot) =>
        CalleeEffect.summarised { function := "", aliases := slots.1, dropped := slots.2 }).getD
          .unknown := by
    intro D
    rw [Resolver.anonymous, Program.answers_of_body h]
    cases D body.name with
    | error fault => rfl
    | ok r =>
        simp only [Except.map, Report.effect]
        cases r.summary <;> rfl
  rw [hanswer, hanswer, heffect]

/-- A walk is the same if the functions it asks for have the same effects. -/
theorem run_answers_of_effects {gr : FunctionGraph}
    (h : ∀ c ∈ Walk.asked gr cfg, ∀ body, p.resolve c = some body →
      (D body.name).map (·.effect) = (D' body.name).map (·.effect)) :
    (Walk.run gr cfg (p.answers D) ()).1 = (Walk.run gr cfg (p.answers D') ()).1 := by
  rw [← Walk.run_anonymous, ← Walk.run_anonymous gr cfg (p.answers D'), Walk.run_eq, Walk.run_eq]
  refine ((Walk.dialogue_follows gr cfg).run_agree (R := fun _ _ => True) ?_ trivial).1
  intro c hc _ _ _
  refine ⟨?_, trivial⟩
  cases hr : p.resolve c with
  | none => simp only [Resolver.anonymous, Program.answers, hr]
  | some body => exact answers_anonymous hr (h c hc body hr)

/-- A report that comes of a walk tells of its outcome. -/
theorem ok_of_map_reportOf {x : Except AnalysisFault Walk.Outcome} (h : x.map (reportOf f) = .ok r) :
    ∃ o, x = .ok o ∧ r = reportOf f o := by
  cases x with
  | error fault => cases h
  | ok o => exact ⟨o, rfl, (Except.ok.inj h).symm⟩

/-- If all reports below a function are final, a larger budget does not change its own. -/
theorem plainReport_raise (hle : b ≤ b') (hf : p.Grounded f)
    (hfinal : ∀ k, p.Leads { cfg with visitBudget := b } f k →
      ∃ q, p.plainReport { cfg with visitBudget := b } k = .ok q ∧ q.Final) :
    p.plainReport { cfg with visitBudget := b' } f = p.plainReport { cfg with visitBudget := b } f := by
  revert hfinal
  refine grounded_induction (P := fun f => (∀ k, p.Leads { cfg with visitBudget := b } f k →
      ∃ q, p.plainReport { cfg with visitBudget := b } k = .ok q ∧ q.Final) →
    p.plainReport { cfg with visitBudget := b' } f =
      p.plainReport { cfg with visitBudget := b } f) ?_ hf
  intro f hf ih hfinal
  cases hb : p.body? f with
  | none => simp only [Program.plainReport, Program.reportWithin, hb]
  | some body =>
      obtain ⟨q, hq, hqfinal⟩ := hfinal f .refl
      rw [plainReport_eq _ hf hb] at hq ⊢
      rw [plainReport_eq _ hf hb]
      cases hg : FunctionGraph.ofBody p.decls body with
      | error cause => rfl
      | ok gr =>
          rw [hg] at hq
          dsimp only at hq ⊢
          have hswap : (Walk.run gr { cfg with visitBudget := b }
              (p.answers (p.plainReport { cfg with visitBudget := b' })) ()).1 =
              (Walk.run gr { cfg with visitBudget := b }
                (p.answers (p.plainReport { cfg with visitBudget := b })) ()).1 :=
            Program.run_answers_congr fun c hc body' hr =>
              ih body'.name (Program.calls_of_mem_asked hb hg hc hr) fun k hk =>
                hfinal k (.head (Program.walks_of_mem_asked hb hg hc hr) hk)
          obtain ⟨o, ho, rfl⟩ := ok_of_map_reportOf hq
          rw [Walk.run_eq_of_unspent hle fun o' s' ho' => ?_, hswap]
          rw [ho, ho'] at hswap
          cases hswap
          exact complete_of_final hqfinal

/-- **A function keeps its findings if the functions it asks for keep their effects.** -/
theorem findings_raise (hle : b ≤ b') (hf : p.Grounded f)
    (hr : p.plainReport { cfg with visitBudget := b } f = .ok r)
    (hr' : p.plainReport { cfg with visitBudget := b' } f = .ok r')
    (heffect : ∀ g, p.Walks { cfg with visitBudget := b } f g →
      (p.plainReport { cfg with visitBudget := b } g).map (·.effect) =
        (p.plainReport { cfg with visitBudget := b' } g).map (·.effect)) :
    r.findings ⊆ r'.findings := by
  cases hb : p.body? f with
  | none => simp only [Program.plainReport, Program.reportWithin, hb] at hr; cases hr
  | some body =>
      rw [plainReport_eq _ hf hb] at hr hr'
      cases hg : FunctionGraph.ofBody p.decls body with
      | error cause =>
          rw [hg] at hr
          cases hr
          exact List.nil_subset _
      | ok gr =>
          rw [hg] at hr hr'
          obtain ⟨o, ho, rfl⟩ := ok_of_map_reportOf hr
          obtain ⟨o', ho', rfl⟩ := ok_of_map_reportOf hr'
          rw [run_answers_of_effects fun c hc body' hbody =>
            heffect _ (Program.walks_of_mem_asked hb hg hc hbody)] at ho
          exact Walk.findings_subset_of_le hle (Prod.ext ho rfl) (Prod.ext ho' rfl)

end Grounded

/-! ### Programs -/

/-- The session after requests, one after the other. -/
theorem functions_session (h : a.functions names done s = (.ok rs, t)) :
    t = names.foldl (fun s f => (a.function f s).2) s := by
  induction names generalizing done s with
  | nil =>
      cases h
      rfl
  | cons name names ih =>
      rw [functions] at h
      split at h
      case h_2 => cases h
      case h_1 r s' hr =>
        rw [ih h, List.foldl_cons, hr]

/-- Outside of cycles the reports are those of the recursion over calls. -/
theorem plainReport_of_mem_all {p : Program} {cfg : Config}
    (hdepth : (p.bodies.length : Int) ≤ cfg.maxCallDepth)
    (h : (Analyzer.new p cfg).all {} = (.ok rs, t)) (hr : r ∈ rs) (hf : p.Grounded r.function) :
    p.plainReport cfg r.function = .ok r := by
  have hsession : t = (Analyzer.new p cfg).after p.functionNames := functions_session h
  have hmemo : Memo p cfg [] t := by
    rw [hsession]
    exact memo_after hdepth p.functionNames
  exact hmemo.plain _ r hf ((mem_all_iff h).mp hr)

/-- **A larger budget keeps findings** in these cases.  Let all functions of a program be analysed with
two budgets.  If all walks come to their end with the smaller one, the other changes nothing.  Else, if
the depth of calls is no limit, a function from which no call cycle can be reached keeps its findings
if each function that its walk asks for either has the same effect with both budgets, or is one below
which all walks come to their end with the smaller one. -/
theorem raised_budget_keeps_findings (p : Program) (cfg : Config) {b b' : Int} (hle : b ≤ b')
    {rs : List Report} {s : Session}
    (h : (Analyzer.new p { cfg with visitBudget := b }).all {} = (.ok rs, s)) :
    ((∀ r ∈ rs, r.Final) →
      (Analyzer.new p { cfg with visitBudget := b' }).all {} = (.ok rs, s)) ∧
    ∀ {rs' : List Report} {s' : Session},
      (Analyzer.new p { cfg with visitBudget := b' }).all {} = (.ok rs', s') →
      (p.bodies.length : Int) ≤ cfg.maxCallDepth →
      ∀ r ∈ rs, p.Grounded r.function →
        (∀ g, p.Walks { cfg with visitBudget := b } r.function g →
          (∀ q ∈ rs, ∀ q' ∈ rs', q.function = g → q'.function = g → q.effect = q'.effect) ∨
          ∀ k, p.Leads { cfg with visitBudget := b } g k → ∀ q ∈ rs, q.function = k → q.Final) →
        ∃ r' ∈ rs', r'.function = r.function ∧ r.findings ⊆ r'.findings := by
  refine ⟨all_raise hle h, fun {rs' s'} h' hdepth r hr hf hcalls => ?_⟩
  have hplain : ∀ q ∈ rs, p.Grounded q.function →
      p.plainReport { cfg with visitBudget := b } q.function = .ok q :=
    fun _ hq hg => plainReport_of_mem_all hdepth h hq hg
  have hplain' : ∀ q ∈ rs', p.Grounded q.function →
      p.plainReport { cfg with visitBudget := b' } q.function = .ok q :=
    fun _ hq hg => plainReport_of_mem_all hdepth h' hq hg
  have hfunction : p.hasBody r.function = true := hasBody_of_mem_all h hr
  obtain ⟨r', hr', hname⟩ := exists_mem_all h' hfunction
  refine ⟨r', hr', hname, findings_raise hle hf (hplain r hr hf)
    (hname ▸ hplain' r' hr' (hname ▸ hf)) fun g hg => ?_⟩
  have hground := hf.calls hg.calls
  have hbody := hg.calls.hasBody_right
  rcases hcalls g hg with hsame | hfinal
  · obtain ⟨q, hq, rfl⟩ := exists_mem_all h hbody
    obtain ⟨q', hq', hqname⟩ := exists_mem_all h' hbody
    have heffect := hsame q hq q' hq' rfl hqname
    rw [hplain q hq hground, ← hqname, hplain' q' hq' (hqname ▸ hground)]
    exact congrArg Except.ok heffect
  · rw [plainReport_raise hle hground fun k hk => ?_]
    have hreach := Program.Leads.reaches hk
    obtain ⟨q, hq, rfl⟩ := exists_mem_all h (Program.Reaches.hasBody hreach hbody)
    exact ⟨q, hplain q hq fun k hk => hground k (hreach.trans hk), hfinal _ hk q hq rfl⟩

/-- The reports on all functions with a budget; none if there is a fault. -/
def reportsWithin (p : Program) (budget : Int) : List Report :=
  ((Analyzer.new p { visitBudget := budget }).all {}).1.toOption.getD []

theorem all_eq_reportsWithin (p : Program) (budget : Int)
    (h : ((Analyzer.new p { visitBudget := budget }).all {}).1.isOk = true) :
    (Analyzer.new p { visitBudget := budget }).all {} =
      (.ok (reportsWithin p budget), ((Analyzer.new p { visitBudget := budget }).all {}).2) := by
  rw [reportsWithin]
  cases hall : (Analyzer.new p { visitBudget := budget }).all {} with
  | mk x s =>
      rw [hall] at h
      cases x with
      | error fault => cases h
      | ok rs => rfl

/-- A block that goes on. -/
def pass (id next : BlockId) : Block :=
  { id, statements := [], terminator := ⟨default, .goto next⟩ }

/-- A crate whose `twice` releases its argument twice and then calls `slow`, which does nothing for a
long time. -/
def tortoise : Program where
  crate := "tortoise"
  sourceFiles := []
  adts := []
  decls := .empty
  library := [("release", { drops := [0], manual := true })]
  bodies :=
    [routine "slow" [pass 0 1, pass 1 2, pass 2 3, pass 3 4, halt 4],
     routine "twice" [hop 0 "release" 1, hop 1 "release" 2, hop 2 "slow" 3, halt 3]]

theorem tortoise_keeps_findings :
    (reportsWithin tortoise 3).map (fun r => (r.function, r.complete)) =
        [("slow", false), ("twice", false)] ∧
      (reportsWithin tortoise 5).map (fun r => (r.function, r.complete)) =
        [("slow", true), ("twice", true)] ∧
      (∃ r ∈ reportsWithin tortoise 3, r.findings.map (·.kind) = [.doubleFree, .useAfterFree] ∧
        ∃ r' ∈ reportsWithin tortoise 5, r'.function = r.function ∧ r.findings ⊆ r'.findings) ∧
      (Analyzer.new tortoise { visitBudget := 9 }).all {} =
        (.ok (reportsWithin tortoise 5), ((Analyzer.new tortoise { visitBudget := 5 }).all {}).2) := by
  have h := all_eq_reportsWithin tortoise 3 (by decide +kernel)
  have h' := all_eq_reportsWithin tortoise 5 (by decide +kernel)
  have hwalked : tortoise.walkedCalls { visitBudget := 3 } "twice" = ["slow"] := by decide +kernel
  have hacyclic := Program.acyclic_of_rank (p := tortoise) (["slow", "twice"].idxOf ·)
    (by decide +kernel)
  have heffects : ∀ q ∈ reportsWithin tortoise 3, ∀ q' ∈ reportsWithin tortoise 5,
      q.function = "slow" → q'.function = "slow" → q.effect = q'.effect := by decide +kernel
  obtain ⟨r, hr, hname⟩ := exists_mem_all h (show tortoise.hasBody "twice" = true by decide +kernel)
  have hkinds : ∀ r ∈ reportsWithin tortoise 3, r.function = "twice" →
      r.findings.map (·.kind) = [.doubleFree, .useAfterFree] := by decide +kernel
  have hfinal : ∀ r ∈ reportsWithin tortoise 5, r.complete = true ∨ r.isAnalyzed = false := by
    decide +kernel
  refine ⟨by decide +kernel, by decide +kernel, ⟨r, hr, hkinds r hr hname, ?_⟩,
    (raised_budget_keeps_findings tortoise {} (show (5 : Int) ≤ 9 by decide) h').1 hfinal⟩
  refine (raised_budget_keeps_findings tortoise {} (show (3 : Int) ≤ 5 by decide) h).2 h'
    (by decide) r hr (fun g _ => hacyclic g) fun g hg => .inl ?_
  rw [hname, Program.Walks] at hg
  obtain rfl := List.mem_singleton.mp (hwalked ▸ hg)
  exact heffects

/-- A crate whose `twice` releases its argument and has `sink` release it again, some blocks on. -/
def tandem : Program where
  crate := "tandem"
  sourceFiles := []
  adts := []
  decls := .empty
  library := [("release", { drops := [0], manual := true })]
  bodies :=
    [routine "sink" [pass 0 1, pass 1 2, hop 2 "release" 3, halt 3],
     routine "twice" [hop 0 "release" 1, hop 1 "sink" 2, halt 2]]

/-- With one visit more `sink` comes to its end, and `twice` loses a finding for another. -/
theorem tandem_loses_a_finding :
    (reportsWithin tandem 3).map (fun r => (r.function, r.complete)) =
        [("sink", false), ("twice", true)] ∧
      (reportsWithin tandem 3).map (fun r => r.findings.map (·.key)) =
        [[], [(.useAfterFree, 1, 1)]] ∧
      (reportsWithin tandem 4).map (fun r => (r.function, r.complete)) =
        [("sink", true), ("twice", true)] ∧
      (reportsWithin tandem 4).map (fun r => r.findings.map (·.key)) =
        [[], [(.doubleFree, 1, 1)]] := by
  decide +kernel

end Analyzer

end Dangling
