import Dangling.Proofs.Analysis.Nesting
import Dangling.Proofs.Walk.Quiet

/-!
# Proofs — Analysis — Intervention

Without intervention there is no finding, across calls.

A function is harmless if no function that calls lead to from it calls a library function that is an
intervention (`Program.Harmless`).  What a session keeps about harmless functions stays clean,
whatever else is analysed (`Pristine`), because the analysis of a harmless function only asks for
harmless callees; the head of its call cycle is one of the functions it reaches.

* `analyze_careful`: an analysis keeps a session pristine, and its report on a harmless function is
  clean.
* `no_intervention_no_finding`: the same of all requests.
-/

namespace Dangling

/-- Nothing is released by hand. -/
def Summary.Unhanded (s : Summary) : Prop := ∀ d ∈ s.dropped, d.manual = false

/-- Nothing was found, and nothing is released by hand. -/
structure Report.Clean (r : Report) : Prop where
  unfound : r.findings = []
  unhanded : ∀ s, r.summary = some s → s.Unhanded

theorem Walk.Outcome.Quiet.clean {o : Walk.Outcome} (h : o.Quiet) (f : String) :
    (Analyzer.reportOf f o).Clean := by
  refine ⟨h.unfound, fun s hs => ?_⟩
  obtain rfl := Option.some.inj hs
  exact h.unhanded

/-- The fault is a model that names an argument before the first. -/
def AnalysisFault.Misplaced : AnalysisFault → Prop
  | .noArgument _ _ => True
  | _ => False

namespace Program

/-- No function that calls lead to from `f` calls a library function that is an intervention. -/
def Harmless (p : Program) (f : String) : Prop :=
  ∀ g b, p.Reaches f g → p.body? g = some b → ∀ c ∈ b.callees, ∀ m, p.model? c = some m →
    m.isIntervention = false

/-- What a harmless function calls is harmless. -/
theorem Harmless.reached {p : Program} {f g : String} (h : p.Harmless f) (hr : p.Reaches f g) :
    p.Harmless g :=
  fun k b hk => h k b (hr.trans hk)

end Program

namespace Analyzer

/-! ### Sessions -/

/-- What a session keeps about harmless functions is clean. -/
structure Pristine (p : Program) (s : Session) : Prop where
  report : ∀ f r, p.Harmless f → s.cache.report? f = some r → r.Clean
  summary : ∀ f sum, p.Harmless f → s.cache.summary? f = some sum → sum.Unhanded

variable {p : Program} {n : Nesting} {fuel : Nat} {f : String} {s : Session} {A : Step Session}

theorem pristine_empty (p : Program) : Pristine p {} :=
  ⟨fun _ _ _ h => (nomatch h), fun _ _ _ h => (nomatch h)⟩

theorem Pristine.note (h : Pristine p s) (line : String) : Pristine p (s.note line) :=
  ⟨h.report, h.summary⟩

theorem Pristine.asked (h : Pristine p s) (f : String) : Pristine p (asked s f) :=
  ⟨fun g r hg hr => h.report g r hg (report?_asked s f g ▸ hr),
    fun g sum hg hs => h.summary g sum hg (summary?_asked s f g ▸ hs)⟩

/-- Of a report that is stored and one that was there first, the one that is kept. -/
theorem Pristine.getD (h : Pristine p s) {r : Report} (hf : p.Harmless f) (hr : r.Clean) :
    ((s.cache.report? f).getD r).Clean := by
  cases hc : s.cache.report? f with
  | none => exact hr
  | some first => exact h.report f first hf hc

/-- A clean report may be kept. -/
theorem Pristine.keep (h : Pristine p s) {r : Report} (hr : p.Harmless r.function → r.Clean) :
    Pristine p (keep r s).2 := by
  refine ⟨fun g r' hg hk => ?_, fun g sum hg hk => ?_⟩
  · rw [report?_keep] at hk
    split at hk
    case isTrue e =>
      subst e
      obtain rfl := Option.some.inj hk
      exact h.getD hg (hr hg)
    case isFalse => exact h.report g r' hg hk
  · rw [summary?_keep] at hk
    exact h.summary g sum hg hk

/-- So may the outcome of a quiet walk. -/
theorem Pristine.conclude (h : Pristine p s) (a : Analyzer) {o : Walk.Outcome}
    (ho : p.Harmless f → o.Quiet) : Pristine p (a.conclude f o s).2 := by
  refine ⟨fun g r hg hk => ?_, fun g sum hg hk => ?_⟩
  · rw [report?_conclude] at hk
    split at hk
    case isTrue e =>
      subst e
      obtain rfl := Option.some.inj hk
      exact h.getD hg ((ho hg).clean g)
    case isFalse => exact h.report g r hg hk
  · rw [summary?_conclude] at hk
    split at hk
    case isTrue e =>
      subst e
      obtain rfl := Option.some.inj hk
      cases hc : s.cache.summary? g with
      | none => exact (ho hg).unhanded
      | some first => exact h.summary g first hg hc
    case isFalse => exact h.summary g sum hg hk

/-! ### Steps -/

/-- What is said of a fault in the analysis of a harmless function that can be analysed. -/
def Excused (p : Program) (n : Nesting) (fuel : Nat) (f : String) (e : AnalysisFault) : Prop :=
  n.Fits p fuel → f ∉ n.active → p.hasBody f = true → e.Misplaced

/-- A step keeps sessions pristine, and its reports on harmless functions are clean. -/
def Careful (p : Program) (n : Nesting) (fuel : Nat) (A : Step Session) : Prop :=
  ∀ f s, Pristine p s → Pristine p (A n f s).2 ∧
    (p.Harmless f → Promised Report.Clean (Excused p n fuel f) (A n f s).1)

theorem Careful.reported (h : Careful p n fuel A) : Careful p n fuel (reported A) := by
  intro f s hs
  rw [Analyzer.reported_eq]
  split
  case h_1 r hr => exact ⟨hs, fun hf => .ok (hs.report f r hf hr)⟩
  case h_2 => exact h f s hs

/-- The head of a harmless function is harmless, so its fault is one of the function. -/
theorem Careful.fromHead (h : Careful p n fuel A) (cfg : Config) :
    Careful p n fuel ((Analyzer.new p cfg).fromHead A) := by
  intro f s hs
  rw [fromHead_eq, head_new]
  split
  case isFalse => exact h f s hs
  case isTrue hc =>
    have hlink := p.linked_head f
    split
    case h_1 => exact h.reported f s hs
    case h_2 =>
      have hhead := h (p.head f) _
        (hs.note s!"{f} is recursive, entering its cycle at {p.head f}")
      split
      case h_1 s' hA =>
        rw [hA] at hhead
        exact h.reported f s' hhead.1
      case h_2 e s' hA =>
        rw [hA] at hhead
        refine ⟨hhead.1, fun hf => .error fun hfits hn hb => ?_⟩
        exact (hhead.2 (hf.reached hlink.1)).of_error hfits hc.2
          (Program.Reaches.hasBody hlink.1 hb)

/-- The summary of a harmless function names nothing that was released by hand. -/
theorem Careful.summaryWith (h : Careful p n fuel A) (cfg : Config) (f : String)
    (hs : Pristine p s) :
    Pristine p ((Analyzer.new p cfg).summaryWith A n f s).2 ∧
      (p.Harmless f →
        Promised (fun found => ∀ sum, found = some sum → sum.Unhanded)
          (fun e => n.Fits p fuel → e.Misplaced) ((Analyzer.new p cfg).summaryWith A n f s).1) := by
  have hasked := hs.asked f
  rw [summaryWith_eq]
  split
  case h_1 sum hsum =>
    refine ⟨hasked, fun hf => .ok fun sum' he => ?_⟩
    obtain rfl := Option.some.inj he
    exact hs.summary f _ hf hsum
  case h_2 => exact ⟨hasked, fun _ => .ok fun sum he => nomatch he⟩
  case h_3 body _ hb =>
    split
    · refine ⟨hasked.note _, fun _ => .ok fun sum he => ?_⟩
      obtain rfl := Option.some.inj he
      exact fun d hd => nomatch hd
    case isFalse hn =>
      split
      · exact ⟨hasked.note _, fun _ => .ok fun sum he => nomatch he⟩
      split
      case h_1 r hr => exact ⟨hasked, fun hf => .ok (hs.report f r hf hr).unhanded⟩
      case h_2 =>
        have hA := h.fromHead cfg f _ hasked
        split
        case h_1 r s' he =>
          rw [he] at hA
          exact ⟨hA.1, fun hf => .ok (hA.2 hf).of_ok.unhanded⟩
        case h_2 e s' he =>
          rw [he] at hA
          refine ⟨hA.1, fun hf => .error fun hfits => ?_⟩
          exact (hA.2 hf).of_error hfits hn (Program.hasBody_iff.mpr ⟨body, hb⟩)

/-- A resolver keeps sessions pristine, and tells a harmless function of harmless callees. -/
theorem Careful.resolver (h : Careful p n fuel A) (cfg : Config) (function callee : String)
    (hs : Pristine p s) :
    Pristine p ((Analyzer.new p cfg).resolver A n function callee s).2 ∧
      ∀ b, p.Harmless function → p.body? function = some b → callee ∈ b.callees →
        Promised CalleeEffect.Harmless (fun e => n.Fits p fuel → e.Misplaced)
          ((Analyzer.new p cfg).resolver A n function callee s).1 := by
  rw [Analyzer.resolver]
  split
  case h_1 hr =>
    split
    case h_1 m hm =>
      have hmodel : p.model? callee = some m := by
        change p.resolve callee = none at hr
        rw [Program.model?, hr]
        exact hm
      exact ⟨hs, fun b hf hb hc => .ok (hf function b .refl hb callee hc m hmodel)⟩
    case h_2 => exact ⟨hs, fun _ _ _ _ => .ok trivial⟩
  case h_2 body hr =>
    have hsum := h.summaryWith cfg body.name hs
    have hcalled : ∀ b, p.Harmless function → p.body? function = some b → callee ∈ b.callees →
        p.Harmless body.name := fun b hf hb hc =>
      hf.reached (.single ⟨b, hb, Program.mem_callsOf.mpr ⟨callee, hc, body, hr, rfl⟩⟩)
    split
    case h_1 sum s' he =>
      rw [he] at hsum
      exact ⟨hsum.1, fun b hf hb hc => .ok ((hsum.2 (hcalled b hf hb hc)).of_ok sum rfl)⟩
    case h_2 s' he =>
      rw [he] at hsum
      exact ⟨hsum.1.note _, fun _ _ _ _ => .ok trivial⟩
    case h_3 e s' he =>
      rw [he] at hsum
      exact ⟨hsum.1, fun b hf hb hc => .error (hsum.2 (hcalled b hf hb hc)).of_error⟩

/-- The walk of a function inside its analysis. -/
theorem Careful.walk (h : Careful p (n.push f) fuel A) (cfg : Config) {ds : Declarations} {b : Body}
    {g : FunctionGraph} (hb : p.body? f = some b) (hg : FunctionGraph.Built ds b g)
    (hs : Pristine p s) :
    Pristine p (Walk.run g cfg ((Analyzer.new p cfg).resolver A (n.push f) f) s).2 ∧
      (p.Harmless f →
        Promised Walk.Outcome.Quiet (fun e => (n.push f).Fits p fuel → e.Misplaced)
          (Walk.run g cfg ((Analyzer.new p cfg).resolver A (n.push f) f) s).1) := by
  rw [Walk.run_eq]
  refine ⟨?_, fun hf => ?_⟩
  · refine (Dialogue.Keeps.run (Walk.dialogue g cfg).keeps_anything (fun c t _ ht => ?_) hs).2
    exact ⟨Promised.anything _, (h.resolver cfg f c ht).1⟩
  · have hquiet : (Walk.dialogue g cfg).Keeps g.Calls (fun _ e => e.Harmless) Walk.Outcome.Quiet
        fun e => (n.push f).Fits p fuel → e.Misplaced :=
      Walk.dialogue_quiet (fun _ _ he => he) (fun _ _ _ _ _ => trivial) g cfg
    refine (hquiet.run (fun c t hc ht => ?_) hs).1
    have hres := h.resolver cfg f c ht
    exact ⟨hres.2 b hf hb (hg.mem_callees hc), hres.1⟩

/-- **An analysis is careful.** -/
theorem analyze_careful (p : Program) (cfg : Config) (fuel : Nat) :
    ∀ n, Careful p n fuel ((Analyzer.new p cfg).analyze fuel) := by
  induction fuel with
  | zero =>
      refine fun n f s hs => ⟨hs, fun _ => .error fun hfits hn hb => ?_⟩
      obtain ⟨k, hk, -⟩ := hfits.push hb hn
      exact absurd hk.symm (Nat.succ_ne_zero k)
  | succ fuel ih =>
      intro n f s hs
      cases hb : p.body? f with
      | none =>
          rw [analyze, show (Analyzer.new p cfg).program.body? f = none from hb]
          refine ⟨hs, fun _ => .error fun _ _ hbody => ?_⟩
          rw [Program.hasBody, hb] at hbody
          exact absurd hbody Bool.false_ne_true
      | some b =>
          rw [analyze_succ (a := Analyzer.new p cfg) hb]
          split
          case h_1 cause _ =>
            have hr : (Report.refused f cause.message).Clean := by
              refine ⟨rfl, fun sum hsum => ?_⟩
              cases hsum
            have hnote := hs.note s!"skipping {f}: {cause.message}"
            refine ⟨hnote.keep fun _ => hr, fun hf => ?_⟩
            rw [keep_fst]
            exact .ok (hnote.getD hf hr)
          case h_2 g hg =>
            have hbuilt := FunctionGraph.built_of_ofBody hg
            have hwalk := (ih (n.push f)).walk cfg hb (FunctionGraph.built_of_ofBody hg) hs
            split
            case h_1 e s' he =>
              rw [show (Analyzer.new p cfg).config = cfg from rfl] at he
              rw [he] at hwalk
              refine ⟨hwalk.1, fun hf => .error fun hfits hn hbody => (hwalk.2 hf).of_error ?_⟩
              obtain ⟨k, hk, hin⟩ := hfits.push hbody hn
              rwa [Nat.succ.inj hk]
            case h_2 o s' he =>
              rw [show (Analyzer.new p cfg).config = cfg from rfl] at he
              rw [he] at hwalk
              have hquiet := fun hf => (hwalk.2 hf).of_ok
              refine ⟨hwalk.1.conclude _ hquiet, fun hf => ?_⟩
              rw [conclude_fst]
              exact .ok (hwalk.1.getD hf ((hquiet hf).clean f))

/-- A request keeps the session pristine, and a harmless function is reported clean. -/
theorem function_careful (p : Program) (cfg : Config) (f : String) (hs : Pristine p s) :
    Pristine p ((Analyzer.new p cfg).function f s).2 ∧
      (p.Harmless f → p.hasBody f = true →
        Promised Report.Clean AnalysisFault.Misplaced ((Analyzer.new p cfg).function f s).1) := by
  rw [function]
  split
  case h_1 r hr => exact ⟨hs, fun hf _ => .ok (hs.report f r hf hr)⟩
  case h_2 =>
    split
    case isFalse hn => exact ⟨hs, fun _ hb => absurd hb hn⟩
    case isTrue hb =>
      obtain ⟨hs', hr⟩ := (analyze_careful p cfg (Analyzer.new p cfg).fuel {}).fromHead cfg f s hs
      refine ⟨hs', fun hf _ => ?_⟩
      refine Promised.imp (hr hf) fun e he => ?_
      exact he (Nesting.fits_start p) List.not_mem_nil hb

/-- The session after some requests, whether they were answered or not. -/
def after (a : Analyzer) (requests : List String) : Session :=
  requests.foldl (fun s name => (a.function name s).2) {}

/-- By the requests, one after the other. -/
theorem pristine_after (p : Program) (cfg : Config) (requests : List String) :
    Pristine p ((Analyzer.new p cfg).after requests) :=
  List.foldlRecOn requests _ (pristine_empty p) fun _ hs name _ => (function_careful p cfg name hs).1

/-- **Without intervention there is no finding.**  If no function that calls lead to from `f`, itself
included, calls a library function that is an intervention, then after any requests the report on `f`
has no findings, and its summary releases nothing by hand.  The only reason for having no report is a
model that names an argument before the first. -/
theorem no_intervention_no_finding (p : Program) (cfg : Config) (requests : List String) {f : String}
    (hb : p.hasBody f = true)
    (h : ∀ g b, p.Reaches f g → p.body? g = some b → ∀ c ∈ b.callees, ∀ m, p.model? c = some m →
      m.isIntervention = false) :
    match ((Analyzer.new p cfg).function f ((Analyzer.new p cfg).after requests)).1 with
    | .ok r => r.findings = [] ∧ ∀ sum, r.summary = some sum → ∀ d ∈ sum.dropped, d.manual = false
    | .error e => ∃ function callee, e = .noArgument function callee := by
  have hclean := (function_careful p cfg f (pristine_after p cfg requests)).2 h hb
  split
  case h_1 r hr =>
    rw [hr] at hclean
    exact ⟨hclean.of_ok.unfound, hclean.of_ok.unhanded⟩
  case h_2 e he =>
    rw [he] at hclean
    cases e with
    | noArgument function callee => exact ⟨function, callee, rfl⟩
    | unknownFunction name => exact hclean.of_error.elim
    | unnamedNode function node => exact hclean.of_error.elim

/-- A function that hands its argument to another. -/
def handOver (name callee : String) : Body where
  name
  argCount := 1
  locals := [{ ty := Ty.unit }, { ty := .container .vec "Vec" [Ty.int32] }, { ty := Ty.unit }]
  blocks :=
    [{ id := 0, statements := [],
       terminator := ⟨default, .call callee [.copy { base := 1 }] { base := 2 } (some 1) none⟩ },
     { id := 1, statements := [], terminator := ⟨default, .drop { base := 1 } 2 none⟩ },
     { id := 2, statements := [], terminator := ⟨default, .ret⟩ }]
  distinct := by simp

/-- A crate in which `wild` releases its argument by hand before its scope ends, and `tame` has
another function look at it. -/
def zoo : Program where
  crate := "zoo"
  sourceFiles := []
  adts := []
  decls := .empty
  library := [("release", { drops := [0], manual := true }), ("peek", { retAliases := [0] })]
  bodies := [handOver "wild" "release", handOver "tame" "look", handOver "look" "peek"]

/-- Calls lead from `tame` to `look`, and no further. -/
theorem zoo_reaches {g : String} (h : zoo.Reaches "tame" g) : g = "tame" ∨ g = "look" := by
  induction h with
  | refl => exact .inl rfl
  | @tail f g _ hc ih =>
      obtain ⟨b, hb, hg⟩ := hc
      rcases ih with rfl | rfl
      · have htame : zoo.body? "tame" = some (handOver "tame" "look") := rfl
        obtain rfl := Option.some.inj (htame.symm.trans hb)
        have hcalls : zoo.callsOf (handOver "tame" "look") = ["look"] := by decide +kernel
        rw [hcalls] at hg
        exact .inr (List.mem_singleton.mp hg)
      · have hlook : zoo.body? "look" = some (handOver "look" "peek") := rfl
        obtain rfl := Option.some.inj (hlook.symm.trans hb)
        have hcalls : zoo.callsOf (handOver "look" "peek") = [] := by decide +kernel
        rw [hcalls] at hg
        exact absurd hg List.not_mem_nil

theorem zoo_tame :
    zoo.hasBody "tame" = true ∧ zoo.Harmless "tame" ∧
      (match ((Analyzer.new zoo {}).function "wild" ({} : Session)).1 with
        | .ok r => r.findings.length
        | .error _ => 0) = 1 ∧
      ((Analyzer.new zoo {}).function "tame" ((Analyzer.new zoo {}).after ["wild"])).1.isOk = true ∧
      match ((Analyzer.new zoo {}).function "tame" ((Analyzer.new zoo {}).after ["wild"])).1 with
      | .ok r => r.findings = [] ∧ ∀ sum, r.summary = some sum → ∀ d ∈ sum.dropped, d.manual = false
      | .error e => ∃ function callee, e = .noArgument function callee := by
  have hbody : zoo.hasBody "tame" = true := by decide +kernel
  have hharmless : zoo.Harmless "tame" := by
    intro g b hr hb c hc m hm
    rcases zoo_reaches hr with rfl | rfl
    · have htame : zoo.body? "tame" = some (handOver "tame" "look") := rfl
      obtain rfl := Option.some.inj (htame.symm.trans hb)
      obtain rfl := List.mem_singleton.mp hc
      have hnone : zoo.model? "look" = none := by decide +kernel
      exact nomatch hnone.symm.trans hm
    · have hlook : zoo.body? "look" = some (handOver "look" "peek") := rfl
      obtain rfl := Option.some.inj (hlook.symm.trans hb)
      obtain rfl := List.mem_singleton.mp hc
      have hpeek : zoo.model? "peek" = some { retAliases := [0] } := by decide +kernel
      obtain rfl := Option.some.inj (hpeek.symm.trans hm)
      rfl
  exact ⟨hbody, hharmless, by decide +kernel, by decide +kernel,
    no_intervention_no_finding zoo {} ["wild"] hbody hharmless⟩

end Analyzer

end Dangling
