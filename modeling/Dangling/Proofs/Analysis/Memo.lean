import Dangling.Proofs.Analysis.Recursion
import Dangling.Proofs.Analysis.RequestOrder

/-!
# Proofs — Analysis — Memo

What a session remembers against recursion.  Reports are kept from one request to the next, functions
are analysed inside the analyses of others, and some requests fail half way; whatever happened before,
all that a session keeps on a grounded function is what recursion over its calls gives (`Memo`), so
there is nothing wrong with using it.  Functions on call cycles may be analysed in between: nothing is
said of their reports, but they do not spoil the others.

The stack matters in one place.  A function that is being analysed is taken to have no effect, so an
analysis must not come by one that recursion would go into; on the way from a grounded function there
is none, because all that are on the stack lead to it.

* `Exact`: what is promised of analyses at a point of nesting.
* `analyze_exact`: analyses keep the promise, be their result a report or a fault.
* `memoised_is_recursive`: in a program without call cycles, every request brings what recursion
  brings, after any other requests.
-/

namespace Dangling.Analyzer

open Relation (TransGen)

variable {p : Program} {cfg : Config} {f g : String} {b : Body} {n : Nesting} {fuel : Nat}
  {s s' t u : Session} {r : Report} {S : List String} {A : Step Session}

/-- A session that keeps what recursion gives. -/
structure Memo (p : Program) (cfg : Config) (S : List String) (s : Session) : Prop
    extends Tidy p S s where
  plain : ∀ f r, p.Grounded f → s.cache.report? f = some r → p.plainReport cfg f = .ok r

theorem memo_empty (p : Program) (cfg : Config) : Memo p cfg [] {} :=
  { tidy_empty p with plain := fun _ _ _ h => by cases h }

namespace Memo

theorem like (h : Memo p cfg S s) (hl : s.Like s') : Memo p cfg S s' :=
  { h.toTidy.like hl with plain := fun f r hf hr => h.plain f r hf (hl.report f ▸ hr) }

theorem push (h : Memo p cfg S s) (hu : s.cache.report? f = none) : Memo p cfg (f :: S) s :=
  { h.toTidy.push hu with plain := h.plain }

theorem pop (h : Memo p cfg (f :: S) s) : Memo p cfg S s :=
  { h.toTidy.pop with plain := h.plain }

/-- The function on top of the stack gets its report. -/
theorem concluded (h : Memo p cfg (f :: S) t) (hf : f ∉ S) (hb : p.hasBody f = true)
    (hr : r.function = f) (hc : Concluded f r t u)
    (hplain : p.Grounded f → p.plainReport cfg f = .ok r) : Memo p cfg S u := by
  refine { h.toTidy.concluded hf hb hr hc with plain := fun g q hg hq => ?_ }
  rw [hc.report] at hq
  split at hq
  case isTrue e =>
    obtain rfl := Option.some.inj hq
    subst e
    exact hplain hg
  case isFalse => exact h.plain g q hg hq

end Memo

/-! ### Analyses -/

/-- What is promised of analyses at a point of nesting: they leave a session that has its memory right,
and bring what recursion brings. -/
def Exact (p : Program) (cfg : Config) (n : Nesting) (A : Step Session) : Prop :=
  ∀ ⦃f s⦄, n.Below p f → s.cache.report? f = none → Memo p cfg n.active s →
    Memo p cfg n.active (A n f s).2 ∧ (p.Grounded f → (A n f s).1 = p.plainReport cfg f)

theorem Exact.reported (h : Exact p cfg n A) (hf : n.Below p f) (hs : Memo p cfg n.active s) :
    Memo p cfg n.active (reported A n f s).2 ∧
      (p.Grounded f → (reported A n f s).1 = p.plainReport cfg f) := by
  rw [Analyzer.reported_eq]
  split
  case h_1 r hr => exact ⟨hs, fun hg => (hs.plain f r hg hr).symm⟩
  case h_2 hu => exact h hf hu hs

/-- A grounded function is its own head; for any other only the memory counts. -/
theorem Exact.fromHead (h : Exact p cfg n A) (hf : n.Below p f) (hu : s.cache.report? f = none)
    (hs : Memo p cfg n.active s) :
    Memo p cfg n.active ((Analyzer.new p cfg).fromHead A n f s).2 ∧
      (p.Grounded f → ((Analyzer.new p cfg).fromHead A n f s).1 = p.plainReport cfg f) := by
  rw [fromHead_eq, head_new]
  split
  case isFalse => exact h hf hu hs
  case isTrue hc =>
    refine ⟨?_, fun hg => absurd hg.head_eq hc.1⟩
    split
    case h_1 => exact (h.reported hf hs).1
    case h_2 hhead =>
      have hlink := p.linked_head f
      have hbelow : n.Below p (p.head f) :=
        ⟨Program.Reaches.hasBody hlink.1 hf.body, hc.2, fun k hk => (hf.led k hk).trans hlink.1⟩
      have hnote := s.like_note s!"{f} is recursive, entering its cycle at {p.head f}"
      have hA := (h hbelow ((hnote.report _).trans hhead) (hs.like hnote)).1
      split
      case h_1 q s' hq =>
        rw [hq] at hA
        exact (h.reported hf hA).1
      case h_2 fault s' hq =>
        rw [hq] at hA
        exact hA

/-- A summary is that of the report that recursion gives, if the function is not being analysed and
the depth of calls is no limit. -/
theorem Exact.summaryWith (h : Exact p cfg n A) (hb : p.body? g = some b)
    (hled : ∀ k ∈ n.active, p.Reaches k g) (hs : Memo p cfg n.active s) :
    Memo p cfg n.active ((Analyzer.new p cfg).summaryWith A n g s).2 ∧
      (p.Grounded g → g ∉ n.active → n.depth ≤ cfg.maxCallDepth →
        ((Analyzer.new p cfg).summaryWith A n g s).1 = (p.plainReport cfg g).map (·.summary)) := by
  have hasked := hs.like (like_asked s g)
  have hkept : ∀ r, s.cache.report? g = some r → p.Grounded g →
      (.ok r.summary : Except AnalysisFault _) = (p.plainReport cfg g).map (·.summary) :=
    fun r hr hg => by rw [hs.plain g r hg hr]; rfl
  rw [summaryWith_eq, show (Analyzer.new p cfg).program.body? g = some b from hb]
  cases hsum : s.cache.summary? g with
  | some sum =>
      refine ⟨hasked, fun hg _ _ => ?_⟩
      rw [hs.coherent] at hsum
      obtain ⟨r, hr, hrs⟩ := Option.bind_eq_some_iff.mp hsum
      rw [← hkept r hr hg, hrs]
  | none =>
      dsimp only
      split
      case isTrue hm => exact ⟨hasked.like (Session.like_note _ _), fun _ hn => absurd hm hn⟩
      case isFalse hm =>
        split
        case isTrue hlimit =>
          exact ⟨hasked.like (Session.like_note _ _), fun _ _ hd => absurd hlimit (Int.not_lt.mpr hd)⟩
        case isFalse =>
          split
          case h_1 r hr => exact ⟨hasked, fun hg _ _ => hkept r hr hg⟩
          case h_2 hu =>
            have hbelow : n.Below p g := ⟨Program.hasBody_iff.mpr ⟨b, hb⟩, hm, hled⟩
            obtain ⟨hmemo, hplain⟩ := h.fromHead hbelow ((report?_asked s g g).trans hu) hasked
            split
            case h_1 r s' hr =>
              rw [hr] at hmemo hplain
              refine ⟨hmemo, fun hg _ _ => ?_⟩
              rw [← hplain hg]
              rfl
            case h_2 fault s' hr =>
              rw [hr] at hmemo hplain
              refine ⟨hmemo, fun hg _ _ => ?_⟩
              rw [← hplain hg]
              rfl

/-- What the walk of a function is told is what recursion would tell it. -/
theorem Exact.resolver (h : Exact p cfg (n.push f) A) (hf : n.Below p f) {c : String}
    (hcalls : ∀ b, p.resolve c = some b → p.Calls f b.name) (hs : Memo p cfg (f :: n.active) s) :
    Memo p cfg (f :: n.active) ((Analyzer.new p cfg).resolver A (n.push f) f c s).2 ∧
      (p.Grounded f → (n.push f).depth ≤ cfg.maxCallDepth →
        ((Analyzer.new p cfg).resolver A (n.push f) f c s).1 =
          (p.answers (p.plainReport cfg) c ()).1) := by
  cases hc : p.resolve c with
  | none =>
      simp only [Analyzer.resolver, Program.answers,
        show (Analyzer.new p cfg).program.resolve c = none from hc, hc]
      cases hl : p.library.lookup c with
      | none =>
          rw [show (Analyzer.new p cfg).program.library.lookup c = none from hl]
          exact ⟨hs, fun _ _ => rfl⟩
      | some m =>
          rw [show (Analyzer.new p cfg).program.library.lookup c = some m from hl]
          exact ⟨hs, fun _ _ => rfl⟩
  | some b =>
      have hcall := hcalls b hc
      obtain ⟨hmemo, hplain⟩ :=
        h.summaryWith (Program.body?_of_resolve hc) (hf.leads_on hcall) hs
      have hanswer : p.Grounded f → (n.push f).depth ≤ cfg.maxCallDepth →
          (p.answers (p.plainReport cfg) c ()).1 = ((Analyzer.new p cfg).summaryWith A (n.push f)
            b.name s).1.map fun sum => (sum.map .summarised).getD .unknown := fun hg hd => by
        rw [Program.answers_of_body hc,
          hplain (hg.calls hcall) (hf.push hg hcall).idle hd]
      rw [resolver_of_body cfg hc]
      cases he : (Analyzer.new p cfg).summaryWith A (n.push f) b.name s with
      | mk x s' =>
          rw [he] at hmemo hanswer
          cases x with
          | error fault => exact ⟨hmemo, fun hg hd => (hanswer hg hd).symm⟩
          | ok found =>
              cases found with
              | some sum => exact ⟨hmemo, fun hg hd => (hanswer hg hd).symm⟩
              | none =>
                  exact ⟨hmemo.like (s'.like_note _), fun hg hd => (hanswer hg hd).symm⟩

/-- So it brings the same. -/
theorem Exact.walk (h : Exact p cfg (n.push f) A) (hf : n.Below p f) (hb : p.body? f = some b)
    {gr : FunctionGraph} (hg : FunctionGraph.ofBody p.decls b = .ok gr)
    (hs : Memo p cfg (f :: n.active) s) :
    Memo p cfg (f :: n.active)
        (Walk.run gr cfg ((Analyzer.new p cfg).resolver A (n.push f) f) s).2 ∧
      (p.Grounded f → (n.push f).depth ≤ cfg.maxCallDepth →
        (Walk.run gr cfg ((Analyzer.new p cfg).resolver A (n.push f) f) s).1 =
          (Walk.run gr cfg (p.answers (p.plainReport cfg)) ()).1) := by
  have hfollows := Walk.dialogue_follows gr cfg
  have hcalls : ∀ c ∈ Walk.asked gr cfg, ∀ b, p.resolve c = some b → p.Calls f b.name :=
    fun c hc _ => Program.calls_of_mem_asked hb hg hc
  rw [Walk.run_eq, Walk.run_eq]
  refine ⟨hfollows.run_store (I := Memo p cfg (f :: n.active))
    (fun c hc _ hs => (h.resolver hf (hcalls c hc) hs).1) hs, fun hground hdepth => ?_⟩
  refine (hfollows.run_agree (R := fun s _ => Memo p cfg (f :: n.active) s) ?_ hs).1
  intro c hc s _ hs
  obtain ⟨hmemo, hanswer⟩ := h.resolver hf (hcalls c hc) hs
  exact ⟨hanswer hground hdepth, hmemo⟩

/-- **Analyses bring what recursion brings.** -/
theorem analyze_exact (hdepth : (p.bodies.length : Int) ≤ cfg.maxCallDepth) (fuel : Nat) :
    ∀ {n : Nesting}, n.Fits p fuel → n.depth = n.active.length →
      Exact p cfg n ((Analyzer.new p cfg).analyze fuel) := by
  induction fuel with
  | zero =>
      intro n hfits _ f s hf _ _
      obtain ⟨_, hz, -⟩ := hfits.push hf.body hf.idle
      exact absurd hz.symm (Nat.succ_ne_zero _)
  | succ fuel ih =>
      intro n hfits hlength f s hf hu hs
      obtain ⟨b, hb⟩ := Program.hasBody_iff.mp hf.body
      obtain ⟨k, hk, hin⟩ := hfits.push hf.body hf.idle
      obtain rfl := Nat.succ.inj hk
      have hpush := hs.push hu
      have hinner : (n.push f).depth = (n.push f).active.length := by
        simp [Nesting.push, hlength]
      have hlimit : (n.push f).depth ≤ cfg.maxCallDepth := by
        have := length_le_of_bodies hin.nodup hin.bodies
        omega
      rw [analyze_succ (a := Analyzer.new p cfg) hb]
      split
      case h_1 cause hg =>
        have hnote := hpush.like (s.like_note s!"skipping {f}: {cause.message}")
        obtain ⟨hfst, hc⟩ :=
          hnote.concluded_refused (hnote.unkept f List.mem_cons_self) cause.message
        have hplain : p.Grounded f → p.plainReport cfg f = .ok (.refused f cause.message) := by
          intro hground
          rw [plainReport_eq cfg hground hb, show FunctionGraph.ofBody p.decls b = _ from hg]
        refine ⟨hnote.concluded hf.idle hf.body rfl hc hplain, fun hground => ?_⟩
        rw [hfst, hplain hground]
      case h_2 gr hg =>
        obtain ⟨hmemo, hsame⟩ := (ih hin hinner).walk hf hb hg hpush
        have hplain : p.Grounded f → p.plainReport cfg f =
            (Walk.run gr cfg ((Analyzer.new p cfg).resolver ((Analyzer.new p cfg).analyze fuel)
              (n.push f) f) s).1.map (reportOf f) := by
          intro hground
          rw [plainReport_eq cfg hground hb, show FunctionGraph.ofBody p.decls b = _ from hg,
            hsame hground hlimit]
        split
        case h_1 fault t ht =>
          rw [show (Analyzer.new p cfg).config = cfg from rfl] at ht
          rw [ht] at hmemo hplain
          exact ⟨hmemo.pop, fun hground => (hplain hground).symm⟩
        case h_2 o t ht =>
          rw [show (Analyzer.new p cfg).config = cfg from rfl] at ht
          rw [ht] at hmemo hplain
          obtain ⟨hfst, hc⟩ :=
            hmemo.concluded_walked (hmemo.unkept f List.mem_cons_self) (Analyzer.new p cfg) o
          refine ⟨hmemo.concluded hf.idle hf.body rfl hc hplain, fun hground => ?_⟩
          rw [hfst, hplain hground]
          rfl

/-! ### Requests -/

theorem function_exact (hdepth : (p.bodies.length : Int) ≤ cfg.maxCallDepth) (f : String)
    (hs : Memo p cfg [] s) :
    Memo p cfg [] ((Analyzer.new p cfg).function f s).2 ∧
      (p.Grounded f → ((Analyzer.new p cfg).function f s).1 = p.plainReport cfg f) := by
  rw [function]
  split
  case h_1 r hr => exact ⟨hs, fun hg => (hs.plain f r hg hr).symm⟩
  case h_2 hu =>
    split
    case isTrue hb =>
      have hexact := analyze_exact hdepth (Analyzer.new p cfg).fuel (Nesting.fits_start p) rfl
      exact hexact.fromHead (Nesting.below_start hb) hu hs
    case isFalse hn =>
      have hnone : p.body? f = none := Option.not_isSome_iff_eq_none.mp hn
      refine ⟨hs, fun _ => ?_⟩
      rw [Program.plainReport, Program.reportWithin, hnone]

theorem memo_after (hdepth : (p.bodies.length : Int) ≤ cfg.maxCallDepth) (requests : List String) :
    Memo p cfg [] ((Analyzer.new p cfg).after requests) :=
  List.foldlRecOn requests _ (memo_empty p cfg) fun _ hs f _ => (function_exact hdepth f hs).1

/-- **Remembering makes no difference.**  In a program without call cycles, with as many calls deep as
it has functions, the reports given by recursion over calls are these: a function whose body is not
supported is refused, any other is walked, with the summaries of the reports on the functions it calls
and with nothing known of those that are refused.  Every request brings that report, after any other
requests; if the walk, or that of a function below it, has a fault, it brings that fault. -/
theorem memoised_is_recursive (p : Program) (cfg : Config)
    (hacyclic : ∀ f, ¬ TransGen p.Calls f f) (hdepth : (p.bodies.length : Int) ≤ cfg.maxCallDepth) :
    (∀ f b, p.body? f = some b → p.plainReport cfg f =
      match FunctionGraph.ofBody p.decls b with
      | .error cause => .ok (.refused f cause.message)
      | .ok g => (Walk.run g cfg (p.answers (p.plainReport cfg)) ()).1.map (reportOf f)) ∧
    ∀ requests f, ((Analyzer.new p cfg).function f ((Analyzer.new p cfg).after requests)).1 =
      p.plainReport cfg f := by
  have hground : ∀ f, p.Grounded f := fun _ g _ => hacyclic g
  refine ⟨fun f b hb => plainReport_eq cfg (hground f) hb, fun requests f => ?_⟩
  exact (function_exact hdepth f (memo_after hdepth requests)).2 (hground f)

/-- A crate whose `main` has its argument released twice, by a function that is called from two
others.  The body of `odd` has an edge to a block that it does not have. -/
def estate : Program where
  crate := "estate"
  sourceFiles := []
  adts := []
  decls := .empty
  library := [("release", { drops := [0], manual := true })]
  bodies :=
    [routine "main" [hop 0 "left" 1, hop 1 "right" 2, halt 2],
     routine "left" [hop 0 "shared" 1, halt 1],
     routine "right" [hop 0 "odd" 1, hop 1 "shared" 2, halt 2],
     routine "shared" [hop 0 "release" 1, halt 1],
     routine "odd" [hop 0 "release" 7]]

theorem estate_is_recursive :
    (∀ f, ¬ TransGen estate.Calls f f) ∧
      (estate.bodies.length : Int) ≤ ({} : Config).maxCallDepth ∧
      (estate.plainReport {} "main").map (·.findings.map (·.kind)) = .ok [.doubleFree] ∧
      (estate.plainReport {} "odd").map (·.summary.isSome) = .ok false ∧
      ((Analyzer.new estate {}).function "main"
        ((Analyzer.new estate {}).after ["right", "odd", "left"])).1 = estate.plainReport {} "main" := by
  have hdepth : (estate.bodies.length : Int) ≤ ({} : Config).maxCallDepth := by decide
  have hacyclic := Program.acyclic_of_rank (p := estate)
    (["odd", "shared", "right", "left", "main"].idxOf ·) (by decide +kernel)
  exact ⟨hacyclic, hdepth, by decide +kernel, by decide +kernel,
    (memoised_is_recursive estate {} hacyclic hdepth).2 ["right", "odd", "left"] "main"⟩

end Dangling.Analyzer
