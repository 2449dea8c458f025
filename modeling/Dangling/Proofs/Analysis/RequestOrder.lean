import Dangling.Proofs.Analysis.Lockstep

/-!
# Proofs — Analysis — RequestOrder

Reports and the order of requests.  Call cycles are made of all calls, but the analysis of a head
follows walked calls only.  Where functions of a cycle walk to each other and their head does not lead
to them, which of them is asked for first makes a difference.  Where the heads lead to all such
functions (`Program.WellHeaded`), it makes none.

* `determined`: a request brings the report that it would bring if it were the first.
* `reports_do_not_depend_on_request_order`: the same of two orders of requests for all functions.
* `stray_depends_on_request_order`: a program whose head does not lead to the rest of its cycle.
-/

namespace Dangling.Analyzer

open Dialogue (Related)

variable {p : Program} {cfg : Config} {e f g : String} {S : List String} {s s' b t : Session}
  {q r : Report}

/-- A request for a function that has a report. -/
theorem determined_of_kept (hs : Settled p cfg S s) (hS : p.entry cfg f ∉ S)
    (hq : s.cache.report? f = some q) :
    (∀ r s', (Analyzer.new p cfg).request (nest S) f s = (.ok r, s') →
      Canonical p cfg f r ∧ Settled p cfg S s') ∧
    ∀ r, Canonical p cfg f r → ∃ s', (Analyzer.new p cfg).request (nest S) f s = (.ok r, s') := by
  have hcanon := hs f q hq hS
  rw [request_of_kept _ hq]
  constructor
  · intro r s' hr
    cases hr
    exact ⟨hcanon, hs⟩
  · intro r hr
    rw [hr.unique hcanon]
    exact ⟨s, rfl⟩

/-- When a head is entered, its cycle is untouched. -/
theorem alike_blank (hhead : p.head e = e) (h : Orderly p cfg S s) (he : Enterable p cfg S s e)
    (hb : Session.Like {} b) : Alike p cfg e S [] s b := by
  intro g hg
  have hsame : p.head g = e := by
    rw [Program.head_eq_of_linked (p.linked_entry cfg g), hg, hhead]
  have hnone : ¬ (s.Kept (p.head g) ∨ p.head g ∈ S) := by
    rw [hsame]
    rintro (⟨r, hr⟩ | hm)
    · exact nomatch he.unkept.symm.trans hr
    · exact he.idle hm
  refine ⟨⟨fun hm => absurd (h.headed g hm).symm hnone, fun hm => nomatch hm⟩, ?_⟩
  rw [hb.report]
  cases hr : s.cache.report? g with
  | none => rfl
  | some r => exact absurd (h.covered g ⟨r, hr⟩) hnone

/-- When a function that is not led to has its report, it is settled. -/
theorem settled_of_alone (hled : ¬ p.Led cfg e) (hs : Settled p cfg (e :: S) t)
    (hr : t.cache.report? e = some r) (hcanon : Canonical p cfg e r) : Settled p cfg S t := by
  intro g q hq hg
  by_cases hge : p.entry cfg g = e
  · obtain rfl := Program.eq_of_entry_eq hled hge
    rwa [← Option.some.inj (hr.symm.trans hq)]
  · exact hs g q hq fun hm => (List.mem_cons.mp hm).elim hge hg

section Determined

variable (hdepth : (p.bodies.length : Int) ≤ cfg.maxCallDepth)

include hdepth

/-! ### Requests -/

/-- A function that is led to is reported on with the head of its cycle. -/
theorem request_iff_of_led (h : Orderly p cfg S s) (hf : Callable p cfg S f) (hled : p.Led cfg f)
    (hS : p.head f ∉ S) (hu : s.cache.report? f = none) :
    ∃ b, s.Like b ∧ Enterable p cfg S b (p.head f) ∧
      ∀ r t, (Analyzer.new p cfg).request (nest S) f s = (.ok r, t) ↔
        (∃ q, (Analyzer.new p cfg).step (nest S) (p.head f) b = (.ok q, t)) ∧
          t.cache.report? f = some r := by
  have hlink := p.linked_head f
  have hhead : s.cache.report? (p.head f) = none := by
    cases hk : s.cache.report? (p.head f) with
    | none => rfl
    | some q =>
        obtain ⟨r, hr⟩ := h.whole (p.head f) f ⟨q, hk⟩ (p.head_head f) hled hlink.symm
        exact nomatch hu.symm.trans hr
  by_cases hself : p.head f = f
  · have hm : p.head f ∈ f :: S := List.mem_cons.mpr (.inl hself)
    have hent : Enterable p cfg S s f := ⟨hf, hu, .inl hm⟩
    refine ⟨s, .refl s, hself.symm ▸ hent, fun r t => ?_⟩
    rw [request_of_headed cfg hu hm, hself]
    refine ⟨fun hr => ⟨⟨r, hr⟩, (steady hdepth S h hent hr).report⟩, fun ⟨⟨q, hq⟩, hr⟩ => ?_⟩
    have hreport := (steady hdepth S h hent hq).report
    rw [hq, Option.some.inj (hreport.symm.trans hr)]
  · have hm : p.head f ∉ f :: S := fun hm => (List.mem_cons.mp hm).elim hself hS
    have hnote := s.like_note s!"{f} is recursive, entering its cycle at {p.head f}"
    have h' := h.like hnote
    have hent := hf.head h' hS hhead
    refine ⟨_, hnote, hent, fun r t => ?_⟩
    rw [request_of_unkept_head cfg hu hm hhead]
    constructor
    · intro hr
      split at hr
      case h_2 => cases hr
      case h_1 q t' hq =>
        -- the analysis of the head has come by the function
        have hA := steady hdepth S h' hent hq
        obtain ⟨r', hr'⟩ :=
          hA.orderly.whole (p.head f) f ⟨q, hA.report⟩ (p.head_head f) hled hlink.symm
        rw [reported_eq, hr'] at hr
        cases hr
        exact ⟨⟨q, hq⟩, hr'⟩
    · rintro ⟨⟨q, hq⟩, hr⟩
      rw [hq]
      dsimp only
      rw [reported_eq, hr]

/-- A function that is not led to is analysed by itself, after the head of its cycle; if the head has
no report, there is none. -/
theorem request_cases_of_not_led (hdet : Determined p cfg (p.head f)) (h : Orderly p cfg S s)
    (hs : Settled p cfg S s) (hf : Callable p cfg S f) (hled : ¬ p.Led cfg f)
    (hu : s.cache.report? f = none) :
    ((∃ q, Canonical p cfg (p.head f) q) ∧ ∃ t, Orderly p cfg S t ∧ Settled p cfg S t ∧
      Enterable p cfg S t f ∧ (Analyzer.new p cfg).request (nest S) f s =
        (Analyzer.new p cfg).step (nest S) f t) ∨
    (¬ ∃ q, Canonical p cfg (p.head f) q) ∧
      ∀ r t, (Analyzer.new p cfg).request (nest S) f s ≠ (.ok r, t) := by
  have hm : p.head f ∉ f :: S := fun hm => hled (hf.led hm)
  have hS : p.head f ∉ S := fun hm' => hm (List.mem_cons_of_mem _ hm')
  have hentry : p.entry cfg (p.head f) ∉ S := by rwa [Program.entry_head]
  cases hk : s.cache.report? (p.head f) with
  | some q =>
      refine .inl ⟨⟨q, hs _ q hk hentry⟩, s, h, hs, ⟨hf, hu, .inr ⟨q, hk⟩⟩, ?_⟩
      exact request_of_kept_head cfg hu ⟨q, hk⟩
  | none =>
      have hnote := s.like_note s!"{f} is recursive, entering its cycle at {p.head f}"
      have h' := h.like hnote
      have hent := hf.head h' hS hk
      obtain ⟨hsound, hall⟩ := hdet h' (hs.like hnote) hent.toCallable hentry
      have hheaded : p.head (p.head f) ∈ p.head f :: S :=
        List.mem_cons.mpr (.inl (p.head_head f))
      rw [request_of_headed cfg hent.unkept hheaded] at hsound hall
      rw [request_of_unkept_head cfg hu hm hk]
      cases hr : (Analyzer.new p cfg).step (nest S) (p.head f)
          (s.note s!"{f} is recursive, entering its cycle at {p.head f}") with
      | mk x t =>
          cases x with
          | error fault =>
              refine .inr ⟨fun ⟨q, hq⟩ => ?_, fun r t hr => nomatch hr⟩
              obtain ⟨t', ht'⟩ := hall q hq
              exact nomatch hr.symm.trans ht'
          | ok q =>
              have hA := steady hdepth S h' hent hr
              -- the analysis of the head has not come by the function
              have hu' : t.cache.report? f = none := by
                cases hn : t.cache.report? f with
                | none => rfl
                | some r =>
                    rcases hA.grown.new f ⟨r, hn⟩ with ⟨r', hr'⟩ | ⟨-, hnew⟩
                    · exact nomatch hu.symm.trans hr'
                    · exact absurd (hnew List.mem_cons_self) hled
              obtain ⟨hcanon, hs'⟩ := hsound q t hr
              refine .inl ⟨⟨q, hcanon⟩, t, hA.orderly, hs', ⟨hf, hu', .inr ⟨q, hA.report⟩⟩, ?_⟩
              dsimp only
              rw [reported_eq, hu']

/-! ### Entries

What comes before an entry is determined; then so are the functions that have this entry. -/

variable (hw : p.WellHeaded cfg)
  (hbelow : ∀ g, p.hasBody g = true → p.Below cfg (p.entry cfg g) e → Determined p cfg g)

include hw hbelow

/-- The analysis of a head goes as it would go at first. -/
theorem related_blank (hhead : p.head e = e) (h : Orderly p cfg S s) (hs : Settled p cfg S s)
    (he : Enterable p cfg S s e) (hb : Session.Like {} b) :
    Related (Parallel p cfg e S [] (e :: S) [e]) ((Analyzer.new p cfg).step (nest S) e s)
      ((Analyzer.new p cfg).step (nest []) e b) := by
  have hentry : p.entry cfg e = e := by
    rw [Program.entry_of_led (Program.led_of_head_eq hhead), hhead]
  have hblank : Enterable p cfg [] b e := by
    refine ⟨callable_nil cfg he.body, hb.report e, .inl ?_⟩
    exact List.mem_singleton.mpr hhead
  exact locked hdepth hw hbelow S [] ⟨h, (orderly_empty p cfg).like hb, hs,
    (settled_empty p cfg []).like hb, alike_blank hhead h he hb⟩ he hblank hentry
    List.mem_cons_self List.mem_cons_self

/-- The reports that come with a head are canonical, and every canonical report comes with it. -/
theorem canonical_iff_of_entry (hhead : p.head e = e) (h : Orderly p cfg S s)
    (hs : Settled p cfg S s) (he : Enterable p cfg S s e) (hg : p.entry cfg g = e) :
    Canonical p cfg g q ↔
      ∃ r t, (Analyzer.new p cfg).step (nest S) e s = (.ok r, t) ∧ t.cache.report? g = some q := by
  have hlink : p.Linked g e := hg ▸ p.linked_entry cfg g
  have hbody : p.hasBody g = true := Program.Reaches.hasBody hlink.2 he.body
  have hsame : p.head g = e := by rw [Program.head_eq_of_linked hlink, hhead]
  have hled : p.Led cfg g := by
    by_cases hself : g = e
    · exact Program.led_of_head_eq (hsame.trans hself.symm)
    · exact Program.led_of_entry_ne (hg.trans_ne (Ne.symm hself))
  obtain ⟨b, hb, -, hreq⟩ := request_iff_of_led hdepth (orderly_empty p cfg)
    (callable_nil cfg hbody) hled List.not_mem_nil rfl
  rw [hsame] at hreq
  have hrel := related_blank hdepth hw hbelow hhead h hs he hb
  generalize (Analyzer.new p cfg).step (nest S) e s = x at hrel
  generalize (Analyzer.new p cfg).step (nest []) e b = y at hrel hreq
  simp only [Canonical, hreq]
  cases hrel with
  | error =>
      exact ⟨fun ⟨_, ⟨_, hq⟩, _⟩ => (nomatch hq), fun ⟨_, _, hq, _⟩ => (nomatch hq)⟩
  | @ok r t t₀ hpar =>
      have hreport := (hpar.alike g hg).2
      constructor
      · rintro ⟨_, ⟨_, hy⟩, hr⟩
        cases hy
        exact ⟨r, t, rfl, hreport.trans hr⟩
      · rintro ⟨_, _, hx, hr⟩
        cases hx
        exact ⟨t₀, ⟨r, rfl⟩, hreport.symm.trans hr⟩

/-- When the analysis of a head ends, its functions are settled. -/
theorem settled_of_entry (hhead : p.head e = e) (h : Orderly p cfg S s) (hs : Settled p cfg S s)
    (he : Enterable p cfg S s e) (hr : (Analyzer.new p cfg).step (nest S) e s = (.ok r, t)) :
    Settled p cfg S t := by
  have hrel := related_blank hdepth hw hbelow hhead h hs he (.refl {})
  rw [hr] at hrel
  generalize (Analyzer.new p cfg).step (nest []) e {} = y at hrel
  intro g q hq hg
  by_cases hge : p.entry cfg g = e
  · exact (canonical_iff_of_entry hdepth hw hbelow hhead h hs he hge).mpr ⟨r, t, hr, hq⟩
  · cases hrel with
    | ok hpar =>
        refine hpar.settled₁ g q hq fun hm => ?_
        exact (List.mem_cons.mp hm).elim hge hg

theorem determined_of_led (hfe : p.entry cfg f = e) (hled : p.Led cfg f) :
    Determined p cfg f := by
  intro S s h hs hf hS
  cases hu : s.cache.report? f with
  | some q => exact determined_of_kept hs hS hu
  | none =>
      have hentry := Program.entry_of_led hled
      obtain rfl : p.head f = e := hentry.symm.trans hfe
      rw [hentry] at hS
      obtain ⟨b, hb, hent, hreq⟩ := request_iff_of_led hdepth h hf hled hS hu
      have hhead := p.head_head f
      have hcanon : ∀ q, Canonical p cfg f q ↔ _ := fun q =>
        canonical_iff_of_entry hdepth hw hbelow hhead (h.like hb) (hs.like hb) hent hentry
      refine ⟨fun r t hr => ?_, fun r hr => ?_⟩
      · obtain ⟨⟨q, hq⟩, hr⟩ := (hreq r t).mp hr
        refine ⟨(hcanon r).mpr ⟨q, t, hq, hr⟩, ?_⟩
        exact settled_of_entry hdepth hw hbelow hhead (h.like hb) (hs.like hb) hent hq
      · obtain ⟨q, t, hq, hr⟩ := (hcanon r).mp hr
        exact ⟨t, (hreq r t).mpr ⟨⟨q, hq⟩, hr⟩⟩

/-- The analysis of a function that is not led to goes as it would go at first. -/
theorem related_alone {t₀ : Session} (hled : ¬ p.Led cfg e) (h : Orderly p cfg S t)
    (h₀ : Orderly p cfg [] t₀) (hs : Settled p cfg S t) (hs₀ : Settled p cfg [] t₀)
    (he : Enterable p cfg S t e) (he₀ : Enterable p cfg [] t₀ e) :
    Related (Parallel p cfg e S [] (e :: S) [e]) ((Analyzer.new p cfg).step (nest S) e t)
      ((Analyzer.new p cfg).step (nest []) e t₀) := by
  have halike : Alike p cfg e S [] t t₀ := by
    intro g hg
    rw [Program.eq_of_entry_eq hled hg, he.unkept, he₀.unkept]
    exact ⟨⟨fun hm => absurd hm he.idle, fun hm => absurd hm he₀.idle⟩, rfl⟩
  exact locked hdepth hw hbelow S [] ⟨h, h₀, hs, hs₀, halike⟩ he he₀
    (Program.entry_of_not_led hled) List.mem_cons_self List.mem_cons_self

theorem determined_of_not_led (hbody : p.hasBody e = true) (hled : ¬ p.Led cfg e) :
    Determined p cfg e := by
  have hlink := p.linked_head e
  have hdet : Determined p cfg (p.head e) := by
    refine hbelow _ (Program.Reaches.hasBody hlink.1 hbody) ?_
    rw [Program.entry_head]
    exact .inr ⟨hlink.symm, hled, .inl (p.led_head cfg e)⟩
  intro S s h hs hf hS
  cases hu : s.cache.report? e with
  | some q => exact determined_of_kept hs hS hu
  | none =>
      have hcases := request_cases_of_not_led hdepth hdet h hs hf hled hu
      rcases request_cases_of_not_led hdepth hdet (orderly_empty p cfg) (settled_empty p cfg [])
        (callable_nil cfg hbody) hled rfl with ⟨hq, t₀, ho₀, hs₀, he₀, hreq₀⟩ | ⟨hq, hno₀⟩
      · obtain ⟨-, t, ho, hst, he, hreq⟩ := hcases.resolve_right fun hno => hno.1 hq
        have hrel := related_alone hdepth hw hbelow hled ho ho₀ hst hs₀ he he₀
        have hkept : ∀ r u, (Analyzer.new p cfg).step (nest S) e t = (.ok r, u) →
            u.cache.report? e = some r := fun r u hr => (steady hdepth S ho he hr).report
        rw [hreq]
        generalize (Analyzer.new p cfg).step (nest S) e t = x at hrel hkept
        generalize (Analyzer.new p cfg).step (nest []) e t₀ = y at hrel hreq₀
        cases hrel with
        | error =>
            refine ⟨fun r u hx => (nomatch hx), fun r ⟨u, hy⟩ => ?_⟩
            exact nomatch hreq₀.symm.trans hy
        | @ok r u u₀ hpar =>
            have hcanon : Canonical p cfg e r := ⟨u₀, hreq₀⟩
            refine ⟨fun r' u' hx => ?_, fun r' hr' => ?_⟩
            · cases hx
              exact ⟨hcanon, settled_of_alone hled hpar.settled₁ (hkept r u rfl) hcanon⟩
            · rw [hr'.unique hcanon]
              exact ⟨u, rfl⟩
      · obtain ⟨-, hno⟩ := hcases.resolve_left fun hyes => hq hyes.1
        exact ⟨fun r t hr => absurd hr (hno r t), fun r ⟨t, ht⟩ => absurd ht (hno₀ r t)⟩

omit hbelow

/-- **A request brings the report that it would bring if it were the first.** -/
theorem determined (hf : p.hasBody f = true) : Determined p cfg f := by
  have hall : ∀ e, p.hasBody e = true → ∀ f, p.hasBody f = true → p.entry cfg f = e →
      Determined p cfg f := by
    intro e he
    refine Program.below_induction cfg (motive := fun e => ∀ f, p.hasBody f = true →
      p.entry cfg f = e → Determined p cfg f) (fun e _ ih f hf hfe => ?_) he
    have hbelow : ∀ g, p.hasBody g = true → p.Below cfg (p.entry cfg g) e →
        Determined p cfg g := fun g hg hb => by
      have hentry := Program.Reaches.hasBody (p.linked_entry cfg g).1 hg
      exact ih (p.entry cfg g) hentry hb g hg rfl
    by_cases hled : p.Led cfg f
    · exact determined_of_led hdepth hw hbelow hfe hled
    · obtain rfl : f = e := (Program.entry_of_not_led hled).symm.trans hfe
      exact determined_of_not_led hdepth hw hbelow hf hled
  exact hall _ (Program.Reaches.hasBody (p.linked_entry cfg f).1 hf) f hf rfl

/-! ### Orders of requests -/

/-- A request between analyses leaves a session in order with settled reports. -/
theorem function_settled (h : Orderly p cfg [] s) (hs : Settled p cfg [] s)
    (hf : p.hasBody f = true) (hr : (Analyzer.new p cfg).function f s = (.ok r, t)) :
    Analysed p cfg [] [] f s r t ∧ Settled p cfg [] t := by
  have hc := callable_nil cfg hf
  rw [function_eq_request _ hf] at hr
  refine ⟨(steady hdepth []).request h hc hr, ?_⟩
  exact ((determined hdepth hw hf h hs hc List.not_mem_nil).1 r t hr).2

theorem functions_settled (names : List String) (done : List Report) {rs : List Report}
    (h : Orderly p cfg [] s) (hs : Settled p cfg [] s) (hb : ∀ f ∈ names, p.hasBody f = true)
    (hr : (Analyzer.new p cfg).functions names done s = (.ok rs, t)) :
    Settled p cfg [] t ∧ ∀ f, s.Kept f ∨ f ∈ names → t.Kept f := by
  induction names generalizing done s with
  | nil =>
      cases hr
      exact ⟨hs, fun f hf => hf.resolve_right List.not_mem_nil⟩
  | cons name names ih =>
      rw [functions] at hr
      split at hr
      case h_2 => cases hr
      case h_1 r u hu =>
        obtain ⟨hA, hsu⟩ := function_settled hdepth hw h hs (hb name List.mem_cons_self) hu
        obtain ⟨hst, hkept⟩ := ih _ hA.orderly hsu (fun f hf => hb f (List.mem_cons_of_mem _ hf)) hr
        refine ⟨hst, fun f hf => hkept f ?_⟩
        rcases hf with hf | hf
        · exact .inl (hA.grown.kept hf)
        · rcases List.mem_cons.mp hf with rfl | hf
          · exact .inl ⟨r, hA.report⟩
          · exact .inr hf

theorem functions_answered (names : List String) (done : List Report) (h : Orderly p cfg [] s)
    (hs : Settled p cfg [] s) (hb : ∀ f ∈ names, p.hasBody f = true)
    (hcanon : ∀ f ∈ names, ∃ r, Canonical p cfg f r) :
    ∃ rs t, (Analyzer.new p cfg).functions names done s = (.ok rs, t) := by
  induction names generalizing done s with
  | nil => exact ⟨done, s, rfl⟩
  | cons name names ih =>
      have hbody := hb name List.mem_cons_self
      have hc := callable_nil cfg hbody
      obtain ⟨r, hr⟩ := hcanon name List.mem_cons_self
      obtain ⟨u, hu⟩ := (determined hdepth hw hbody h hs hc List.not_mem_nil).2 r hr
      rw [← function_eq_request (Analyzer.new p cfg) hbody] at hu
      obtain ⟨hA, hsu⟩ := function_settled hdepth hw h hs hbody hu
      rw [functions, hu]
      exact ih _ hA.orderly hsu (fun f hf => hb f (List.mem_cons_of_mem _ hf))
        fun f hf => hcanon f (List.mem_cons_of_mem _ hf)

end Determined

/-- **Reports do not depend on the order of requests**, where the depth of calls is no limit and the
heads of call cycles lead to all functions on cycles of walked calls.  If requests for all functions
are answered in one order, they are in every other order, and every function ends with the same
report, which is the one it gets when it is asked for first. -/
theorem reports_do_not_depend_on_request_order (p : Program) (cfg : Config)
    (hdepth : (p.bodies.length : Int) ≤ cfg.maxCallDepth)
    (hheads : ∀ f g, f ≠ g → p.Leads cfg f g → p.Leads cfg g f → p.Leads cfg (p.head f) f)
    {names names' : List String} (hnames : ∀ f, f ∈ names ↔ p.hasBody f = true)
    (hnames' : ∀ f, f ∈ names' ↔ p.hasBody f = true) {rs : List Report} {s : Session}
    (hs : (Analyzer.new p cfg).functions names [] {} = (.ok rs, s)) :
    ∃ rs' s', (Analyzer.new p cfg).functions names' [] {} = (.ok rs', s') ∧
      ∀ f, p.hasBody f = true → ∃ r, ((Analyzer.new p cfg).function f ({} : Session)).1 = .ok r ∧
        s.cache.report? f = some r ∧ s'.cache.report? f = some r := by
  have hw : p.WellHeaded cfg := hheads
  have hempty := orderly_empty p cfg
  obtain ⟨hsettled, hkept⟩ := functions_settled hdepth hw names [] hempty (settled_empty p cfg [])
    (fun f hf => (hnames f).mp hf) hs
  have hcanon : ∀ f, p.hasBody f = true → ∃ r, s.cache.report? f = some r ∧ Canonical p cfg f r :=
    fun f hf => by
      obtain ⟨r, hr⟩ := hkept f (.inr ((hnames f).mpr hf))
      exact ⟨r, hr, hsettled f r hr List.not_mem_nil⟩
  obtain ⟨rs', s', hs'⟩ := functions_answered hdepth hw names' [] hempty (settled_empty p cfg [])
    (fun f hf => (hnames' f).mp hf) fun f hf =>
      (hcanon f ((hnames' f).mp hf)).imp fun _ hr => hr.2
  obtain ⟨hsettled', hkept'⟩ := functions_settled hdepth hw names' [] hempty
    (settled_empty p cfg []) (fun f hf => (hnames' f).mp hf) hs'
  refine ⟨rs', s', hs', fun f hf => ?_⟩
  obtain ⟨r, hr, hc⟩ := hcanon f hf
  obtain ⟨r', hr'⟩ := hkept' f (.inr ((hnames' f).mpr hf))
  obtain rfl := hc.unique (hsettled' f r' hr' List.not_mem_nil)
  refine ⟨r, ?_, hr, hr'⟩
  obtain ⟨t, ht⟩ := hc
  rw [function_eq_request _ hf, ht]

/-! ### Two programs -/

/-- A block that calls a function on the argument and goes on. -/
def hop (id : BlockId) (callee : String) (next : BlockId) : Block :=
  { id, statements := [],
    terminator := ⟨default, .call callee [.copy { base := 1 }] { base := 2 } (some next) none⟩ }

/-- A block that returns. -/
def halt (id : BlockId) : Block := { id, statements := [], terminator := ⟨default, .ret⟩ }

/-- A function of one argument. -/
def routine (name : String) (blocks : List Block)
    (distinct : (blocks.map (·.id)).Nodup := by decide) : Body :=
  { name, argCount := 1, blocks, distinct,
    locals := [{ ty := Ty.unit }, { ty := .container .vec "Vec" [Ty.int32] }, { ty := Ty.unit }] }

/-- A crate of functions that call each other.  `c` is on the call cycle of `a` and `b` only through a
block of `b` that no path enters. -/
def circle : Program where
  crate := "circle"
  sourceFiles := []
  adts := []
  decls := .empty
  library := [("release", { drops := [0], manual := true })]
  bodies :=
    [routine "a" [hop 0 "b" 1, halt 1],
     routine "b" [hop 0 "a" 1, hop 1 "release" 2, halt 2, hop 3 "c" 2],
     routine "c" [hop 0 "a" 1, halt 1]]

theorem circle_walks {f g : String} (h : circle.Walks {} f g) :
    f = "a" ∧ g = "b" ∨ f = "b" ∧ g = "a" ∨ f = "c" ∧ g = "a" := by
  have hnames : circle.functionNames = ["a", "b", "c"] := by decide +kernel
  have hf := Program.mem_functionNames.mpr h.calls.hasBody_left
  rw [hnames] at hf
  rw [Program.Walks] at h
  simp only [List.mem_cons, List.not_mem_nil, or_false] at hf
  rcases hf with rfl | rfl | rfl
  · have ha : circle.walkedCalls {} "a" = ["b"] := by decide +kernel
    rw [ha] at h
    exact .inl ⟨rfl, List.mem_singleton.mp h⟩
  · have hb : circle.walkedCalls {} "b" = ["a"] := by decide +kernel
    rw [hb] at h
    exact .inr (.inl ⟨rfl, List.mem_singleton.mp h⟩)
  · have hc : circle.walkedCalls {} "c" = ["a"] := by decide +kernel
    rw [hc] at h
    exact .inr (.inr ⟨rfl, List.mem_singleton.mp h⟩)

/-- `c` is on no cycle of walked calls. -/
theorem circle_wellHeaded : circle.WellHeaded {} := by
  intro f g hne hfg hgf
  rcases hfg.cases_head with e | ⟨k, hk, -⟩
  · exact absurd e hne
  rcases circle_walks hk with ⟨rfl, -⟩ | ⟨rfl, -⟩ | ⟨rfl, -⟩
  · have hhead : circle.head "a" = "a" := by decide +kernel
    exact Program.led_of_head_eq hhead
  · have hhead : circle.head "b" = "a" := by decide +kernel
    rw [Program.Led, hhead]
    have hwalks : circle.Walks {} "a" "b" := by
      rw [Program.Walks]
      decide +kernel
    exact .single hwalks
  · rcases hgf.cases_tail with e | ⟨k, -, hk⟩
    · exact absurd e hne
    · rcases circle_walks hk with ⟨-, e⟩ | ⟨-, e⟩ | ⟨-, e⟩
      all_goals exact absurd e (by decide)

theorem circle_in_any_order :
    (circle.bodies.length : Int) ≤ ({} : Config).maxCallDepth ∧ circle.WellHeaded {} ∧
      ¬ circle.Led {} "c" ∧
      ∃ rs s, (Analyzer.new circle {}).functions ["a", "b", "c"] [] {} = (.ok rs, s) ∧
        ∃ rs' s', (Analyzer.new circle {}).functions ["c", "b", "a"] [] {} = (.ok rs', s') ∧
          ∀ f, circle.hasBody f = true →
            ∃ r, ((Analyzer.new circle {}).function f ({} : Session)).1 = .ok r ∧
              s.cache.report? f = some r ∧ s'.cache.report? f = some r := by
  have hdepth : (circle.bodies.length : Int) ≤ ({} : Config).maxCallDepth := by decide
  have hnames : circle.functionNames = ["a", "b", "c"] := by decide +kernel
  have hin : ∀ f, f ∈ ["a", "b", "c"] ↔ circle.hasBody f = true := fun f => by
    rw [← Program.mem_functionNames, hnames]
  have hin' : ∀ f, f ∈ ["c", "b", "a"] ↔ circle.hasBody f = true := fun f => by
    rw [← hin]
    simp [or_comm, or_left_comm]
  have hok : ((Analyzer.new circle {}).functions ["a", "b", "c"] [] {}).1.isOk = true := by
    decide +kernel
  have hled : ¬ circle.Led {} "c" := fun h => by
    have hhead : circle.head "c" = "a" := by decide +kernel
    rw [Program.Led, hhead] at h
    rcases h.cases_tail with e | ⟨k, -, hk⟩
    · exact absurd e (by decide)
    · rcases circle_walks hk with ⟨-, e⟩ | ⟨-, e⟩ | ⟨-, e⟩
      all_goals exact absurd e (by decide)
  refine ⟨hdepth, circle_wellHeaded, hled, ?_⟩
  cases hs : (Analyzer.new circle {}).functions ["a", "b", "c"] [] {} with
  | mk x s =>
      rw [hs] at hok
      cases x with
      | error fault => cases hok
      | ok rs =>
          exact ⟨rs, s, rfl, reports_do_not_depend_on_request_order circle {} hdepth
            circle_wellHeaded hin hin' hs⟩

/-- A crate of functions that call each other, whose head `a` calls `b` only in a block that no path
enters. -/
def stray : Program where
  crate := "stray"
  sourceFiles := []
  adts := []
  decls := .empty
  library := [("release", { drops := [0], manual := true })]
  bodies :=
    [routine "a" [halt 0, hop 1 "b" 0],
     routine "b" [hop 0 "c" 1, halt 1, hop 2 "a" 1],
     routine "c" [hop 0 "b" 1, hop 1 "release" 2, halt 2]]

/-- **Reports may depend on the order of requests.**  If `b` is asked for before `c`, it is known to
release its argument; if `c` is asked for first, `b` is analysed inside `c` and seems to do nothing. -/
theorem stray_depends_on_request_order :
    (stray.bodies.length : Int) ≤ ({} : Config).maxCallDepth ∧
      (∀ f, f ∈ ["a", "b", "c"] ↔ stray.hasBody f = true) ∧
      (∀ f, f ∈ ["c", "b", "a"] ↔ stray.hasBody f = true) ∧
      ((Analyzer.new stray {}).functions ["a", "b", "c"] [] {}).1.isOk = true ∧
      ((Analyzer.new stray {}).functions ["c", "b", "a"] [] {}).1.isOk = true ∧
      ((Analyzer.new stray {}).functions ["a", "b", "c"] [] {}).2.cache.report? "b" ≠
        ((Analyzer.new stray {}).functions ["c", "b", "a"] [] {}).2.cache.report? "b" := by
  have hnames : stray.functionNames = ["a", "b", "c"] := by decide +kernel
  have hin : ∀ f, f ∈ ["a", "b", "c"] ↔ stray.hasBody f = true := fun f => by
    rw [← Program.mem_functionNames, hnames]
  refine ⟨by decide, hin, fun f => ?_, by decide +kernel, by decide +kernel, fun e => ?_⟩
  · rw [← hin]
    simp [or_comm, or_left_comm]
  · have hdropped := congrArg (Option.map fun r : Report => r.summary.map (·.dropped.length)) e
    have hfirst : (((Analyzer.new stray {}).functions ["a", "b", "c"] [] {}).2.cache.report? "b").map
        (fun r => r.summary.map (·.dropped.length)) = some (some 1) := by decide +kernel
    have hlast : (((Analyzer.new stray {}).functions ["c", "b", "a"] [] {}).2.cache.report? "b").map
        (fun r => r.summary.map (·.dropped.length)) = some (some 0) := by decide +kernel
    rw [hfirst, hlast] at hdropped
    exact absurd hdropped (by decide)

end Dangling.Analyzer
