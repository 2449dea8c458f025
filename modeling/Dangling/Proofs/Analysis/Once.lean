import Dangling.Proofs.Analysis.Journal

/-!
# Proofs — Analysis — Once

Functions are analysed once.  A function is entered only if it has no report and is not being
analysed, and every way to leave it but a fault gives it a report; so the times that it was entered can
be told from the journal, the stack and the reports (`Sound.counted`).  A fault leaves nothing behind:
the function may be entered again by a later request, and only then.

* `Journal.Legal`: what is so at each entry.
* `Sound`: a desk in order.
* `analyze_lawful`: analyses keep it in order, for any call graph and any limit of depth.
* `walked_once`: what that says of a history of requests.
-/

namespace Dangling

/-! ### Journals -/

namespace Journal

variable {j j' : Journal} {f g : String} {e : Ending} {limit : Int}

@[simp] theorem stack_entered : Journal.stack (.entered f :: j) = f :: j.stack := rfl

@[simp] theorem stack_left : Journal.stack (.left f e :: j) = j.stack.tail := rfl

@[simp] theorem entries_entered :
    Journal.entries (.entered g :: j) f = j.entries f + if g = f then 1 else 0 := by
  simp [entries, List.count_cons]

@[simp] theorem entries_left : Journal.entries (.left g e :: j) f = j.entries f := by
  simp [entries]

@[simp] theorem failures_entered : Journal.failures (.entered g :: j) f = j.failures f := by
  simp [failures]

@[simp] theorem failures_left : Journal.failures (.left g e :: j) f =
    j.failures f + if g = f ∧ e = .failed then 1 else 0 := by
  simp [failures, List.count_cons]

/-- A function is entered while it is not on the stack, and no more than `limit` others are; all that
came of it before are faults. -/
def Legal (limit : Int) : Journal → Prop
  | [] => True
  | .entered f :: j =>
    (f ∉ stack j ∧ ((stack j).length : Int) ≤ limit ∧ entries j f = failures j f) ∧ Legal limit j
  | .left _ _ :: j => Legal limit j

/-- What was legal up to now was so before. -/
theorem Legal.tail {event : Event} (h : Legal limit (event :: j)) : Legal limit j := by
  cases event with
  | entered f => exact h.2
  | left f e => exact h

/-- So it was at every earlier point. -/
theorem Legal.of_suffix (h : Legal limit j) (hs : j' <:+ j) : Legal limit j' := by
  induction j with
  | nil =>
      obtain rfl := List.suffix_nil.mp hs
      exact h
  | cons event j ih =>
      rcases List.suffix_cons_iff.mp hs with rfl | hs
      · exact h
      · exact ih h.tail hs

/-- By induction on the journal: each entry found room on the stack. -/
theorem Legal.length_stack_le (h : Legal limit j) (hlimit : 0 ≤ limit) :
    (j.stack.length : Int) ≤ limit + 1 := by
  induction j with
  | nil => exact Int.le_add_one hlimit
  | cons event j ih =>
      cases event with
      | entered f =>
          have hle := h.1.2.1
          rw [stack_entered, List.length_cons]
          omega
      | left f e =>
          have hle := ih h
          rw [stack_left, List.length_tail]
          omega

end Journal

/-! ### What is kept -/

/-- Nothing is added to what a session keeps. -/
structure Session.Still (s s' : Session) : Prop extends s.Like s' where
  summaries : s'.cache.summaries = s.cache.summaries
  populations : s'.cache.populations = s.cache.populations

theorem Session.Still.trans {s₁ s₂ s₃ : Session} (h : s₁.Still s₂) (h' : s₂.Still s₃) :
    s₁.Still s₃ where
  report f := (h'.report f).trans (h.report f)
  summary f := (h'.summary f).trans (h.summary f)
  summaries := h'.summaries.trans h.summaries
  populations := h'.populations.trans h.populations

namespace Analyzer

variable {a : Analyzer} {A : Step Desk} {S : List String} {f g : String}
  {d d' : Desk} {s s' : Session} {r : Report} {o : Walk.Outcome} {n : Nesting}

/-- A line in the log is not kept. -/
theorem still_note (s : Session) (line : String) : s.Still (s.note line) :=
  ⟨s.like_note line, rfl, rfl⟩

/-- A question to the cache adds nothing to it. -/
theorem still_asked (s : Session) (f : String) : s.Still (asked s f) := by
  refine ⟨like_asked s f, ?_, ?_⟩ <;> rw [asked, Cache.lookup] <;> split <;> rfl

/-- A report that is kept is no summary. -/
theorem cache_keep (r : Report) (s : Session) :
    (keep r s).2.cache.summaries = s.cache.summaries ∧
      (keep r s).2.cache.populations = s.cache.populations := by
  simp only [keep, Cache.store]
  cases s.cache.report? r.function <;> exact ⟨rfl, rfl⟩

/-- A walk adds a summary. -/
theorem cache_conclude (a : Analyzer) (o : Walk.Outcome) (h : s.cache.summary? f = none) :
    (a.conclude f o s).2.cache.summaries = s.cache.summaries ++ [(f, o.summary)] ∧
      (a.conclude f o s).2.cache.populations = s.cache.populations + 1 := by
  have hinsert : ∀ t : Session, s.Still t →
      (t.cache.insert f o.summary).summaries = s.cache.summaries ++ [(f, o.summary)] ∧
        (t.cache.insert f o.summary).populations = s.cache.populations + 1 := by
    intro t ht
    have hnew : t.cache.contains f = false := by
      rw [Cache.contains, ht.summary, h]
      rfl
    rw [Cache.insert, hnew]
    exact ⟨congrArg (· ++ _) ht.summaries, congrArg (· + 1) ht.populations⟩
  rw [conclude]
  obtain ⟨hsum, hpop⟩ := cache_keep (reportOf f o) _
  rw [hsum, hpop]
  split
  · exact hinsert s ⟨.refl s, rfl, rfl⟩
  · exact hinsert _ (still_note s _)

/-! ### A desk in order -/

/-- The stack is that of the journal, functions on it have no reports, and what is kept is what the
journal tells. -/
structure Sound (a : Analyzer) (d : Desk) : Prop extends Tidy a.program d.active d.session where
  stack : d.journal.stack = d.active
  legal : d.journal.Legal (max 0 a.config.maxCallDepth)
  /-- A function that was entered is being analysed, or has a report, or there was a fault. -/
  counted : ∀ f, d.journal.entries f =
    d.journal.failures f + d.active.count f + (d.session.cache.report? f).isSome.toNat
  walked : d.session.cache.summaries.map (·.1) = d.journal.walked.reverse
  distinct : d.journal.walked.Nodup
  populations : d.session.cache.populations = d.session.cache.size

/-- Before the first request nothing was entered. -/
theorem sound_empty (a : Analyzer) : Sound a {} :=
  { tidy_empty a.program with
    stack := rfl, legal := trivial, counted := fun _ => rfl, walked := rfl, distinct := .nil
    populations := rfl }

namespace Sound

/-- The session may go on, if nothing is added to what it keeps. -/
theorem turn (h : Sound a d) (hs : d.session.Still s) : Sound a (d.turn s) where
  toTidy := h.toTidy.like hs.toLike
  stack := h.stack
  legal := h.legal
  counted f := by
    rw [Desk.turn, hs.report]
    exact h.counted f
  walked := (congrArg (List.map (·.1)) hs.summaries).trans h.walked
  distinct := h.distinct
  populations := by
    rw [Desk.turn, Cache.size, hs.summaries, hs.populations]
    exact h.populations

/-- A function is entered that is neither on the stack nor reported. -/
theorem enter (h : Sound a d) (hf : f ∉ d.active) (hu : d.session.cache.report? f = none)
    (hlimit : (d.active.length : Int) ≤ max 0 a.config.maxCallDepth) : Sound a (d.enter f) where
  toTidy := h.toTidy.push hu
  stack := congrArg (f :: ·) h.stack
  legal := by
    refine ⟨⟨h.stack ▸ hf, h.stack ▸ hlimit, ?_⟩, h.legal⟩
    rw [h.counted, List.count_eq_zero_of_not_mem hf, hu]
    rfl
  counted g := by
    have hg := h.counted g
    simp only [Desk.enter, Journal.entries_entered, Journal.failures_entered, List.count_cons,
      beq_iff_eq]
    omega
  walked := h.walked
  distinct := h.distinct
  populations := h.populations

/-- The function on top of the stack. -/
theorem tidy_cons (h : Sound a d) (hd : d.active = f :: S) : Tidy a.program (f :: S) d.session :=
  hd ▸ h.toTidy

/-- It has no report yet. -/
theorem unkept_top (h : Sound a d) (hd : d.active = f :: S) : d.session.cache.report? f = none :=
  (h.tidy_cons hd).unkept f List.mem_cons_self

/-- A fault takes the function from the stack, and that is all. -/
theorem fail (h : Sound a d) (hd : d.active = f :: S) : Sound a (d.leave f .failed) where
  toTidy := by
    rw [Desk.leave, hd]
    exact (h.tidy_cons hd).pop
  stack := congrArg List.tail h.stack
  legal := h.legal
  counted g := by
    have hg := h.counted g
    rw [hd, List.count_cons] at hg
    simp only [Desk.leave, hd, List.tail_cons, Journal.entries_left, Journal.failures_left, and_true]
    simp only [beq_iff_eq] at hg
    omega
  walked := h.walked
  distinct := h.distinct
  populations := h.populations

/-- A report takes the place of the function on the stack. -/
theorem counted_concluded (h : Sound a d) (hd : d.active = f :: S)
    (hc : Concluded f r d.session s) (g : String) : d.journal.entries g =
      d.journal.failures g + S.count g + (s.cache.report? g).isSome.toNat := by
  have hg := h.counted g
  rw [hd, List.count_cons] at hg
  rw [hc.report]
  by_cases e : g = f
  · subst e
    rw [h.unkept_top hd] at hg
    simpa [Nat.add_assoc] using hg
  · rw [if_neg e]
    have hne : (f == g) = false := beq_false_of_ne (Ne.symm e)
    simpa [hne] using hg

/-- A refused body brings a report and no summary. -/
theorem refuse (h : Sound a d) (hd : d.active = f :: S) (hf : f ∉ S)
    (hb : a.program.hasBody f = true) (message : String) :
    Sound a ((d.turn (keep (.refused f message) d.session).2).leave f .refused) := by
  have htidy := h.tidy_cons hd
  have hc := (htidy.concluded_refused (h.unkept_top hd) message).2
  obtain ⟨hsum, hpop⟩ := cache_keep (.refused f message) d.session
  refine ⟨?_, congrArg List.tail h.stack, h.legal, fun g => ?_, ?_, h.distinct, ?_⟩
  · rw [Desk.leave, Desk.turn, hd]
    exact htidy.concluded hf hb rfl hc
  · have hg := h.counted_concluded hd hc g
    simpa [Desk.leave, Desk.turn, hd] using hg
  · exact (congrArg (List.map (·.1)) hsum).trans h.walked
  · simp only [Desk.leave, Desk.turn, Cache.size, hsum, hpop]
    exact h.populations

/-- A walk that came to its end brings a report and a summary, its first. -/
theorem conclude (h : Sound a d) (hd : d.active = f :: S) (hf : f ∉ S)
    (hb : a.program.hasBody f = true) (o : Walk.Outcome) :
    Sound a ((d.leave f .walked).turn (a.conclude f o d.session).2) := by
  have htidy := h.tidy_cons hd
  have hnone := htidy.summary?_eq_none (h.unkept_top hd)
  have hc := (htidy.concluded_walked (h.unkept_top hd) a o).2
  obtain ⟨hsum, hpop⟩ := cache_conclude a o hnone
  refine ⟨?_, congrArg List.tail h.stack, h.legal, fun g => ?_, ?_, ?_, ?_⟩
  · rw [Desk.leave, Desk.turn, hd]
    exact htidy.concluded hf hb rfl hc
  · have hg := h.counted_concluded hd hc g
    simpa [Desk.leave, Desk.turn, hd] using hg
  · simp only [Desk.leave, Desk.turn, hsum, List.map_append, h.walked, Journal.walked,
      List.reverse_cons]
    rfl
  · refine List.nodup_cons.mpr ⟨fun hm => ?_, h.distinct⟩
    -- a walk before this one has left a summary
    rw [← List.mem_reverse, ← h.walked, List.mem_map] at hm
    obtain ⟨⟨g, sum⟩, hg, rfl⟩ := hm
    simpa using List.lookup_eq_none_iff.mp hnone _ hg
  · simp only [Desk.leave, Desk.turn, Cache.size, hsum, hpop, List.length_append]
    exact congrArg (· + 1) h.populations

end Sound

/-! ### Analyses -/

/-- What comes of a computation at a desk: the desk stays in order with the same stack and all its
reports, and if there is a result, no analysis has failed on the way. -/
structure Leaves {α : Type} (a : Analyzer) (d : Desk) (x : Except AnalysisFault α × Desk) : Prop where
  sound : Sound a x.2
  active : x.2.active = d.active
  grown : ∀ g r, d.session.cache.report? g = some r → x.2.session.cache.report? g = some r
  calm : ∀ y, x.1 = .ok y → ∀ g, x.2.journal.failures g = d.journal.failures g

namespace Leaves

variable {α β : Type}

/-- A session that goes on. -/
theorem turn (h : Sound a d) (hs : d.session.Still s) (x : Except AnalysisFault α) :
    Leaves a d (x, d.turn s) :=
  ⟨h.turn hs, rfl, fun g _ hg => (hs.report g).trans hg, fun _ _ _ => rfl⟩

/-- Nothing happens. -/
theorem refl (h : Sound a d) (x : Except AnalysisFault α) : Leaves a d (x, d) :=
  ⟨h, rfl, fun _ _ hg => hg, fun _ _ _ => rfl⟩

/-- One computation after another that had a result. -/
theorem trans {y : α} {x : Except AnalysisFault β × Desk} (h : Leaves a d (.ok y, d'))
    (h' : Leaves a d' x) : Leaves a d x where
  sound := h'.sound
  active := h'.active.trans h.active
  grown g r hg := h'.grown g r (h.grown g r hg)
  calm z hz g := (h'.calm z hz g).trans (h.calm y rfl g)

/-- The result may be read in another way. -/
theorem ok {y : α} (h : Leaves a d (.ok y, d')) (z : β) : Leaves a d (.ok z, d') :=
  ⟨h.sound, h.active, h.grown, fun _ _ => h.calm y rfl⟩

/-- Of a fault nothing is said but what is left. -/
theorem error {x : Except AnalysisFault α} (h : Leaves a d (x, d')) (fault : AnalysisFault) :
    Leaves a d ((.error fault : Except AnalysisFault β), d') :=
  ⟨h.sound, h.active, h.grown, fun _ he => by cases he⟩

/-- A fault takes the function from the stack. -/
theorem fail {x : Except AnalysisFault α} (h : Leaves a (d.enter f) (x, d')) (fault : AnalysisFault) :
    Leaves a d ((.error fault : Except AnalysisFault β), d'.leave f .failed) :=
  ⟨h.sound.fail h.active, congrArg List.tail h.active, h.grown, fun _ he => by cases he⟩

/-- What each answer leaves, a dialogue leaves. -/
theorem run {resolve : Resolver Desk}
    (hstep : ∀ c d', Leaves a d (.ok (), d') → Leaves a d (resolve c d')) (t : Dialogue α)
    (h : Leaves a d (.ok (), d')) : Leaves a d (t.run resolve d') := by
  induction t generalizing d' with
  | done y => exact h.ok y
  | fail fault => exact h.error fault
  | ask c k ih =>
      have hc := hstep c d' h
      rw [Dialogue.run]
      cases hr : resolve c d' with
      | mk x d'' =>
          rw [hr] at hc
          cases x with
          | ok e => exact ih e (hc.ok ())
          | error fault => exact hc.error fault

end Leaves

/-- The report that comes of a function is kept. -/
structure Reports (a : Analyzer) (d : Desk) (f : String) (x : Except AnalysisFault Report × Desk) :
    Prop extends Leaves a d x where
  kept : ∀ r, x.1 = .ok r → x.2.session.cache.report? f = some r

/-- A fault is no report. -/
theorem Reports.of_error {fault : AnalysisFault}
    (h : Leaves a d ((.error fault : Except AnalysisFault Report), d')) :
    Reports a d f (.error fault, d') :=
  ⟨h, fun _ he => by cases he⟩

/-- The analysis of `f` ends with a report. -/
theorem Reports.of_concluded {α : Type} {y : α} {d'' : Desk} {e : Ending}
    (h : Leaves a (d.enter f) (.ok y, d')) (hsound : Sound a d'')
    (hjournal : d''.journal = .left f e :: d'.journal) (hactive : d''.active = d'.active.tail)
    (he : e ≠ .failed) (hc : Concluded f r d'.session d''.session) : Reports a d f (.ok r, d'') := by
  have hu : d'.session.cache.report? f = none := h.sound.unkept_top h.active
  refine ⟨⟨hsound, hactive.trans (congrArg List.tail h.active), fun g q hg => ?_, fun _ _ g => ?_⟩,
    fun q hq => ?_⟩
  · have hg' := h.grown g q hg
    have hne : g ≠ f := by
      rintro rfl
      cases hu.symm.trans hg'
    rw [hc.report, if_neg hne, hg']
  · rw [hjournal, Journal.failures_left, if_neg fun hcond => he hcond.2]
    exact (h.calm y rfl g).trans Journal.failures_entered
  · obtain rfl := Except.ok.inj hq
    rw [hc.report, if_pos rfl]

/-- The function may be analysed at the desk, if it has no report: those on the stack are the ones it is
nested in, it is none of them, and the depth of calls is that of the stack and within its limit. -/
structure Ready (a : Analyzer) (n : Nesting) (f : String) (d : Desk) : Prop where
  sound : Sound a d
  active : n.active = d.active
  length : n.depth = d.active.length
  limit : n.depth ≤ max 0 a.config.maxCallDepth
  idle : f ∉ d.active

/-- What a computation leaves is as ready as before. -/
theorem Ready.leaves {α : Type} {x : Except AnalysisFault α × Desk} (h : Ready a n f d)
    (hx : Leaves a d x) : Ready a n f x.2 :=
  ⟨hx.sound, h.active.trans hx.active.symm, hx.active ▸ h.length, h.limit, hx.active ▸ h.idle⟩

/-- The desk inside the analysis of a function. -/
theorem Ready.enter (h : Ready a n f d) (hu : d.session.cache.report? f = none) :
    Sound a (d.enter f) ∧ (n.push f).active = (d.enter f).active ∧
      (n.push f).depth = (d.enter f).active.length :=
  ⟨h.sound.enter h.idle hu (h.length ▸ h.limit), congrArg (f :: ·) h.active,
    by simp [Desk.enter, Nesting.push, h.length]⟩

/-- Between requests every function is ready. -/
theorem ready_start (hd : Sound a d) (hidle : d.active = []) (f : String) : Ready a {} f d := by
  refine ⟨hd, hidle.symm, ?_, le_max_left _ _, ?_⟩
  · rw [hidle]
    rfl
  · rw [hidle]
    exact List.not_mem_nil

/-- Analyses leave a desk in order. -/
def Lawful (a : Analyzer) (A : Step Desk) : Prop :=
  ∀ ⦃n f d⦄, Ready a n f d → d.session.cache.report? f = none → Reports a d f (A n f d)

section Lawful

variable (h : Lawful a A)

include h

/-- The report of a function, be it kept or new. -/
theorem Lawful.reported (hd : Ready a n f d) : Reports a d f (reported A n f d) := by
  rw [Analyzer.reported]
  split
  case h_1 r hr => exact ⟨.refl hd.sound _, fun q hq => Except.ok.inj hq ▸ hr⟩
  case h_2 hu => exact h hd hu

/-- The head of a cycle, if it is to be analysed first, is ready as the function is. -/
theorem Lawful.fromHead (hd : Ready a n f d) (hu : d.session.cache.report? f = none) :
    Reports a d f (a.fromHead A n f d) := by
  rw [Analyzer.fromHead]
  split
  case isFalse => exact h hd hu
  case isTrue hc =>
    split
    case h_1 => exact h.reported hd
    case h_2 hhead =>
      generalize s!"{f} is recursive, entering its cycle at {a.head f}" = line
      have hnote := Leaves.turn hd.sound (still_note d.session line) (.ok ())
      have hready : Ready a n (a.head f) d := { hd with idle := hd.active ▸ hc.2 }
      have hA : Leaves a d (A n (a.head f) (note d line)) :=
        hnote.trans (h (hready.leaves hnote) hhead).toLeaves
      split
      case h_1 r d' hr =>
        rw [hr] at hA
        have hrep := h.reported (hd.leaves hA)
        exact ⟨hA.trans hrep.toLeaves, hrep.kept⟩
      case h_2 fault d' hr =>
        rw [hr] at hA
        exact .of_error (hA.error fault)

variable (hd : Sound a d) (hactive : n.active = d.active) (hdepth : n.depth = d.active.length)

include hd hactive hdepth

/-- A function that is not on the stack is analysed only within the limit of depth. -/
theorem Lawful.summaryUnless (kept : Option Summary) (f : String) :
    Leaves a d (a.summaryUnless kept A n f d) := by
  unfold Analyzer.summaryUnless
  split
  case h_1 => exact .refl hd _
  case h_2 => exact .refl hd _
  case h_3 body _ _ =>
    split
    case isTrue => exact .turn hd (still_note _ _) _
    case isFalse hf =>
      split
      case isTrue => exact .turn hd (still_note _ _) _
      case isFalse hlimit =>
        split
        case h_1 => exact .refl hd _
        case h_2 hu =>
          have hA := (h.fromHead ⟨hd, hactive, hdepth, by omega, hactive ▸ hf⟩ hu).toLeaves
          split
          case h_1 r d' hr =>
            rw [hr] at hA
            exact hA.ok _
          case h_2 fault d' hr =>
            rw [hr] at hA
            exact hA.error fault

/-- The question itself is only counted. -/
theorem Lawful.summary (f : String) : Leaves a d (a.summaryWith A n f d) := by
  have hasked := Leaves.turn hd (still_asked d.session f) (.ok ())
  rw [summaryWith_asked]
  exact hasked.trans (h.summaryUnless hasked.sound hactive hdepth _ f)

/-- A question of the walk is one for a summary, or the library answers. -/
theorem Lawful.resolver (f c : String) : Leaves a d (a.resolver A n f c d) := by
  rw [Analyzer.resolver]
  split
  case h_1 => split <;> exact .refl hd _
  case h_2 body _ =>
    have hsum := h.summary hd hactive hdepth body.name
    split
    case h_1 sum d' hs =>
      rw [hs] at hsum
      exact hsum.ok _
    case h_2 d' hs =>
      rw [hs] at hsum
      exact hsum.trans (.turn hsum.sound (still_note _ _) _)
    case h_3 fault d' hs =>
      rw [hs] at hsum
      exact hsum.error fault

/-- By the questions of the walk, one after the other. -/
theorem Lawful.walk (f : String) (gr : FunctionGraph) :
    Leaves a d (Walk.run gr a.config (a.resolver A n f) d) := by
  rw [Walk.run_eq]
  refine Leaves.run (fun c d' hd' => ?_) _ (.refl hd _)
  have hstack : n.active = d'.active := hactive.trans hd'.active.symm
  exact hd'.trans (h.resolver hd'.sound hstack (hd'.active ▸ hdepth) f c)

end Lawful

/-- **Analyses leave a desk in order.** -/
theorem analyze_lawful (a : Analyzer) (fuel : Nat) : Lawful a (a.analyze fuel) := by
  induction fuel with
  | zero =>
      intro n f d hd hu
      exact .of_error ((Leaves.refl (hd.enter hu).1 (.ok ())).fail _)
  | succ fuel ih =>
      intro n f d hd hu
      obtain ⟨henter, hactive, hdepth⟩ := hd.enter hu
      rw [analyze]
      split
      case h_1 => exact .of_error ((Leaves.refl henter (.ok ())).fail _)
      case h_2 body hb =>
        have hbody : a.program.hasBody f = true := Program.hasBody_iff.mpr ⟨body, hb⟩
        split
        case h_1 cause _ =>
          generalize s!"skipping {f}: {cause.message}" = line
          have hnote := Leaves.turn henter (still_note d.session line) (.ok ())
          have hsound : Sound a ((d.enter f).turn (d.session.note line)) := hnote.sound
          obtain ⟨hfst, hc⟩ := hsound.concluded_refused (hsound.unkept_top rfl) cause.message
          have hrefused : (keep (.refused f cause.message)
            ((SessionStore.session (SessionStore.enter d f)).note line)).1 = _ := hfst
          dsimp only
          rw [hrefused]
          exact .of_concluded hnote (hsound.refuse rfl hd.idle hbody cause.message) rfl rfl
            (by decide) hc
        case h_2 gr _ =>
          have hwalk : Leaves a (d.enter f) (Walk.run gr a.config
              (a.resolver (a.analyze fuel) (n.push f) f) (SessionStore.enter d f)) :=
            ih.walk henter hactive hdepth f gr
          dsimp only
          split
          case h_1 fault d' hr =>
            rw [hr] at hwalk
            exact .of_error (hwalk.fail fault)
          case h_2 o d' hr =>
            rw [hr] at hwalk
            obtain ⟨hfst, hc⟩ := hwalk.sound.concluded_walked (hwalk.sound.unkept_top hwalk.active) a o
            have hwalked : (a.conclude f o (SessionStore.session d')).1 = _ := hfst
            rw [hwalked]
            exact .of_concluded hwalk (hwalk.sound.conclude hwalk.active hd.idle hbody o) rfl rfl
              (by decide) hc

/-- A request has a report or a fault, and leaves the desk in order. -/
theorem function_reports (a : Analyzer) (f : String) (hd : Sound a d) (hidle : d.active = []) :
    Reports a d f (a.function f d) := by
  rw [function]
  split
  case h_1 r hr => exact ⟨.refl hd _, fun q hq => Except.ok.inj hq ▸ hr⟩
  case h_2 hu =>
    split
    case isFalse => exact .of_error (.refl hd _)
    case isTrue => exact (analyze_lawful a a.fuel).fromHead (ready_start hd hidle f) hu

/-- Between requests a desk is in order, and nothing is on its stack. -/
theorem sound_deskAfter (a : Analyzer) (requests : List String) :
    Sound a (a.deskAfter requests) ∧ (a.deskAfter requests).active = [] := by
  refine List.foldlRecOn (motive := fun d => Sound a d ∧ d.active = []) requests _
    ⟨sound_empty a, rfl⟩ ?_
  rintro d ⟨hd, hidle⟩ f -
  have hreports := function_reports a f hd hidle
  exact ⟨hreports.sound, hreports.active.trans hidle⟩

/-- All requests are answered, one after the other. -/
def answered (a : Analyzer) : List String → Session → Bool
  | [], _ => true
  | f :: requests, s => (a.function f s).1.isOk && a.answered requests (a.function f s).2

/-- Where all requests are answered, no analysis fails. -/
theorem failures_foldl (a : Analyzer) (requests : List String) (hd : Sound a d)
    (hidle : d.active = []) (hok : a.answered requests d.session = true) (g : String) :
    (requests.foldl (fun d f => (a.function f d).2) d).journal.failures g =
      d.journal.failures g := by
  induction requests generalizing d with
  | nil => rfl
  | cons f requests ih =>
      have hmatch : Matches (a.function f d) (a.function f d.session) := function_matches a f d
      have hleaves := function_reports a f hd hidle
      rw [answered, Bool.and_eq_true, ← hmatch.result, ← hmatch.session] at hok
      rw [List.foldl_cons, ih hleaves.sound (hleaves.active.trans hidle) hok.2]
      cases hr : (a.function f d).1 with
      | error fault =>
          rw [hr] at hok
          cases hok.1
      | ok r => exact hleaves.calm r hr g

/-- **Functions are analysed once.**  After any requests, answered or not, at a desk that has the
results and the session of the analyses: a function was entered only while it was not on the stack,
and again only if all its earlier analyses had ended in a fault; in all once for each fault, and once
for its report if it has one, so at most once if all requests were answered.  The stack has never been
deeper than the limit of calls and one, and is empty.  The summaries kept are as many as were added,
one for each function whose walk came to its end, and each is that of the report. -/
theorem walked_once (p : Program) (cfg : Config) (requests : List String) :
    let a := Analyzer.new p cfg
    let d := a.deskAfter requests
    (d.session = a.after requests ∧
      ∀ f, (a.function f d).1 = (a.function f (a.after requests)).1) ∧
    (∀ f j, Event.entered f :: j <:+ d.journal →
      f ∉ Journal.stack j ∧ Journal.entries j f = Journal.failures j f) ∧
    (∀ f, d.journal.entries f =
      d.journal.failures f + if (d.session.cache.report? f).isSome then 1 else 0) ∧
    (a.answered requests {} = true → ∀ f, d.journal.entries f ≤ 1) ∧
    (∀ j, j <:+ d.journal → ((Journal.stack j).length : Int) ≤ max 0 cfg.maxCallDepth + 1) ∧
    d.active = [] ∧ d.journal.stack = [] ∧
    d.session.cache.populations = d.session.cache.size ∧
    d.session.cache.summaries.map (·.1) = d.journal.walked.reverse ∧ d.journal.walked.Nodup ∧
    ∀ f sum, d.session.cache.summary? f = some sum ↔
      ∃ r, d.session.cache.report? f = some r ∧ r.summary = some sum := by
  intro a d
  obtain ⟨hd, hidle⟩ : Sound a d ∧ d.active = [] := sound_deskAfter a requests
  have hsession : d.session = a.after requests := session_deskAfter a requests
  have hentries : ∀ f, d.journal.entries f =
      d.journal.failures f + if (d.session.cache.report? f).isSome then 1 else 0 := by
    intro f
    rw [hd.counted f, show d.active = [] from hidle]
    cases d.session.cache.report? f <;> rfl
  refine ⟨⟨hsession, fun f => ?_⟩, fun f j hj => ?_, hentries, fun hok f => ?_, fun j hj => ?_, hidle,
    hd.stack.trans hidle, hd.populations, hd.walked, hd.distinct, fun f sum => ?_⟩
  · rw [← hsession]
    exact (function_matches a f d).result
  · obtain ⟨⟨hout, -, hfaults⟩, -⟩ := hd.legal.of_suffix hj
    exact ⟨hout, hfaults⟩
  · have hcalm : d.journal.failures f = 0 := failures_foldl a requests (sound_empty a) rfl hok f
    rw [hentries, hcalm]
    split <;> decide
  · exact (hd.legal.of_suffix hj).length_stack_le (le_max_left _ _)
  · rw [hd.coherent, Option.bind_eq_some_iff]

/-- A crate of two functions that call each other. -/
def rally : Program where
  crate := "rally"
  sourceFiles := []
  adts := []
  decls := .empty
  library := []
  bodies := [handOver "ping" "pong", handOver "pong" "ping"]

/-- Each is entered once, inside the other or by a request. -/
theorem rally_walked_once :
    (Analyzer.new rally {}).answered ["pong", "ping", "pong"] {} = true ∧
      ((Analyzer.new rally {}).deskAfter ["pong", "ping", "pong"]).journal =
        [.left "ping" .walked, .left "pong" .walked, .entered "pong", .entered "ping"] ∧
      ∀ f, ((Analyzer.new rally {}).deskAfter ["pong", "ping", "pong"]).journal.entries f ≤ 1 := by
  have hok : (Analyzer.new rally {}).answered ["pong", "ping", "pong"] {} = true := by decide +kernel
  obtain ⟨-, -, -, honce, -⟩ := walked_once rally {} ["pong", "ping", "pong"]
  exact ⟨hok, by decide +kernel, honce hok⟩

/-- A crate with a function that releases its argument twice and has no text for its name. -/
def nameless : Program where
  crate := "nameless"
  sourceFiles := []
  adts := []
  decls := .empty
  library := [("release", { drops := [0], manual := true })]
  bodies :=
    [{ handOver "twice" "release" with
       locals := [{ ty := Ty.unit }, { ty := .container .vec "Vec" [Ty.int32], name := some (.other "5") },
         { ty := Ty.unit }] }]

/-- A function whose analysis ends in a fault is entered by every request. -/
theorem nameless_entered_twice :
    ((Analyzer.new nameless {}).deskAfter ["twice", "twice"]).journal =
      [.left "twice" .failed, .entered "twice", .left "twice" .failed, .entered "twice"] := by
  decide +kernel

end Analyzer

end Dangling
