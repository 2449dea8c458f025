import Dangling.Proofs.Analysis.Intervention
import Dangling.Proofs.Analysis.Stack

/-!
# Proofs — Analysis — Recursion

The analysis without its memory.  A session keeps reports, a stack of the functions that are being
analysed and a depth of calls; a function on no call cycle, and from which none can be reached, could
do without them.  Its report is then given by recursion over its calls (`Program.plainReport`): it is
refused, or walked with the summaries of the reports on the functions it calls.

* `Program.Grounded`: no call cycle can be reached from a function.
* `grounded_induction`: induction along the calls of such functions.
* `plainReport_eq`: the recursive equation.
* `run_answers_congr`: a walk depends on what comes of the functions it asks for, and on nothing else.
-/

namespace Dangling

/-! ### Recursion over calls -/

namespace Program

open Relation (ReflTransGen TransGen)

variable {p : Program} {cfg : Config} {f g : String} {b : Body}

/-- What is known of callees, given what comes of the functions of the program: of a function its
summary, and nothing if it has none. -/
def answers (p : Program) (report : String → Except AnalysisFault Report) : Resolver Unit :=
  fun callee u =>
    match p.resolve callee with
    | none =>
      match p.library.lookup callee with
      | some m => (.ok (.modelled m), u)
      | none => (.ok .unknown, u)
    | some body =>
      match report body.name with
      | .ok r => (.ok ((r.summary.map .summarised).getD .unknown), u)
      | .error fault => (.error fault, u)

/-- The report on a function by recursion over its calls, `depth` calls deep. -/
def reportWithin (p : Program) (cfg : Config) : (depth : Nat) → String → Except AnalysisFault Report
  | 0, f => .error (.unknownFunction f)
  | depth + 1, f =>
    match p.body? f with
    | none => .error (.unknownFunction f)
    | some b =>
      match FunctionGraph.ofBody p.decls b with
      | .error cause => .ok (.refused f cause.message)
      | .ok g =>
        (Walk.run g cfg (p.answers (p.reportWithin cfg depth)) ()).1.map (Analyzer.reportOf f)

/-- The report on a function by recursion over its calls.  No chain of calls between different
functions is longer than the program. -/
def plainReport (p : Program) (cfg : Config) (f : String) : Except AnalysisFault Report :=
  p.reportWithin cfg (p.bodies.length + 1) f

/-- No call cycle can be reached from the function. -/
def Grounded (p : Program) (f : String) : Prop := ∀ g, p.Reaches f g → ¬ TransGen p.Calls g g

theorem Grounded.calls (h : p.Grounded f) (hc : p.Calls f g) : p.Grounded g :=
  fun k hk => h k (.head hc hk)

/-- A callee does not lead back. -/
theorem Grounded.not_reaches (h : p.Grounded f) (hc : p.Calls f g) : ¬ p.Reaches g f :=
  fun hr => h f .refl (.head' hc hr)

theorem Grounded.head_eq (h : p.Grounded f) : p.head f = f := by
  obtain ⟨hto, hback⟩ := p.linked_head f
  rcases hto.cases_head with e | ⟨k, hc, hk⟩
  · exact e.symm
  · exact absurd (hk.trans hback) (h.not_reaches hc)

/-- Calls that go down in rank make no cycle. -/
theorem acyclic_of_rank (rank : String → Nat)
    (h : ∀ b ∈ p.bodies, ∀ g ∈ p.callsOf b, rank g < rank b.name) (f : String) :
    ¬ TransGen p.Calls f f := by
  have hdown : ∀ f g, p.Calls f g → rank g < rank f := by
    rintro f g ⟨b, hb, hg⟩
    rw [← name_of_body? hb]
    exact h b (List.mem_of_find?_eq_some hb) g hg
  intro hcycle
  have hlt : TransGen (fun m n : Nat => n < m) (rank f) (rank f) := hcycle.lift rank hdown
  rw [Relation.transGen_eq_self] at hlt
  exact lt_irrefl _ hlt

/-- The walk of a function asks for functions that it calls. -/
theorem calls_of_mem_asked {b' : Body} {gr : FunctionGraph} {c : String} (hb : p.body? f = some b)
    (hg : FunctionGraph.ofBody p.decls b = .ok gr) (hc : c ∈ Walk.asked gr cfg)
    (hr : p.resolve c = some b') : p.Calls f b'.name :=
  (walks_of_mem_asked hb hg hc hr).calls

section Answers

variable {D D' : String → Except AnalysisFault Report} {c : String}

/-- A function of the program answers with its summary. -/
theorem answers_of_body (h : p.resolve c = some b) : (p.answers D c ()).1 =
    ((D b.name).map (·.summary)).map fun sum => (sum.map .summarised).getD .unknown := by
  simp only [answers, h]
  cases D b.name <;> rfl

/-- Answers differ only where reports do. -/
theorem answers_congr (h : ∀ b, p.resolve c = some b → D b.name = D' b.name) :
    p.answers D c () = p.answers D' c () := by
  simp only [answers]
  split
  · rfl
  case h_2 b hb => rw [h b hb]

/-- The walk of a function depends on what comes of the functions it asks for only. -/
theorem run_answers_congr {gr : FunctionGraph}
    (h : ∀ c ∈ Walk.asked gr cfg, ∀ b, p.resolve c = some b → D b.name = D' b.name) :
    (Walk.run gr cfg (p.answers D) ()).1 = (Walk.run gr cfg (p.answers D') ()).1 := by
  rw [Walk.run_eq, Walk.run_eq]
  refine ((Walk.dialogue_follows gr cfg).run_agree (R := fun _ _ => True) ?_ trivial).1
  intro c hc _ _ _
  exact ⟨congrArg (·.1) (answers_congr (h c hc)), trivial⟩

end Answers

end Program

namespace Analyzer

open Relation (TransGen)

variable {p : Program} {cfg : Config} {f g : String} {b : Body} {n : Nesting} {fuel : Nat}
  {s s' t u : Session} {r : Report} {S : List String}

/-! ### Chains of calls -/

/-- A function of the program that all functions on the stack lead to, and that is not one of them. -/
structure Nesting.Below (p : Program) (n : Nesting) (f : String) : Prop where
  body : p.hasBody f = true
  idle : f ∉ n.active
  led : ∀ g ∈ n.active, p.Reaches g f

theorem Nesting.below_start (hf : p.hasBody f = true) : ({} : Nesting).Below p f :=
  ⟨hf, List.not_mem_nil, fun _ hg => absurd hg List.not_mem_nil⟩

/-- What a function calls is led to by the function and by all that lead to it. -/
theorem Nesting.Below.leads_on (h : n.Below p f) (hc : p.Calls f g) :
    ∀ k ∈ (n.push f).active, p.Reaches k g := by
  intro k hk
  rcases List.mem_cons.mp hk with rfl | hk
  · exact .single hc
  · exact (h.led k hk).tail hc

/-- No function that a grounded function calls is being analysed. -/
theorem Nesting.Below.push (h : n.Below p f) (hf : p.Grounded f) (hc : p.Calls f g) :
    (n.push f).Below p g := by
  refine ⟨hc.hasBody_right, fun hm => ?_, h.leads_on hc⟩
  rcases List.mem_cons.mp hm with rfl | hm
  · exact hf.not_reaches hc .refl
  · exact hf.not_reaches hc (h.led g hm)

/-- Induction along calls: what holds of a grounded function if it holds of all that it calls holds of
every grounded function. -/
theorem grounded_induction {P : String → Prop}
    (hstep : ∀ f, p.Grounded f → (∀ g, p.Calls f g → P g) → P f) (hf : p.Grounded f) : P f := by
  -- a chain of calls has no function twice, so it has no more than there are
  have hchain : ∀ fuel {n : Nesting} {f : String}, p.Grounded f → n.Below p f → n.Fits p fuel → P f := by
    intro fuel
    induction fuel with
    | zero =>
        intro n f hf hbelow hfits
        obtain ⟨_, hz, -⟩ := hfits.push hbelow.body hbelow.idle
        exact absurd hz.symm (Nat.succ_ne_zero _)
    | succ fuel ih =>
        intro n f hf hbelow hfits
        obtain ⟨k, hk, hin⟩ := hfits.push hbelow.body hbelow.idle
        obtain rfl := Nat.succ.inj hk
        exact hstep f hf fun g hc => ih (hf.calls hc) (hbelow.push hf hc) hin
  refine hstep f hf fun g hc => ?_
  exact hchain _ (hf.calls hc) (Nesting.below_start hc.hasBody_right) (Nesting.fits_start p)

/-- How deep calls are followed makes no difference where it is enough for all chains of calls. -/
theorem reportWithin_eq_of_fits (p : Program) (cfg : Config) (fuel : Nat) :
    ∀ {n : Nesting} {f : String} {k : Nat}, p.Grounded f → n.Below p f → n.Fits p fuel → n.Fits p k →
      p.reportWithin cfg fuel f = p.reportWithin cfg k f := by
  induction fuel with
  | zero =>
      intro n f k hf hbelow h hk
      obtain ⟨_, hz, -⟩ := h.push hbelow.body hbelow.idle
      exact absurd hz.symm (Nat.succ_ne_zero _)
  | succ fuel ih =>
      intro n f k hf hbelow h hk
      obtain ⟨b, hb⟩ := Program.hasBody_iff.mp hbelow.body
      obtain ⟨j, hj, hin⟩ := h.push hbelow.body hbelow.idle
      obtain rfl := Nat.succ.inj hj
      obtain ⟨k, rfl, hin'⟩ := hk.push hbelow.body hbelow.idle
      simp only [Program.reportWithin, hb]
      split
      · rfl
      case h_2 gr hg =>
        rw [Program.run_answers_congr fun c hc b' hr => ?_]
        have hcall := Program.calls_of_mem_asked hb hg hc hr
        exact ih (hf.calls hcall) (hbelow.push hf hcall) hin hin'

/-- **The recursive equation.** -/
theorem plainReport_eq (cfg : Config) (hf : p.Grounded f) (hb : p.body? f = some b) :
    p.plainReport cfg f =
      match FunctionGraph.ofBody p.decls b with
      | .error cause => .ok (.refused f cause.message)
      | .ok g => (Walk.run g cfg (p.answers (p.plainReport cfg)) ()).1.map (reportOf f) := by
  have hbody : p.hasBody f = true := Program.hasBody_iff.mpr ⟨b, hb⟩
  have hstart := Nesting.fits_start p
  obtain ⟨k, hk, hin⟩ := hstart.push hbody List.not_mem_nil
  obtain rfl := Nat.succ.inj hk
  have hout : (({} : Nesting).push f).Fits p (p.bodies.length + 1) := by
    refine ⟨hin.nodup, hin.bodies, ?_⟩
    have := hin.enough
    omega
  simp only [Program.plainReport, Program.reportWithin, hb]
  split
  · rfl
  case h_2 gr hg =>
    rw [Program.run_answers_congr fun c hc b' hr => ?_]
    have hcall := Program.calls_of_mem_asked hb hg hc hr
    exact reportWithin_eq_of_fits p cfg _ (hf.calls hcall)
      ((Nesting.below_start hbody).push hf hcall) hin hout

end Analyzer

end Dangling
