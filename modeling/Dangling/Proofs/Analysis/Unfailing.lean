import Dangling.Proofs.Analysis.Intervention
import Dangling.Proofs.Walk.Unfailing

/-!
# Proofs — Analysis — Unfailing

Analyses that come to a report.  In a regular program, names are texts and models number arguments
from the first on, so that no walk has a reason of its own to fail (`Walk.run_unfailing`); and since
there is always fuel left for a function that is not being analysed yet, neither have the analyses
that a walk asks for.

* `Program.Regular`: the programs that this is said of.
* `analyze_answering`: every function that is not being analysed gets a report.
* `resolver_answers`: the resolver of an analysis answers every question.
* `function_answering`: so every function of the program gets a report, in any session.
* `accepted_walk_stays_in_bounds`: the walk of an accepted function stays inside its graph.
-/

namespace Dangling

/-- Locals are named by texts, if at all, and models number arguments from the first on. -/
structure Program.Regular (p : Program) : Prop where
  legible : ∀ b ∈ p.bodies, ∀ d ∈ b.locals, d.Legible
  placed : ∀ x ∈ p.library, x.2.Placed

theorem Library.mem_of_lookup {lib : Library} {callee : String} {m : Model}
    (h : lib.lookup callee = some m) : ∃ path, (path, m) ∈ lib := by
  obtain ⟨path, -, hm⟩ := List.exists_of_findSome?_eq_some h
  obtain ⟨before, after, hlib, -⟩ := List.lookup_eq_some_iff.mp hm
  exact ⟨path, hlib ▸ List.mem_append_right before List.mem_cons_self⟩

/-- The labels of an accepted function's nodes are texts, if the names of its locals are. -/
theorem FunctionGraph.labels_of_ofBody {ds : Declarations} {b : Body} {g : FunctionGraph}
    (hg : ofBody ds b = .ok g) (hnames : ∀ d ∈ b.locals, d.Legible) (id : NodeId) :
    ∃ s, (g.nodes.node id).label = .text s := by
  rw [(built_of_ofBody hg).nodes_eq]
  exact NodeTable.label_ofLocals ds hnames id

namespace Analyzer

variable {p : Program} {n : Nesting} {fuel : Nat} {f : String} {A : Step Session}

/-! ### Steps -/

/-- Every function of the program that is not being analysed gets a report. -/
def Answering (p : Program) (n : Nesting) (A : Step Session) : Prop :=
  ∀ f s, p.hasBody f = true → f ∉ n.active → ∃ r, (A n f s).1 = .ok r

theorem Answering.reported (h : Answering p n A) : Answering p n (reported A) := by
  intro f s hb hn
  rw [Analyzer.reported_eq]
  split
  case h_1 r _ => exact ⟨r, rfl⟩
  case h_2 => exact h f s hb hn

theorem Answering.fromHead (h : Answering p n A) (cfg : Config) :
    Answering p n ((Analyzer.new p cfg).fromHead A) := by
  intro f s hb hn
  rw [fromHead_eq, head_new]
  split
  case isFalse => exact h f s hb hn
  case isTrue hc =>
    split
    case h_1 => exact h.reported f s hb hn
    case h_2 =>
      -- the head is a function of the program, and by the test not being analysed
      have hhead : p.hasBody (p.head f) = true := Program.Reaches.hasBody (p.linked_head f).1 hb
      obtain ⟨r, hr⟩ := h (p.head f)
        (s.note s!"{f} is recursive, entering its cycle at {p.head f}") hhead hc.2
      split
      case h_1 => exact h.reported f _ hb hn
      case h_2 e s' hA =>
        rw [hA] at hr
        cases hr

theorem Answering.summaryWith (h : Answering p n A) (cfg : Config) (f : String) (s : Session) :
    ∃ found, ((Analyzer.new p cfg).summaryWith A n f s).1 = .ok found := by
  rw [summaryWith_eq]
  split
  case h_1 sum _ => exact ⟨some sum, rfl⟩
  case h_2 => exact ⟨none, rfl⟩
  case h_3 body _ hb =>
    split
    · exact ⟨_, rfl⟩
    case isFalse hn =>
      split
      · exact ⟨none, rfl⟩
      split
      case h_1 r _ => exact ⟨r.summary, rfl⟩
      case h_2 =>
        obtain ⟨r, hr⟩ := h.fromHead cfg f (asked s f) (Program.hasBody_iff.mpr ⟨body, hb⟩) hn
        split
        case h_1 => exact ⟨_, rfl⟩
        case h_2 e s' he =>
          rw [he] at hr
          cases hr

/-- A resolver answers, if the analyses it starts do. -/
theorem Answering.resolver (h : Answering p n A) (hp : p.Regular) (cfg : Config)
    (function : String) : ((Analyzer.new p cfg).resolver A n function).Answers := by
  intro callee s
  rw [Analyzer.resolver]
  split
  case h_1 =>
    split
    case h_1 m hm =>
      obtain ⟨path, hmem⟩ := Library.mem_of_lookup hm
      exact ⟨.modelled m, rfl, hp.placed (path, m) hmem⟩
    case h_2 => exact ⟨.unknown, rfl, trivial⟩
  case h_2 body _ =>
    obtain ⟨found, hfound⟩ := h.summaryWith cfg body.name s
    split
    case h_1 sum _ _ => exact ⟨.summarised sum, rfl, trivial⟩
    case h_2 => exact ⟨.unknown, rfl, trivial⟩
    case h_3 e s' he =>
      rw [he] at hfound
      cases hfound

/-- **Every function that is not being analysed gets a report.** -/
theorem analyze_answering (hp : p.Regular) (cfg : Config) (fuel : Nat) :
    ∀ n, Nesting.Fits p n fuel → Answering p n ((Analyzer.new p cfg).analyze fuel) := by
  induction fuel with
  | zero =>
      -- there is fuel left for a function that is not being analysed
      intro n hfits f s hb hn
      obtain ⟨k, hk, -⟩ := hfits.push hb hn
      exact absurd hk.symm (Nat.succ_ne_zero k)
  | succ fuel ih =>
      intro n hfits f s hb hn
      obtain ⟨k, hk, hin⟩ := hfits.push hb hn
      obtain rfl := Nat.succ.inj hk
      obtain ⟨b, hbody⟩ := Program.hasBody_iff.mp hb
      rw [analyze_succ (a := Analyzer.new p cfg) hbody]
      split
      case h_1 => exact ⟨_, rfl⟩
      case h_2 g hg =>
        have hlabels :=
          FunctionGraph.labels_of_ofBody hg (hp.legible b (List.mem_of_find?_eq_some hbody))
        obtain ⟨o, ho⟩ := Walk.run_unfailing hlabels ((ih (n.push f) hin).resolver hp cfg f) cfg s
        split
        case h_1 e s' he =>
          rw [show (Analyzer.new p cfg).config = cfg from rfl] at he
          rw [he] at ho
          cases ho
        case h_2 => exact ⟨_, rfl⟩

/-- The resolver of an analysis answers every question, however deep the analysis is. -/
theorem resolver_answers (hp : p.Regular) (cfg : Config) (hfits : Nesting.Fits p n fuel)
    (function : String) :
    ((Analyzer.new p cfg).resolver ((Analyzer.new p cfg).analyze fuel) n function :
      Resolver Session).Answers :=
  (analyze_answering hp cfg fuel n hfits).resolver hp cfg function

/-- Every function of a regular program gets a report, whatever was asked before. -/
theorem function_answering (hp : p.Regular) (cfg : Config) (hb : p.hasBody f = true) (s : Session) :
    ∃ r, ((Analyzer.new p cfg).function f s).1 = .ok r := by
  rw [function]
  split
  case h_1 r _ => exact ⟨r, rfl⟩
  case h_2 =>
    split
    case isFalse hn => exact absurd hb hn
    case isTrue =>
      have hall := analyze_answering hp cfg _ {} (Nesting.fits_start p)
      exact hall.fromHead cfg f s hb List.not_mem_nil

/-! ### Accepted functions -/

/-- **The walk of an accepted function stays inside its graph**, whatever the limits are and whatever
is known of callees.  The guarded walk, which stops at every access to a place, a node, a block or a
father that is not there, never stops; every visit is of a block of the graph, and goes on to blocks
that this block names; every node in a state, an alarm or a finding is in the table.  If names are
texts and the resolver answers, the walk has an outcome; and the resolver of an analysis answers, at
every nesting, if the program is regular. -/
theorem accepted_walk_stays_in_bounds {ds : Declarations} {b : Body} {g : FunctionGraph}
    (hg : FunctionGraph.ofBody ds b = .ok g) (hnames : ∀ d ∈ b.locals, d.Legible) (cfg : Config) :
    (∀ {σ : Type} (resolve : Resolver σ) (s : σ),
      Guarded.run g cfg resolve s = .ok (Walk.run g cfg resolve s) ∧
        (∀ leg : Walk.Leg, leg.OnRun g cfg resolve s → leg.InBounds g) ∧
        (∀ o, (Walk.run g cfg resolve s).1 = .ok o → ∀ f ∈ o.findings, f.InBounds g.nodes) ∧
        (resolve.Answers → ∃ o, (Walk.run g cfg resolve s).1 = .ok o)) ∧
      ∀ p : Program, p.Regular → ∀ n fuel, Nesting.Fits p n fuel → ∀ function,
        ((Analyzer.new p cfg).resolver ((Analyzer.new p cfg).analyze fuel) n function :
          Resolver Session).Answers := by
  have hsealed := FunctionGraph.sealed_of_ofBody hg
  refine ⟨fun resolve s => ?_, fun p hp n fuel hfits => resolver_answers hp cfg hfits⟩
  have hgives := Guarded.gives_run hsealed cfg resolve s
  refine ⟨hgives.ok, fun leg hleg => Walk.Leg.OnRun.inBounds hsealed hleg, hgives.holds, ?_⟩
  exact fun hresolve => Walk.run_unfailing (FunctionGraph.labels_of_ofBody hg hnames) hresolve cfg s

theorem legible_handOver (name callee : String) :
    ∀ d ∈ (handOver name callee).locals, d.Legible := by
  intro d hd text hname
  simp only [handOver, List.mem_cons, List.not_mem_nil, or_false] at hd
  rcases hd with rfl | rfl | rfl <;> cases hname

/-- A function outside the zoo that hands its argument to a function inside. -/
def keeper : Body := handOver "keeper" "wild"

/-- Its graph. -/
def keeperGraph : FunctionGraph := (FunctionGraph.ofBody .empty keeper).toOption.get rfl

/-- The walk of `keeper` has `wild` analysed, and finds that the argument is released twice. -/
theorem keeper_stays_in_bounds :
    FunctionGraph.ofBody .empty keeper = .ok keeperGraph ∧ (∀ d ∈ keeper.locals, d.Legible) ∧
      zoo.Regular ∧
      Nesting.Fits zoo { depth := 1 } (Analyzer.new zoo {}).fuel ∧
      Guarded.run keeperGraph {} ((Analyzer.new zoo {}).outerResolver "keeper") {} =
        .ok (Walk.run keeperGraph {} ((Analyzer.new zoo {}).outerResolver "keeper") {}) ∧
      ∃ o, (Walk.run keeperGraph {} ((Analyzer.new zoo {}).outerResolver "keeper") {}).1 = .ok o ∧
        o.findings.length = 1 ∧ ∀ f ∈ o.findings, f.InBounds keeperGraph.nodes := by
  have hg : FunctionGraph.ofBody .empty keeper = .ok keeperGraph := rfl
  have hregular : zoo.Regular := by
    refine ⟨fun b hb => ?_, by decide +kernel⟩
    simp only [zoo, List.mem_cons, List.not_mem_nil, or_false] at hb
    rcases hb with rfl | rfl | rfl <;> exact legible_handOver _ _
  have hfits : Nesting.Fits zoo { depth := 1 } (Analyzer.new zoo {}).fuel :=
    ⟨.nil, fun f hf => absurd hf List.not_mem_nil, Nat.lt_succ_self _⟩
  have hnames : ∀ d ∈ keeper.locals, d.Legible := legible_handOver _ _
  obtain ⟨hwalk, hanswers⟩ := accepted_walk_stays_in_bounds hg hnames {}
  obtain ⟨hguarded, -, hfindings, houtcome⟩ :=
    hwalk ((Analyzer.new zoo {}).outerResolver "keeper") {}
  obtain ⟨o, ho⟩ := houtcome (hanswers zoo hregular _ _ hfits "keeper")
  have hone : (Walk.run keeperGraph {} ((Analyzer.new zoo {}).outerResolver "keeper") {}).1.toOption.map
      (·.findings.length) = some 1 := by decide +kernel
  rw [ho] at hone
  exact ⟨hg, hnames, hregular, hfits, hguarded, o, ho, Option.some.inj hone, hfindings o ho⟩

end Analyzer

end Dangling
