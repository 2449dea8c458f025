import Dangling.Proofs.Analysis.CallCycles
import Dangling.Proofs.Walk.Questions
import Mathlib.Data.Fintype.Card
import Mathlib.Data.Fintype.EquivFin
import Mathlib.Data.Fintype.Sets

/-!
# Proofs — Analysis — WalkedCalls

The calls that walks come by.  The call graph has all calls of a function, also those in blocks that
no path of its walk enters; call cycles and their heads are made of all calls, but analyses follow
walked calls only.

* `Program.Led`: walked calls lead to a function from the head of its call cycle.
* `Program.entry`: the head of the cycle for functions that are led to, and each other function by
  itself.
* `Program.WellHeaded`: functions on a cycle of walked calls are led to.
* `Program.below_induction`: induction along what the analysis of an entry asks for.
-/

namespace Dangling.Program

open Relation (ReflTransGen)

variable {p : Program} {cfg : Config} {f g k : String}

/-- The functions of the program that the walk of a function asks for. -/
def walkedCalls (p : Program) (cfg : Config) (f : String) : List String :=
  match p.body? f with
  | none => []
  | some b =>
    match FunctionGraph.ofBody p.decls b with
    | .error _ => []
    | .ok g => (Walk.asked g cfg).filterMap fun c => (p.resolve c).map (·.name)

/-- The walk of `f` asks for `g`. -/
def Walks (p : Program) (cfg : Config) (f g : String) : Prop := g ∈ p.walkedCalls cfg f

/-- Walked calls lead from `f` to `g`. -/
abbrev Leads (p : Program) (cfg : Config) : String → String → Prop := ReflTransGen (p.Walks cfg)

/-- The calls that a walk asks about, as far as they are functions of the program. -/
theorem walkedCalls_of_ofBody {b : Body} {gr : FunctionGraph} (hb : p.body? f = some b)
    (hg : FunctionGraph.ofBody p.decls b = .ok gr) :
    p.walkedCalls cfg f = (Walk.asked gr cfg).filterMap fun c => (p.resolve c).map (·.name) := by
  simp only [walkedCalls, hb, hg]

theorem walks_of_mem_asked {b b' : Body} {gr : FunctionGraph} {c : String} (hb : p.body? f = some b)
    (hg : FunctionGraph.ofBody p.decls b = .ok gr) (hc : c ∈ Walk.asked gr cfg)
    (hr : p.resolve c = some b') : p.Walks cfg f b'.name := by
  rw [Walks, walkedCalls_of_ofBody hb hg]
  exact List.mem_filterMap.mpr ⟨c, hc, by rw [hr]; rfl⟩

/-- A call that is walked to is in the body. -/
theorem Walks.calls (h : p.Walks cfg f g) : p.Calls f g := by
  rw [Walks, walkedCalls] at h
  split at h
  · exact absurd h List.not_mem_nil
  case h_2 b hb =>
    split at h
    · exact absurd h List.not_mem_nil
    case h_2 gr hg =>
      obtain ⟨c, hc, hname⟩ := List.mem_filterMap.mp h
      obtain ⟨b', hr, rfl⟩ := Option.map_eq_some_iff.mp hname
      have hcallee := (FunctionGraph.built_of_ofBody hg).mem_callees (Walk.calls_of_mem_asked hc)
      exact ⟨b, hb, mem_callsOf.mpr ⟨c, hcallee, b', hr, rfl⟩⟩

/-- A way of walked calls is a way of calls. -/
theorem Leads.reaches (h : p.Leads cfg f g) : p.Reaches f g :=
  h.lift id fun _ _ hw => hw.calls

/-! ### Entries -/

/-- The head of a cycle is its own head. -/
theorem head_head (p : Program) (f : String) : p.head (p.head f) = p.head f :=
  head_eq_of_linked (p.linked_head f).symm

/-- Walked calls lead to the function from the head of its call cycle. -/
def Led (p : Program) (cfg : Config) (f : String) : Prop := p.Leads cfg (p.head f) f

/-- It leads to itself. -/
theorem led_head (p : Program) (cfg : Config) (f : String) : p.Led cfg (p.head f) := by
  rw [Led, head_head]

theorem led_of_head_eq (h : p.head f = f) : p.Led cfg f := h ▸ p.led_head cfg f

/-- What is led to leads on within its cycle. -/
theorem Led.leads (h : p.Led cfg f) (hl : p.Leads cfg f g) (hlink : p.Linked f g) : p.Led cfg g := by
  rw [Led, ← head_eq_of_linked hlink]
  exact h.trans hl

open Classical in
/-- Where the analysis of a function starts. -/
@[irreducible] noncomputable def entry (p : Program) (cfg : Config) (f : String) : String :=
  if p.Led cfg f then p.head f else f

/-- A function that its head leads to is entered there. -/
theorem entry_of_led (h : p.Led cfg f) : p.entry cfg f = p.head f := by
  rw [entry, if_pos h]

/-- Any other is entered by itself. -/
theorem entry_of_not_led (h : ¬ p.Led cfg f) : p.entry cfg f = f := by
  rw [entry, if_neg h]

theorem entry_head (p : Program) (cfg : Config) (f : String) : p.entry cfg (p.head f) = p.head f := by
  rw [entry_of_led (p.led_head cfg f), head_head]

/-- Where a function is entered, that is where it is entered. -/
theorem entry_entry (p : Program) (cfg : Config) (f : String) :
    p.entry cfg (p.entry cfg f) = p.entry cfg f := by
  by_cases h : p.Led cfg f
  · rw [entry_of_led h, entry_head]
  · rw [entry_of_not_led h, entry_of_not_led h]

/-- The entry of a function lies in its cycle. -/
theorem linked_entry (p : Program) (cfg : Config) (f : String) : p.Linked f (p.entry cfg f) := by
  by_cases h : p.Led cfg f
  · rw [entry_of_led h]
    exact p.linked_head f
  · rw [entry_of_not_led h]
    exact ⟨.refl, .refl⟩

/-- A function with another entry than itself is led to, and its entry is its head. -/
theorem led_of_entry_ne (h : p.entry cfg f ≠ f) : p.Led cfg f :=
  Classical.byContradiction fun hn => h (entry_of_not_led hn)

/-- A function that is not led to is the only one with itself as entry. -/
theorem eq_of_entry_eq (hf : ¬ p.Led cfg f) (h : p.entry cfg g = f) : g = f := by
  by_cases hg : p.Led cfg g
  · rw [entry_of_led hg] at h
    exact absurd (h ▸ p.led_head cfg g) hf
  · rwa [entry_of_not_led hg] at h

/-- Every function on a cycle of walked calls is led to from the head of its call cycle. -/
def WellHeaded (p : Program) (cfg : Config) : Prop :=
  ∀ f g, f ≠ g → p.Leads cfg f g → p.Leads cfg g f → p.Led cfg f

/-! ### What comes before -/

/-- `g` comes before `f`: it is on a cycle further down, or on the same cycle and `f` is not led to
but `g` is, or walked calls lead to it and not back. -/
def Below (p : Program) (cfg : Config) (g f : String) : Prop :=
  p.Reaches f g ∧ ¬ p.Reaches g f ∨
    p.Linked g f ∧ ¬ p.Led cfg f ∧ (p.Led cfg g ∨ p.Leads cfg f g ∧ ¬ p.Leads cfg g f)

theorem Below.irrefl : ¬ p.Below cfg f f := by
  rintro (⟨h, hn⟩ | ⟨-, hn, h | ⟨h, hn'⟩⟩)
  · exact hn h
  · exact hn h
  · exact hn' h

/-- A way down after a way down. -/
theorem Below.trans (h : p.Below cfg f g) (h' : p.Below cfg g k) : p.Below cfg f k := by
  rcases h with ⟨hgf, hfg⟩ | ⟨hl, hg, hc⟩
  · rcases h' with ⟨hkg, -⟩ | ⟨hl', -, -⟩
    · exact .inl ⟨hkg.trans hgf, fun h => hfg (h.trans hkg)⟩
    · exact .inl ⟨hl'.2.trans hgf, fun h => hfg (h.trans hl'.2)⟩
  · rcases h' with ⟨hkg, hgk⟩ | ⟨hl', hk, hc'⟩
    · exact .inl ⟨hkg.trans hl.2, fun h => hgk (hl.2.trans h)⟩
    · refine .inr ⟨hl.trans hl', hk, hc.imp_right fun ⟨hgf, hfg⟩ => ?_⟩
      rcases hc' with hled | ⟨hkg, -⟩
      · exact absurd hled hg
      · exact ⟨hkg.trans hgf, fun h => hfg (h.trans hkg)⟩

/-- **Induction along what comes before.**  The functions are finitely many. -/
theorem below_induction (cfg : Config) {motive : String → Prop}
    (h : ∀ f, p.hasBody f = true → (∀ g, p.hasBody g = true → p.Below cfg g f → motive g) → motive f)
    (hf : p.hasBody f = true) : motive f := by
  let before (g f : { f // f ∈ p.functionNames }) : Prop := p.Below cfg g.1 f.1
  have : IsTrans _ before := ⟨fun _ _ _ h h' => Below.trans h h'⟩
  have : Std.Irrefl before := ⟨fun _ h => Below.irrefl h⟩
  have hwf : WellFounded before := Finite.wellFounded_of_trans_of_irrefl before
  refine hwf.induction (C := fun f => motive f.1) ⟨f, mem_functionNames.mpr hf⟩ fun f ih => ?_
  exact h f.1 (mem_functionNames.mp f.2) fun g hg hb => ih ⟨g, mem_functionNames.mpr hg⟩ hb

end Dangling.Program
