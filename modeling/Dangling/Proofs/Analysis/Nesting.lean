import Dangling.Analysis.Session
import Dangling.Proofs.Analysis.CallCycles
import Dangling.Proofs.Summary.Cache

/-!
# Proofs — Analysis — Nesting

Analyses inside analyses.  Each function that is being analysed is another function of the program,
so their number is bounded, and `fuel` is always enough (`Nesting.Fits`): with enough fuel, how much
there is makes no difference (`analyze_eq_of_fits`).

* `Nesting.Fits.push`: one more function may be analysed.
* `report?_conclude`, `summary?_conclude`: what is kept of a walk.
-/

namespace Dangling.Analyzer

/-- The functions being analysed are different functions of the program, and the fuel is enough for
all the others. -/
structure Nesting.Fits (p : Program) (n : Nesting) (fuel : Nat) : Prop where
  nodup : n.active.Nodup
  bodies : ∀ f ∈ n.active, p.hasBody f = true
  enough : p.bodies.length < fuel + n.active.length

variable {p : Program} {n : Nesting} {fuel : Nat} {f : String}

/-- Different functions of a program are no more than it has. -/
theorem length_le_of_bodies {fs : List String} (hn : fs.Nodup)
    (hb : ∀ f ∈ fs, p.hasBody f = true) : fs.length ≤ p.bodies.length := by
  have hsub : fs ⊆ p.functionNames := fun f hf => Program.mem_functionNames.mpr (hb f hf)
  have hle := hn.length_le_of_subset hsub
  rwa [p.functionNames_perm.length_eq, List.length_map] at hle

/-- At the start the fuel is enough. -/
theorem Nesting.fits_start (p : Program) : Nesting.Fits p {} (p.bodies.length + 1) :=
  ⟨.nil, fun _ h => (nomatch h), Nat.lt_succ_self _⟩

/-- A function of the program that is not being analysed finds fuel left. -/
theorem Nesting.Fits.push (h : Nesting.Fits p n fuel) (hf : p.hasBody f = true)
    (hn : f ∉ n.active) : ∃ k, fuel = k + 1 ∧ Nesting.Fits p (n.push f) k := by
  have hnodup : (f :: n.active).Nodup := List.nodup_cons.mpr ⟨hn, h.nodup⟩
  have hbodies : ∀ g ∈ f :: n.active, p.hasBody g = true := fun g hg => by
    rcases List.mem_cons.mp hg with rfl | hg
    · exact hf
    · exact h.bodies g hg
  have hle := length_le_of_bodies hnodup hbodies
  have henough := h.enough
  rw [List.length_cons] at hle
  cases fuel with
  | zero => omega
  | succ k =>
      refine ⟨k, rfl, hnodup, hbodies, ?_⟩
      rw [Nesting.push, List.length_cons]
      omega

/-! ### Steps -/

/-- The session after a summary was asked for: only the counts change. -/
def asked (s : Session) (f : String) : Session := { s with cache := (s.cache.lookup f).2 }

@[simp] theorem summary?_asked (s : Session) (f g : String) :
    (asked s f).cache.summary? g = s.cache.summary? g :=
  Cache.summary?_lookup _ _ _

@[simp] theorem report?_asked (s : Session) (f g : String) :
    (asked s f).cache.report? g = s.cache.report? g :=
  Cache.report?_lookup _ _ _

/-- The heads are those of the program. -/
theorem head_new (p : Program) (cfg : Config) (f : String) :
    (Analyzer.new p cfg).head f = p.head f := by
  rw [head, Program.head, new]

variable {a : Analyzer} {A A' : Step Session} {s : Session}

open SessionStore in
/-- A question for a summary is counted, and the one that is kept is the answer. -/
theorem summaryWith_asked {σ : Type} [SessionStore σ] {A : Step σ} {s : σ} :
    a.summaryWith A n f s = a.summaryUnless ((session s).cache.summary? f) A n f
      (turn s (asked (session s) f)) := by
  rw [asked, ← Cache.lookup_fst]
  rfl

/-! What the steps are in a session, which holds itself. -/

@[simp] theorem session_self (s : Session) : SessionStore.session s = s := rfl

@[simp] theorem turn_self (s s' : Session) : SessionStore.turn s s' = s' := rfl

@[simp] theorem note_self (s : Session) (line : String) : note s line = s.note line := rfl

/-- A report that is kept is the answer. -/
theorem reported_eq : reported A n f s =
    match s.cache.report? f with
    | some r => (.ok r, s)
    | none => A n f s := by
  cases hr : s.cache.report? f <;> rw [reported, session_self, hr]

/-- The head of a cycle is analysed first, unless it is being analysed or has a report. -/
theorem fromHead_eq : a.fromHead A n f s =
    if a.head f ≠ f ∧ a.head f ∉ n.active then
      match s.cache.report? (a.head f) with
      | some _ => reported A n f s
      | none =>
        match A n (a.head f) (s.note s!"{f} is recursive, entering its cycle at {a.head f}") with
        | (.ok _, s) => reported A n f s
        | (.error fault, s) => (.error fault, s)
    else A n f s := by
  rw [fromHead, session_self, note_self]
  generalize s.note s!"{f} is recursive, entering its cycle at {a.head f}" = t
  cases s.cache.report? (a.head f) with
  | some r => rfl
  | none =>
      cases A n (a.head f) t with
      | mk x t => cases x <;> rfl

/-- A kept summary is the answer; otherwise the function is analysed, if it may be. -/
theorem summaryWith_eq : a.summaryWith A n f s =
    match s.cache.summary? f, a.program.body? f with
    | some summary, _ => (.ok (some summary), asked s f)
    | none, none => (.ok none, asked s f)
    | none, some body =>
      if f ∈ n.active then
        (.ok (some (.unknown f body.argCount)),
          (asked s f).note s!"recursive call to {f}, assuming no effect")
      else if a.config.maxCallDepth < n.depth then
        (.ok none, (asked s f).note s!"call depth limit reached at {f}")
      else
        match s.cache.report? f with
        | some r => (.ok r.summary, asked s f)
        | none =>
          match a.fromHead A n f (asked s f) with
          | (.ok r, s) => (.ok r.summary, s)
          | (.error fault, s) => (.error fault, s) := by
  rw [summaryWith_asked, session_self, turn_self, ← report?_asked s f f]
  generalize asked s f = t
  cases s.cache.summary? f with
  | some sum => rfl
  | none =>
  cases hb : a.program.body? f with
  | none => simp only [summaryUnless, hb]
  | some body =>
  cases hr : t.cache.report? f with
  | some r => simp only [summaryUnless, hb, session_self, note_self, hr]
  | none =>
      cases hx : a.fromHead A n f t with
      | mk x u => cases x <;> simp only [summaryUnless, hb, session_self, note_self, hr, hx]

theorem reported_congr (h : ∀ s, A n f s = A' n f s) : reported A n f s = reported A' n f s := by
  rw [reported, reported, h]

/-- Only functions that are not being analysed are analysed. -/
theorem fromHead_congr (h : ∀ g, g ∉ n.active → ∀ s, A n g s = A' n g s) (hf : f ∉ n.active) :
    a.fromHead A n f s = a.fromHead A' n f s := by
  rw [fromHead_eq, fromHead_eq]
  split
  case isTrue hc => simp only [h _ hc.2, reported_congr (h f hf)]
  case isFalse => exact h f hf s

/-- The same for a summary. -/
theorem summaryWith_congr (h : ∀ g, g ∉ n.active → ∀ s, A n g s = A' n g s) :
    a.summaryWith A n f s = a.summaryWith A' n f s := by
  rw [summaryWith_eq, summaryWith_eq]
  by_cases hf : f ∈ n.active
  · simp only [if_pos hf]
  · simp only [fromHead_congr h hf]

/-- The same for a question of a walk. -/
theorem resolver_congr (h : ∀ g, g ∉ n.active → ∀ s, A n g s = A' n g s) :
    a.resolver A n f = a.resolver A' n f := by
  funext callee s
  rw [resolver, resolver]
  split
  · rfl
  · rw [summaryWith_congr h]

/-- **Fuel is no limit.**  With enough of it, how much there is makes no difference. -/
theorem analyze_eq_of_fits (a : Analyzer) (fuel : Nat) :
    ∀ {n : Nesting} {f : String} {k : Nat} {s : Session}, f ∉ n.active →
      Nesting.Fits a.program n fuel → Nesting.Fits a.program n k →
      a.analyze fuel n f s = a.analyze k n f s := by
  induction fuel with
  | zero =>
      intro n f k s hf h hk
      cases hb : a.program.body? f with
      | none =>
          cases k with
          | zero => rfl
          | succ k => rw [analyze, analyze, hb]
      | some b =>
          obtain ⟨_, hz, -⟩ := h.push (Program.hasBody_iff.mpr ⟨b, hb⟩) hf
          exact absurd hz.symm (Nat.succ_ne_zero _)
  | succ fuel ih =>
      intro n f k s hf h hk
      cases hb : a.program.body? f with
      | none =>
          cases k with
          | zero => rw [analyze, analyze, hb]
          | succ k => rw [analyze, analyze, hb]
      | some b =>
          obtain ⟨j, hj, hin⟩ := h.push (Program.hasBody_iff.mpr ⟨b, hb⟩) hf
          obtain rfl := Nat.succ.inj hj
          obtain ⟨k, rfl, hin'⟩ := hk.push (Program.hasBody_iff.mpr ⟨b, hb⟩) hf
          have hres : a.resolver (a.analyze fuel) (n.push f) f = a.resolver (a.analyze k) (n.push f) f :=
            resolver_congr fun g hg s => ih hg hin hin'
          rw [analyze, analyze, hb]
          dsimp only
          split
          · rfl
          · rw [hres]

/-! ### What is kept -/

/-- The first report of a function is the one that counts. -/
theorem keep_fst (r : Report) (s : Session) : (keep r s).1 = (s.cache.report? r.function).getD r :=
  Cache.store_fst _ _

/-- One report is added, unless there is one. -/
theorem report?_keep (r : Report) (s : Session) (g : String) : (keep r s).2.cache.report? g =
    if g = r.function then some ((s.cache.report? r.function).getD r) else s.cache.report? g :=
  Cache.report?_store _ _ _

/-- Reports are kept apart from summaries. -/
theorem summary?_keep (r : Report) (s : Session) (g : String) :
    (keep r s).2.cache.summary? g = s.cache.summary? g :=
  Cache.summary?_store _ _ _

/-- What a walk brings is reported, unless there is a report. -/
theorem conclude_fst (a : Analyzer) (f : String) (o : Walk.Outcome) (s : Session) :
    (a.conclude f o s).1 = (s.cache.report? f).getD (reportOf f o) := by
  rw [conclude, keep_fst]
  split <;> exact congrArg (Option.getD · _) (Cache.report?_insert _ _ _ _)

/-- After a walk its function has a report. -/
theorem report?_conclude (a : Analyzer) (f : String) (o : Walk.Outcome) (s : Session) (g : String) :
    (a.conclude f o s).2.cache.report? g =
      if g = f then some ((s.cache.report? f).getD (reportOf f o)) else s.cache.report? g := by
  have hname : (reportOf f o).function = f := rfl
  rw [conclude, report?_keep, hname]
  cases o.complete <;> simp [Session.note, Cache.report?_insert]

/-- And a summary. -/
theorem summary?_conclude (a : Analyzer) (f : String) (o : Walk.Outcome) (s : Session)
    (g : String) : (a.conclude f o s).2.cache.summary? g =
      if g = f then some ((s.cache.summary? f).getD o.summary) else s.cache.summary? g := by
  rw [conclude, summary?_keep]
  split <;> exact Cache.summary?_insert _ _ _ _

/-- The analysis of a function of the program, with fuel left. -/
theorem analyze_succ {b : Body} (hb : a.program.body? f = some b) :
    a.analyze (fuel + 1) n f s =
      match FunctionGraph.ofBody a.program.decls b with
      | .error cause =>
        (.ok (keep (.refused f cause.message) (s.note s!"skipping {f}: {cause.message}")).1,
          (keep (.refused f cause.message) (s.note s!"skipping {f}: {cause.message}")).2)
      | .ok g =>
        match Walk.run g a.config (a.resolver (a.analyze fuel) (n.push f) f) s with
        | (.error fault, s) => (.error fault, s)
        | (.ok o, s) => (.ok (a.conclude f o s).1, (a.conclude f o s).2) := by
  rw [analyze, hb]
  dsimp only
  cases FunctionGraph.ofBody a.program.decls b with
  | error cause => rfl
  | ok g =>
      dsimp only
      rw [show SessionStore.enter s f = s from rfl]
      cases Walk.run g a.config (a.resolver (a.analyze fuel) (n.push f) f) s with
      | mk x t => cases x <;> rfl

end Dangling.Analyzer
