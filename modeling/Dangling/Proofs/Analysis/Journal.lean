import Dangling.Proofs.Analysis.Intervention
import Dangling.Proofs.Analysis.Stack

/-!
# Proofs — Analysis — Journal

Analyses with a stack and a journal.  In a session the functions that are being analysed are handed
down as an argument (`Nesting`), so nothing is said of how they come and go.  A desk (`Desk`) holds a
session too, puts a function on a stack when it is entered, takes it away when it is left, be it by a
fault, and writes both down.  What holds the session makes no difference to the analysis
(`analyze_faithful`), so what the journal tells is told of the analyses.

* `Journal.stack`: the functions that were entered and not left yet.
* `Faithful`: what an analysis with any store has in common with one in a session.
* `analyze_faithful`: all of it.
-/

namespace Dangling

/-- An analysis begins or ends. -/
inductive Event where
  | entered (function : String)
  | left (function : String) (ending : Ending)
  deriving DecidableEq, Repr

/-- What happened, the last first. -/
abbrev Journal := List Event

namespace Journal

/-- The functions that were entered and not left, the last first. -/
def stack : Journal → List String
  | [] => []
  | .entered f :: j => f :: stack j
  | .left _ _ :: j => (stack j).tail

/-- How often a function was entered. -/
def entries (j : Journal) (f : String) : Nat := j.count (.entered f)

/-- How often its analysis ended in a fault. -/
def failures (j : Journal) (f : String) : Nat := j.count (.left f .failed)

/-- The functions whose walk came to its end, the last first. -/
def walked : Journal → List String
  | [] => []
  | .left f .walked :: j => f :: walked j
  | _ :: j => walked j

end Journal

/-- A session with the functions that are being analysed, the last entered first, and a journal. -/
structure Desk where
  session : Session := {}
  active : List String := []
  journal : Journal := []

namespace Desk

/-- A function is entered: it comes on top of the stack. -/
def enter (d : Desk) (f : String) : Desk :=
  { d with active := f :: d.active, journal := .entered f :: d.journal }

/-- The function on top of the stack is left. -/
def leave (d : Desk) (f : String) (ending : Ending) : Desk :=
  { d with active := d.active.tail, journal := .left f ending :: d.journal }

/-- The session goes on, the rest stays. -/
def turn (d : Desk) (s : Session) : Desk := { d with session := s }

instance : SessionStore Desk where
  session := Desk.session
  turn := Desk.turn
  enter := Desk.enter
  leave := Desk.leave

end Desk

/-- The session changes only when it goes on. -/
class LawfulSessionStore (σ : Type) [SessionStore σ] : Prop where
  session_turn (d : σ) (s : Session) : SessionStore.session (SessionStore.turn d s) = s
  session_enter (d : σ) (f : String) :
    SessionStore.session (SessionStore.enter d f) = SessionStore.session d
  session_leave (d : σ) (f : String) (e : Ending) :
    SessionStore.session (SessionStore.leave d f e) = SessionStore.session d

instance : LawfulSessionStore Desk := ⟨fun _ _ => rfl, fun _ _ => rfl, fun _ _ _ => rfl⟩

namespace Analyzer

/-- The desk after some requests, whether they were answered or not. -/
def deskAfter (a : Analyzer) (requests : List String) : Desk :=
  requests.foldl (fun d f => (a.function f d).2) {}

/-! ### The same analyses -/

open SessionStore LawfulSessionStore

variable {σ : Type} [SessionStore σ] {a : Analyzer} {A : Step σ} {B : Step Session} {n : Nesting}
  {f c : String} {d : σ}

/-- The same result, with the same session. -/
structure Matches {α : Type} (x : Except AnalysisFault α × σ) (y : Except AnalysisFault α × Session) :
    Prop where
  result : x.1 = y.1
  session : session x.2 = y.2

/-- Analyses bring what they bring in the session alone. -/
def Faithful (A : Step σ) (B : Step Session) : Prop :=
  ∀ n f d, Matches (A n f d) (B n f (session d))

/-- What was analysed already is not analysed again. -/
theorem Faithful.reported (h : Faithful A B) (n : Nesting) (f : String) (d : σ) :
    Matches (reported A n f d) (reported B n f (session d)) := by
  rw [Analyzer.reported, reported_eq]
  cases (session d).cache.report? f with
  | some r => exact ⟨rfl, rfl⟩
  | none => exact h n f d

variable [LawfulSessionStore σ]

@[simp] theorem session_note (d : σ) (line : String) : session (note d line) = (session d).note line :=
  session_turn _ _

/-- A cycle is entered at its head. -/
theorem Faithful.fromHead (h : Faithful A B) (n : Nesting) (f : String) (d : σ) :
    Matches (a.fromHead A n f d) (a.fromHead B n f (session d)) := by
  rw [Analyzer.fromHead, fromHead_eq]
  by_cases hc : a.head f ≠ f ∧ a.head f ∉ n.active
  · rw [if_pos hc, if_pos hc]
    cases (session d).cache.report? (a.head f) with
    | some r => exact h.reported n f d
    | none =>
        dsimp only
        generalize s!"{f} is recursive, entering its cycle at {a.head f}" = line
        have hhead := h n (a.head f) (note d line)
        rw [session_note] at hhead
        generalize A n (a.head f) (note d line) = x at hhead
        generalize B n (a.head f) ((session d).note line) = y at hhead
        obtain ⟨x, d'⟩ := x
        obtain ⟨y, s⟩ := y
        obtain ⟨rfl, rfl⟩ := hhead
        cases x with
        | error fault => exact ⟨rfl, rfl⟩
        | ok r => exact h.reported n f d'
  · rw [if_neg hc, if_neg hc]
    exact h n f d

/-- The summary of a callee for which none may be kept. -/
theorem Faithful.summaryUnless (h : Faithful A B) (kept : Option Summary) (n : Nesting) (f : String)
    (d : σ) : Matches (a.summaryUnless kept A n f d) (a.summaryUnless kept B n f (session d)) := by
  unfold Analyzer.summaryUnless
  cases kept with
  | some sum => exact ⟨rfl, rfl⟩
  | none =>
  cases a.program.body? f with
  | none => exact ⟨rfl, rfl⟩
  | some body =>
      dsimp only
      by_cases hm : f ∈ n.active
      · rw [if_pos hm, if_pos hm]
        exact ⟨rfl, session_note _ _⟩
      rw [if_neg hm, if_neg hm]
      by_cases hlimit : a.config.maxCallDepth < n.depth
      · rw [if_pos hlimit, if_pos hlimit]
        exact ⟨rfl, session_note _ _⟩
      rw [if_neg hlimit, if_neg hlimit, session_self]
      cases (session d).cache.report? f with
      | some r => exact ⟨rfl, rfl⟩
      | none =>
          dsimp only
          have hhead := h.fromHead (a := a) n f d
          generalize a.fromHead A n f d = x at hhead
          generalize a.fromHead B n f (session d) = y at hhead
          obtain ⟨x, d'⟩ := x
          obtain ⟨y, s⟩ := y
          obtain ⟨rfl, rfl⟩ := hhead
          cases x <;> exact ⟨rfl, rfl⟩

/-- The summary of a callee. -/
theorem Faithful.summary (h : Faithful A B) (n : Nesting) (f : String) (d : σ) :
    Matches (a.summaryWith A n f d) (a.summaryWith B n f (session d)) := by
  have hunless := h.summaryUnless (a := a) ((session d).cache.summary? f) n f
    (turn d (asked (session d) f))
  rw [session_turn] at hunless
  rwa [summaryWith_asked, summaryWith_asked, session_self, turn_self]

/-- What is known of a callee. -/
theorem Faithful.resolver (h : Faithful A B) (n : Nesting) (f c : String) (d : σ) :
    Matches (a.resolver A n f c d) (a.resolver B n f c (session d)) := by
  rw [Analyzer.resolver, Analyzer.resolver]
  cases a.program.resolve c with
  | none => cases a.program.library.lookup c <;> exact ⟨rfl, rfl⟩
  | some body =>
      dsimp only
      have hsum := h.summary (a := a) n body.name d
      generalize a.summaryWith A n body.name d = x at hsum
      generalize a.summaryWith B n body.name (session d) = y at hsum
      obtain ⟨x, d'⟩ := x
      obtain ⟨y, s⟩ := y
      obtain ⟨rfl, rfl⟩ := hsum
      cases x with
      | error fault => exact ⟨rfl, rfl⟩
      | ok found =>
          cases found with
          | none => exact ⟨rfl, session_note _ _⟩
          | some sum => exact ⟨rfl, rfl⟩

/-- A walk asks for callees and does nothing else with the session. -/
theorem Faithful.walk (h : Faithful A B) (n : Nesting) (f : String) (gr : FunctionGraph) (d : σ) :
    Matches (Walk.run gr a.config (a.resolver A n f) d)
      (Walk.run gr a.config (a.resolver B n f) (session d)) := by
  have hstep : ∀ c ∈ Walk.asked gr a.config, ∀ (d' : σ) (s : Session), session d' = s →
      (a.resolver A n f c d').1 = (a.resolver B n f c s).1 ∧
        session (a.resolver A n f c d').2 = (a.resolver B n f c s).2 := by
    rintro c - d' _ rfl
    have hc := h.resolver (a := a) n f c d'
    exact ⟨hc.result, hc.session⟩
  rw [Walk.run_eq, Walk.run_eq]
  obtain ⟨hresult, hsession⟩ :=
    (Walk.dialogue_follows gr a.config).run_agree hstep (s := d) rfl
  exact ⟨hresult, hsession⟩

/-- **What holds the session makes no difference.** -/
theorem analyze_faithful (a : Analyzer) (fuel : Nat) :
    Faithful (a.analyze fuel : Step σ) (a.analyze fuel) := by
  induction fuel with
  | zero => exact fun n f d => ⟨rfl, (session_leave _ _ _).trans (session_enter _ _)⟩
  | succ fuel ih =>
      intro n f d
      cases hb : a.program.body? f with
      | none =>
          rw [analyze, analyze, hb]
          exact ⟨rfl, (session_leave _ _ _).trans (session_enter _ _)⟩
      | some body =>
          rw [analyze, analyze_succ hb, hb]
          dsimp only
          rw [session_enter]
          cases FunctionGraph.ofBody a.program.decls body with
          | error cause => exact ⟨rfl, (session_leave _ _ _).trans (session_turn _ _)⟩
          | ok gr =>
            dsimp only
            have hwalk := ih.walk (a := a) (n.push f) f gr (enter d f)
            rw [session_enter] at hwalk
            generalize Walk.run gr a.config (a.resolver (a.analyze fuel) (n.push f) f)
              (enter d f) = x at hwalk
            generalize Walk.run gr a.config (a.resolver (a.analyze fuel) (n.push f) f)
              (session d) = y at hwalk
            obtain ⟨x, d'⟩ := x
            obtain ⟨y, s⟩ := y
            obtain ⟨rfl, rfl⟩ := hwalk
            cases x with
            | error fault => exact ⟨rfl, session_leave _ _ _⟩
            | ok o => exact ⟨rfl, session_turn _ _⟩

/-- A request has the same answer. -/
theorem function_matches (a : Analyzer) (f : String) (d : σ) :
    Matches (a.function f d) (a.function f (session d)) := by
  rw [function, function, session_self]
  cases (session d).cache.report? f with
  | some r => exact ⟨rfl, rfl⟩
  | none =>
      by_cases hb : a.program.hasBody f = true
      · simp only [if_pos hb]
        exact (analyze_faithful a a.fuel).fromHead {} f d
      · simp only [if_neg hb]
        exact ⟨rfl, rfl⟩

theorem session_deskAfter (a : Analyzer) (requests : List String) :
    (a.deskAfter requests).session = a.after requests := by
  rw [deskAfter, after]
  refine List.foldl_rel (r := fun (d : Desk) s => d.session = s) rfl ?_
  rintro f - d _ rfl
  exact (function_matches a f d).session

end Analyzer

end Dangling
