import Dangling.Analysis.CallCycles
import Dangling.Summary.Cache
import Dangling.Walk.Run

/-!
# Analysis — Session

The analysis of a program, function by function on request.  A call to a function of the program
has that function analysed first, and its summary is kept for all later calls.  A call back into a
function that is still being analysed has no effect.  Functions that call each other are entered at
the head of their cycle, so that what is found does not depend on which is asked for first.

* `Analyzer.function`: the report of a function.
* `Analyzer.functions`: the reports of several.
* `Analyzer.summary`: the summary of a callee at a depth.
-/

namespace Dangling

/-- What an analysis keeps from one request to the next. -/
structure Session where
  cache : Cache := {}
  /-- What was noted, the last line first. -/
  notes : List String := []
  deriving Repr, Inhabited

namespace Session

/-- Notes a line. -/
def note (s : Session) (line : String) : Session :=
  { s with notes := ("[SafeDrop] " ++ line) :: s.notes }

/-- The lines noted, in order. -/
def log (s : Session) : List String := s.notes.reverse

end Session

/-- How the analysis of a function ends: its body is not supported, its walk comes to an end, or there
is a fault. -/
inductive Ending where
  | refused
  | walked
  | failed
  deriving DecidableEq, Repr

/-- What holds the session of an analysis.  It is told which functions are entered and left. -/
class SessionStore (σ : Type) where
  session : σ → Session
  /-- The session goes on. -/
  turn : σ → Session → σ
  enter : σ → String → σ
  leave : σ → String → Ending → σ

/-- A session holds itself, and no more. -/
instance : SessionStore Session where
  session s := s
  turn _ s := s
  enter s _ := s
  leave s _ _ := s

/-- A program under analysis. -/
structure Analyzer where
  program : Program
  config : Config
  /-- The heads of the call cycles. -/
  heads : List (String × String)

namespace Analyzer

/-- The analysis of a program. -/
def new (program : Program) (config : Config) : Analyzer :=
  { program, config, heads := program.cycleHeads }

/-- The functions that are being analysed and their number of calls below the request. -/
structure Nesting where
  active : List String := []
  depth : Int := 0
  deriving Repr, Inhabited

/-- The nesting inside the analysis of a function. -/
def Nesting.push (n : Nesting) (name : String) : Nesting := ⟨name :: n.active, n.depth + 1⟩

/-- The analysis of a function at a point of nesting. -/
abbrev Step (σ : Type) := Nesting → String → σ → Except AnalysisFault Report × σ

/-- The head of a function's call cycle. -/
def head (a : Analyzer) (name : String) : String := (a.heads.lookup name).getD name

open SessionStore

variable {σ : Type} [SessionStore σ]

/-- Notes a line in the session. -/
def note (s : σ) (line : String) : σ := turn s ((session s).note line)

/-- The report of a function, which is analysed if there is none. -/
def reported (analyze : Step σ) : Step σ := fun n name s =>
  match (session s).cache.report? name with
  | some r => (.ok r, s)
  | none => analyze n name s

/-- Analyses a function, first of all the head of its call cycle. -/
def fromHead (a : Analyzer) (analyze : Step σ) : Step σ := fun n name s =>
  if a.head name ≠ name ∧ a.head name ∉ n.active then
    match (session s).cache.report? (a.head name) with
    | some _ => reported analyze n name s
    | none =>
      match analyze n (a.head name)
        (note s s!"{name} is recursive, entering its cycle at {a.head name}") with
      | (.ok _, s) => reported analyze n name s
      | (.error fault, s) => (.error fault, s)
  else analyze n name s

/-- The summary of a callee, if none is `kept`; none at the limit of depth and for what cannot be
analysed. -/
def summaryUnless (a : Analyzer) (kept : Option Summary) (analyze : Step σ) (n : Nesting)
    (name : String) (s : σ) : Except AnalysisFault (Option Summary) × σ :=
  match kept, a.program.body? name with
  | some summary, _ => (.ok (some summary), s)
  | none, none => (.ok none, s)
  | none, some body =>
    if name ∈ n.active then
      (.ok (some (.unknown name body.argCount)),
        note s s!"recursive call to {name}, assuming no effect")
    else if a.config.maxCallDepth < n.depth then
      (.ok none, note s s!"call depth limit reached at {name}")
    else
      match (session s).cache.report? name with
      | some r => (.ok r.summary, s)
      | none =>
        match a.fromHead analyze n name s with
        | (.ok r, s) => (.ok r.summary, s)
        | (.error fault, s) => (.error fault, s)

/-- The summary of a callee. -/
def summaryWith (a : Analyzer) (analyze : Step σ) (n : Nesting) (name : String) (s : σ) :
    Except AnalysisFault (Option Summary) × σ :=
  let (kept, cache) := (session s).cache.lookup name
  a.summaryUnless kept analyze n name (turn s { session s with cache })

/-- What is known of a callee of `function`. -/
def resolver (a : Analyzer) (analyze : Step σ) (n : Nesting) (function : String) : Resolver σ :=
  fun callee s =>
    match a.program.resolve callee with
    | none =>
      match a.program.library.lookup callee with
      | some m => (.ok (.modelled m), s)
      | none => (.ok .unknown, s)
    | some body =>
      match a.summaryWith analyze n body.name s with
      | (.ok (some summary), s) => (.ok (.summarised summary), s)
      | (.ok none, s) =>
        (.ok .unknown,
          note s s!"{function}: no summary for {body.name}, treating call as unknown")
      | (.error fault, s) => (.error fault, s)

/-- The report of a walk. -/
def reportOf (name : String) (o : Walk.Outcome) : Report :=
  { function := name, findings := o.findings, complete := o.complete, visits := o.visits,
    paths := o.paths, cutPaths := o.cutPaths, summary := some o.summary }

/-- Keeps the report of a function. -/
def keep (r : Report) (s : Session) : Report × Session :=
  let (r, cache) := s.cache.store r
  (r, { s with cache })

/-- Keeps what a walk brought. -/
def conclude (a : Analyzer) (name : String) (o : Walk.Outcome) (s : Session) : Report × Session :=
  let s :=
    if o.complete then s
    else s.note s!"{name}: visit budget of {a.config.visitBudget} exhausted, result incomplete"
  let s := { s with cache := s.cache.insert name o.summary }
  let s := s.note
    s!"{name}: {o.findings.length} bug(s), {o.visits} visits, {o.paths} paths, {o.cutPaths} cut"
  keep (reportOf name o) s

/-- Analyses a function; `fuel` bounds the functions that are being analysed at a time, each of which
is another function of the program. -/
def analyze (a : Analyzer) : (fuel : Nat) → Step σ
  | 0, _, name, s => (.error (.unknownFunction name), leave (enter s name) name .failed)
  | fuel + 1, n, name, s =>
    let s := enter s name
    match a.program.body? name with
    | none => (.error (.unknownFunction name), leave s name .failed)
    | some body =>
      match FunctionGraph.ofBody a.program.decls body with
      | .error cause =>
        let (r, kept) := keep (.refused name cause.message)
          ((session s).note s!"skipping {name}: {cause.message}")
        (.ok r, leave (turn s kept) name .refused)
      | .ok g =>
        match Walk.run g a.config (a.resolver (a.analyze fuel) (n.push name) name) s with
        | (.error fault, s) => (.error fault, leave s name .failed)
        | (.ok o, s) =>
          let (r, kept) := a.conclude name o (session s)
          (.ok r, turn (leave s name .walked) kept)

/-- No more functions are analysed at a time than the program has. -/
def fuel (a : Analyzer) : Nat := a.program.bodies.length + 1

/-- What is known of the callees of a function that is walked by itself, its calls included. -/
def outerResolver (a : Analyzer) (function : String) : Resolver Session :=
  a.resolver (a.analyze a.fuel) { depth := 1 } function

/-- The report of a function. -/
def function (a : Analyzer) (name : String) (s : σ) : Except AnalysisFault Report × σ :=
  match (session s).cache.report? name with
  | some r => (.ok r, s)
  | none =>
    if a.program.hasBody name then a.fromHead (a.analyze a.fuel) {} name s
    else (.error (.unknownFunction name), s)

/-- The reports of functions in turn; of a name given twice, one. -/
def functions (a : Analyzer) : List String → List Report → Session →
    Except AnalysisFault (List Report) × Session
  | [], done, s => (.ok done, s)
  | name :: names, done, s =>
    match a.function name s with
    | (.ok r, s) =>
      functions a names (if done.any (·.function == name) then done else done ++ [r]) s
    | (.error fault, s) => (.error fault, s)

/-- The reports of all functions, in the order of their names. -/
def all (a : Analyzer) (s : Session) : Except AnalysisFault (List Report) × Session :=
  a.functions a.program.functionNames [] s

/-- The summary of a callee at a depth of calls. -/
def summary (a : Analyzer) (name : String) (depth : Int) (s : Session) :
    Except AnalysisFault (Option Summary) × Session :=
  a.summaryWith (a.analyze a.fuel) { depth } name s

end Analyzer

end Dangling
