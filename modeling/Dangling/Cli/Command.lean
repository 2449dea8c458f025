import Dangling.Cli.Page
import Dangling.Cli.Request
import Dangling.Json.Writer
import Dangling.Scan.Scanner

/-!
# Cli — Command

What the commands do, given a file system: what they print, what they leave in a file, and how they
exit.
-/

namespace Dangling

/-- What a command leaves behind. -/
structure Outcome where
  exit : Nat
  stdout : String := ""
  stderr : String := ""
  /-- A file to write, with its text. -/
  output : Option (String × String) := none
  deriving Repr, Inhabited

/-- Why a command stops short. -/
inductive CommandFault where
  | scan (cause : ScanFault)
  | pattern (cause : PatternFault)
  | encoding (cause : Text.Utf8Fault)
  | document (cause : Breakdown)

namespace Outcome

/-- Lines, each with its end. -/
def lines (ls : List String) : String := String.join (ls.map (· ++ "\n"))

/-- Prints lines and exits well. -/
def printed (ls : List String) : Outcome := { exit := 0, stdout := lines ls }

/-- Complains and exits. -/
def complaint (exit : Nat) (line : String) : Outcome := { exit, stderr := lines [line] }

end Outcome

namespace ScanRequest

/-- The pages of a scan. -/
def pages (r : ScanRequest) (results : List ScanResult) : List String :=
  match r.format with
  | .text => results.map Page.result
  | .json =>
    match results with
    | [one] => [one.toJson.page]
    | _ => [(ScanResult.combinedJson results).page]
  | .sarif => [(Sarif.document results).page]

/-- The findings make the scan fail. -/
def fails (r : ScanRequest) (results : List ScanResult) : Bool :=
  match r.failOn with
  | .never => false
  | .any | .high => results.any (·.hasFindings)
  | .critical => results.any fun x => decide (0 < x.count .critical)

/-- How a scan exits: by its findings, or because nothing could be read. -/
def exitCode (r : ScanRequest) (results : List ScanResult) : Nat :=
  if r.fails results then 1
  else if results.all fun x => !x.errors.isEmpty && x.reports.isEmpty then 2
  else 0

/-- The lines that complain about a result. -/
def complaints (x : ScanResult) : List String :=
  x.errors.map fun e => s!"Error: {x.filename}: {e}"

/-- What a scan leaves behind. -/
def outcome (r : ScanRequest) (results : List ScanResult) (log : List String) : Outcome :=
  let noted := if r.verbose then log else []
  let pages := r.pages results
  let base : Outcome :=
    { exit := r.exitCode results, stdout := Outcome.lines noted,
      stderr := Outcome.lines (results.flatMap complaints) }
  match r.output with
  | some path =>
    if path = "" then { base with stdout := base.stdout ++ Outcome.lines pages }
    else { base with output := some (path, String.join pages) }
  | none => { base with stdout := base.stdout ++ Outcome.lines pages }

/-- The scanner for a request. -/
def scanner (r : ScanRequest) : Scanner :=
  { config :=
      { visitBudget := r.visitBudget, loopUnroll := r.loopUnroll, followUnwind := r.followUnwind },
    jobs := r.jobs, filter := r.function }

variable {m : Type → Type} [Monad m]

/-- The dumps to scan. -/
def dumps (r : ScanRequest) (disk : Disk m) (kind : FileKind) : m (Except PatternFault (List Route)) :=
  let target := Route.ofText r.target
  match kind with
  | .file => pure (.ok [target])
  | .directory =>
    match PatternPart.ofPattern r.pattern with
    | .error fault => pure (.error fault)
    | .ok pattern => do return .ok (← disk.find pattern target)

/-- Scans. -/
def run (r : ScanRequest) (disk : Disk m) : m (Except CommandFault Outcome) := do
  match ← disk.kind (Route.ofText r.target) with
  | none => return .ok (.complaint 1 s!"Error: Target not found: {r.target}")
  | some kind =>
    if r.visitBudget < 1 ∨ r.loopUnroll < 1 ∨ r.jobs < 1 then
      return .ok (.complaint 1 "Error: --visit-budget, --loop-unroll and --jobs must be positive")
    match ← r.dumps disk kind with
    | .error fault => return .error (.pattern fault)
    | .ok [] => return .ok (.complaint 1 "No files found to scan.")
    | .ok routes =>
      match ← Scanner.files disk routes [] r.scanner with
      | (.error fault, _) => return .error (.scan fault)
      | (.ok results, sc) => return .ok (r.outcome results sc.log)

end ScanRequest

namespace GraphRequest

/-- What a look at a program leaves behind. -/
def outcome (r : GraphRequest) (p : Program) : Outcome :=
  match p.functionNames.find? (isNamed r.function) with
  | none => .complaint 1 s!"Error: Function not found: {r.function}"
  | some name =>
    match (p.body? name).map (FunctionGraph.ofBody p.decls) with
    | some (.ok g) =>
      match r.format with
      | .json => .printed [(Page.graphJson name g).page]
      | _ => .printed [Page.graph name g]
    | some (.error cause) => .complaint 1 ("Error: " ++ cause.message)
    | none => .complaint 1 s!"Error: Function not found: {r.function}"

variable {m : Type → Type} [Monad m]

/-- Shows a graph. -/
def run (r : GraphRequest) (disk : Disk m) : m (Except CommandFault Outcome) := do
  let route := Route.ofText r.target
  match ← disk.read route with
  | .error fault => return .ok (.complaint 1 ("Error: " ++ fault.message))
  | .ok bytes =>
    match Text.ofBytes bytes with
    | .error fault => return .error (.encoding fault)
    | .ok s =>
      match (Importer.withLibrary Library.standard).text route.text s with
      | (.ok p, _) => return .ok (r.outcome p)
      | (.error (.fault f), _) => return .ok (.complaint 1 ("Error: " ++ f.message))
      | (.error (.breakdown b), _) => return .error (.document b)

end GraphRequest

namespace Request

variable {m : Type → Type} [Monad m]

/-- Does what the user asks for. -/
def run (r : Request) (disk : Disk m) : m (Except CommandFault Outcome) :=
  match r with
  | .help => pure (.ok (.printed [Page.help]))
  | .version => pure (.ok (.printed [Page.version]))
  | .scan r => r.run disk
  | .graph r => r.run disk

/-- Does what a command line asks for. -/
def runArgs (args : List String) (disk : Disk m) : m (Except CommandFault Outcome) :=
  match ofArgs args with
  | .ok r => r.run disk
  | .error e => pure (.ok (.complaint 2 e.message))

end Request

end Dangling
