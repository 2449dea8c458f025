import Dangling.Analysis.Session
import Dangling.Disk.Disk
import Dangling.Library.Standard
import Dangling.Mir.Document
import Dangling.Scan.Result
import Dangling.Text.Utf8

/-!
# Scan — Scanner

Scans of dumps: read a dump, analyse its functions, gather what was found.  One scanner reads one
dump after the other.
-/

namespace Dangling

/-- Why a scan stops without a result. -/
inductive ScanFault where
  | document (cause : Breakdown)
  | analysis (cause : AnalysisFault)

/-- A scanner between two dumps. -/
structure Scanner where
  config : Config := {}
  /-- The workers asked for. -/
  jobs : Int := 1
  /-- Only functions of this name or trailing path are reported. -/
  filter : Option String := none
  importer : Importer := .withLibrary Library.standard
  /-- What was noted, the last line first. -/
  notes : List String := []

/-- A name is as asked for, or ends with it after a separator. -/
def isNamed (wanted name : String) : Bool :=
  name == wanted || (("::" ++ wanted).toList.reverse).isPrefixOf name.toList.reverse

namespace Scanner

/-- Notes a line. -/
def note (sc : Scanner) (line : String) : Scanner :=
  { sc with notes := ("[Scanner] " ++ line) :: sc.notes }

/-- The lines noted, in order. -/
def log (sc : Scanner) : List String := sc.notes.reverse

/-- The functions to report, in the order of their names. -/
def selected (sc : Scanner) (p : Program) : List String :=
  match sc.filter with
  | none => p.functionNames
  | some wanted =>
    if wanted = "" then p.functionNames else p.functionNames.filter (isNamed wanted)

/-- The line for a report that is an error. -/
def errorLine (r : Report) : Option String := r.error.map fun e => s!"{r.function}: {e}"

/-- The line for a report that is not complete. -/
def warningLine (cfg : Config) (r : Report) : Option String :=
  if r.isAnalyzed && !r.complete then
    some (s!"{r.function}: visit budget of {cfg.visitBudget} exhausted, " ++
      "findings may be incomplete")
  else none

/-- Scans a program. -/
def program (sc : Scanner) (p : Program) (filename : String) :
    Except ScanFault ScanResult × Scanner :=
  let a := Analyzer.new p sc.config
  let names := sc.selected p
  let sc := sc.note s!"Analyzing {names.length} function(s) with {max 1 sc.jobs} worker(s)"
  let (reports, s) := a.functions names [] {}
  let sc := { sc with notes := s.notes ++ sc.notes }
  match reports with
  | .error cause => (.error (.analysis cause), sc)
  | .ok reports =>
    let r : ScanResult :=
      { filename, reports, cache := some s.cache, errors := reports.filterMap errorLine,
        warnings := reports.filterMap (warningLine sc.config) }
    (.ok r, (sc.note s!"Scan complete: {r.findings.length} finding(s)").note "Time: 0.00ms")

/-- Gathers what came of reading a dump. -/
def scanned (sc : Scanner) (filename : String) : Except Refusal Program →
    Except ScanFault ScanResult × Scanner
  | .ok p => sc.program p filename
  | .error (.fault f) => (.ok (.failed filename ("Parse error: " ++ f.message)), sc)
  | .error (.breakdown b) => (.error (.document b), sc)

/-- Scans a dump. -/
def text (sc : Scanner) (s : String) (filename : String) : Except ScanFault ScanResult × Scanner :=
  let sc := sc.note s!"Parsing {filename}..."
  let (read, importer) := sc.importer.text filename s
  { sc with importer }.scanned filename read

/-- Scans a dump that is decoded already. -/
def document (sc : Scanner) (v : Json.Value) (filename : String) :
    Except ScanFault ScanResult × Scanner :=
  let sc := sc.note s!"Parsing {filename}..."
  let (read, importer) := sc.importer.document filename v
  { sc with importer }.scanned filename read

variable {m : Type → Type} [Monad m]

/-- Scans a file; `given` is how its path was given. -/
def file (sc : Scanner) (disk : Disk m) (given : String) :
    m (Except ScanFault ScanResult × Scanner) := do
  let route := Route.ofText given
  match ← disk.kind route with
  | none => return (.ok (.failed route.text s!"File not found: {given}"), sc)
  | some _ =>
    match ← disk.read route with
    | .error fault =>
      return (.ok (.failed route.text s!"Cannot read {given}: {fault.message}"), sc)
    | .ok bytes =>
      match Text.ofBytes bytes with
      | .error fault =>
        return (.ok (.failed route.text s!"Cannot read {given}: {fault.message}"), sc)
      | .ok s => return sc.text s route.text

/-- Scans files in turn. -/
def files (disk : Disk m) : List Route → List ScanResult → Scanner →
    m (Except ScanFault (List ScanResult) × Scanner)
  | [], done, sc => pure (.ok done, sc)
  | r :: rest, done, sc => do
    match ← sc.file disk r.text with
    | (.ok result, sc) => files disk rest (done ++ [result]) sc
    | (.error fault, sc) => return (.error fault, sc)

end Scanner

end Dangling
