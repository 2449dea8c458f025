import Dangling.Summary.Cache

/-!
# Scan — Result

What a scan of one dump found, as a document.
-/

namespace Dangling

/-- How bad a finding is. -/
inductive Severity where
  | critical | high
  deriving DecidableEq, Repr, Inhabited

namespace Severity

/-- The word for a severity. -/
def word : Severity → String
  | critical => "critical"
  | high => "high"

/-- The word in capitals. -/
def heading : Severity → String
  | critical => "CRITICAL"
  | high => "HIGH"

/-- The mark of a severity in reports. -/
def icon : Severity → String
  | critical => "🔴"
  | high => "🟠"

end Severity

/-- How bad a misuse is: a double free corrupts the allocator. -/
def Misuse.severity : Misuse → Severity
  | .doubleFree => .critical
  | .useAfterFree => .high

namespace Finding

/-- How bad a finding is. -/
def severity (f : Finding) : Severity := f.kind.severity

/-- A finding with its severity. -/
def graded (f : Finding) : String := "[" ++ f.severity.heading ++ "] " ++ f.text

/-- A finding with its severity, as a document. -/
def gradedJson (f : Finding) : Json.Value :=
  .obj ((f.toJson.members?.getD []) ++ [("severity", .str f.severity.word)])

end Finding

/-- What a scan of one dump found. -/
structure ScanResult where
  filename : String
  /-- The reports of the functions scanned, in the order of their names. -/
  reports : List Report := []
  errors : List String := []
  warnings : List String := []
  /-- The summaries used; none if the dump could not be read. -/
  cache : Option Cache := none
  deriving Repr, Inhabited

namespace ScanResult

/-- The result for a dump that could not be scanned. -/
def failed (filename message : String) : ScanResult := { filename, errors := [message] }

/-- The findings in all functions. -/
def findings (r : ScanResult) : List Finding :=
  (r.reports.filter Report.isAnalyzed).flatMap (·.findings)

/-- The number of functions that were analysed. -/
def analyzedCount (r : ScanResult) : Nat := (r.reports.filter Report.isAnalyzed).length

/-- The number of findings of a severity. -/
def count (r : ScanResult) (s : Severity) : Nat :=
  (r.findings.filter fun f => f.severity == s).length

/-- Something was found. -/
def hasFindings (r : ScanResult) : Bool := !r.findings.isEmpty

/-- The functions whose analysis was given up. -/
def incomplete (r : ScanResult) : List String :=
  (r.reports.filter fun p => p.isAnalyzed && !p.complete).map (·.function)

/-- The time of a scan, in milliseconds; time is not measured. -/
def scanTime : Json.Value := .float (.finite false 0 0)

/-- A result as a document. -/
def toJson (r : ScanResult) : Json.Value :=
  .obj [("filename", .str r.filename), ("findings", .arr (r.findings.map Finding.gradedJson)),
    ("functions", .obj (r.reports.map fun p => (p.function, p.toJson))),
    ("errors", .arr (r.errors.map .str)), ("warnings", .arr (r.warnings.map .str)),
    ("scan_time_ms", scanTime), ("functions_analyzed", .int r.analyzedCount),
    ("cache", match r.cache with
      | some c => c.toJson
      | none => .obj []),
    ("summary", .obj [("total", .int r.findings.length), ("critical", .int (r.count .critical)),
      ("high", .int (r.count .high)), ("incomplete", .int r.incomplete.length)])]

/-- Several results as a document. -/
def combinedJson (rs : List ScanResult) : Json.Value :=
  let sum (f : ScanResult → Nat) : Json.Value := .int (rs.foldl (fun n r => n + f r) 0)
  .obj [("files", .arr (rs.map toJson)),
    ("summary", .obj [("files_scanned", .int rs.length),
      ("total_findings", sum fun r => r.findings.length),
      ("critical", sum fun r => r.count .critical), ("high", sum fun r => r.count .high)])]

end ScanResult

end Dangling
