import Dangling.Finding.Finding
import Dangling.Summary.Summary

/-!
# Summary — Report

What came of the analysis of a function.
-/

namespace Dangling

/-- The outcome of a function's analysis. -/
structure Report where
  function : String
  findings : List Finding := []
  /-- All paths were walked. -/
  complete : Bool := true
  /-- Blocks entered, over all paths. -/
  visits : Nat := 0
  /-- Paths walked to their end. -/
  paths : Nat := 0
  /-- Paths given up inside loops. -/
  cutPaths : Nat := 0
  /-- Why the function was not analysed. -/
  error : Option String := none
  summary : Option Summary := none
  deriving Repr, Inhabited

namespace Report

/-- The report of a function that cannot be analysed. -/
def refused (function message : String) : Report :=
  { function, complete := false, error := some message }

/-- The function was analysed. -/
def isAnalyzed (r : Report) : Bool := r.error.isNone

/-- A report as a document. -/
def toJson (r : Report) : Json.Value :=
  .obj [("function", .str r.function), ("bugs", .arr (r.findings.map Finding.toJson)),
    ("complete", .bool r.complete), ("visits", .int r.visits), ("paths", .int r.paths),
    ("cut_paths", .int r.cutPaths),
    ("error", match r.error with
      | some message => .str message
      | none => .null),
    ("summary", match r.summary with
      | some s => s.toJson
      | none => .null)]

end Report

end Dangling
