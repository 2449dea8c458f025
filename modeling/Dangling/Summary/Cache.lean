import Dangling.Summary.Report

/-!
# Summary — Cache

Summaries and reports of the functions analysed so far.  What is stored first stays.
-/

namespace Dangling

/-- Summaries and reports by function, and how often summaries were asked for. -/
structure Cache where
  summaries : List (String × Summary) := []
  reports : List (String × Report) := []
  hits : Nat := 0
  misses : Nat := 0
  populations : Nat := 0
  deriving Repr, Inhabited

namespace Cache

/-- The number of summaries. -/
def size (c : Cache) : Nat := c.summaries.length

/-- The summary of a function. -/
def summary? (c : Cache) (function : String) : Option Summary := c.summaries.lookup function

/-- There is a summary of the function. -/
def contains (c : Cache) (function : String) : Bool := (c.summary? function).isSome

/-- Asks for a summary, and counts. -/
def lookup (c : Cache) (function : String) : Option Summary × Cache :=
  match c.summary? function with
  | some s => (some s, { c with hits := c.hits + 1 })
  | none => (none, { c with misses := c.misses + 1 })

/-- Stores a summary, unless there is one. -/
def insert (c : Cache) (function : String) (s : Summary) : Cache :=
  if c.contains function then c
  else
    { c with summaries := c.summaries ++ [(function, s)], populations := c.populations + 1 }

/-- The report of a function. -/
def report? (c : Cache) (function : String) : Option Report := c.reports.lookup function

/-- Stores a report, unless there is one; gives the one that is there. -/
def store (c : Cache) (r : Report) : Report × Cache :=
  match c.report? r.function with
  | some first => (first, c)
  | none => (r, { c with reports := c.reports ++ [(r.function, r)] })

/-- The counts as a document. -/
def toJson (c : Cache) : Json.Value :=
  .obj [("entries", .int c.size), ("hits", .int c.hits), ("misses", .int c.misses),
    ("populations", .int c.populations)]

end Cache

end Dangling
