/-!
# Text — Range

Character classes as lists of code point ranges.  ASCII is decided by each class on its own, so a
table starts at U+0080 and is asked only beyond it.
-/

namespace Dangling.Text

/-- Some range of `table`, ends included, holds `n`. -/
def inRanges (table : List (Nat × Nat)) (n : Nat) : Bool :=
  table.any fun (lo, hi) => decide (lo ≤ n) && decide (n ≤ hi)

end Dangling.Text
