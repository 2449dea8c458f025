import Dangling.Finding.Finding

/-!
# Finding — Ledger

The findings of one function, of each misuse, node and origin only the first.
-/

namespace Dangling

/-- The findings of a function. -/
structure Ledger where
  function : String
  /-- The findings in the order they were recorded. -/
  entries : List Finding := []
  deriving Repr, Inhabited

namespace Ledger

/-- A finding of this misuse, node and origin is recorded. -/
def holds (l : Ledger) (key : Misuse × Int × Int) : Bool :=
  l.entries.any fun f => f.key == key

/-- Records a finding, unless there is one of its misuse, node and origin. -/
def record (l : Ledger) (f : Finding) : Ledger :=
  if l.holds f.key then l else { l with entries := l.entries ++ [f] }

/-- The number of findings. -/
def size (l : Ledger) : Nat := l.entries.length

/-- The findings by location, kind, node and origin. -/
def findings (l : Ledger) : List Finding :=
  Sorted.sortBy (fun f g => (f.compare g).isLE) l.entries

end Ledger

/-- A path as it is given, or a node's number where none is. -/
def pathOr (path : String) (node : Int) : String := if path = "" then s!"_{node}" else path

end Dangling
