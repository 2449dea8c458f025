import Dangling.Library.Callee

/-!
# Library — Model

What a library function does to the ownership of its arguments, and tables of such models.  A callee
is looked up by the longest trailing path that the table holds.
-/

namespace Dangling

/-- The ownership model of a library function.  Positions number the arguments from zero, and
negative ones from the last. -/
structure Model where
  /-- Arguments whose memory the call releases. -/
  drops : List Int := []
  /-- The release is asked for by the program and not by the end of a scope. -/
  manual : Bool := false
  /-- Released arguments are pointers to the memory that is released. -/
  throughPointer : Bool := false
  /-- Arguments that are consumed without being released. -/
  forgets : List Int := []
  /-- Arguments whose memory gets a new owner. -/
  reconstructs : List Int := []
  /-- Arguments whose memory the result points into. -/
  retAliases : List Int := []
  /-- Whether the result is owned; by default, if its type needs drop. -/
  retOwned : Option Bool := none
  description : String := ""
  deriving DecidableEq, Repr, Inhabited

namespace Model

/-- The call releases memory. -/
def isDrop (m : Model) : Bool := !m.drops.isEmpty

/-- The call consumes an argument without releasing it. -/
def isForget (m : Model) : Bool := !m.forgets.isEmpty

/-- The call gives memory a new owner. -/
def isReconstruction (m : Model) : Bool := !m.reconstructs.isEmpty

/-- The call bypasses automatic release. -/
def isIntervention (m : Model) : Bool := (m.isDrop && m.manual) || m.isReconstruction

end Model

/-- Models by path. -/
abbrev Library := List (String × Model)

namespace Library

/-- The model of exactly this path. -/
def find? (lib : Library) (path : String) : Option Model :=
  List.lookup path lib

/-- The model of a callee: of its trailing paths, the longest that the table holds. -/
def lookup (lib : Library) (callee : String) : Option Model :=
  (Callee.suffixes (Callee.segments (Callee.normalizeChars callee.toList))).findSome? (find? lib)

end Library

end Dangling
