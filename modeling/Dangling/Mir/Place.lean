/-!
# Mir — Place

A memory location: a local, narrowed by fields and dereferences.
-/

namespace Dangling

/-- One step from a value to a part of it or to what it points at. -/
inductive Projection where
  | field (name : String)
  | deref
  deriving DecidableEq, Repr, Inhabited

namespace Projection

/-- The mark that stands for a dereference where steps are given by name. -/
def derefMark : String := "*"

/-- The step of a given name. -/
def ofName (name : String) : Projection := if name = derefMark then .deref else .field name

/-- The name of a step. -/
def name : Projection → String
  | .field n => n
  | .deref => derefMark

end Projection

/-- A local with the steps that lead from it to a memory location. -/
structure Place where
  base : Nat
  steps : List Projection := []
  deriving DecidableEq, Repr, Inhabited

namespace Place

/-- The place of a field. -/
def field (p : Place) (name : String) : Place := { p with steps := p.steps ++ [.field name] }

/-- The place that a pointer leads to. -/
def deref (p : Place) : Place := { p with steps := p.steps ++ [.deref] }

/-- The place is reached through a pointer. -/
def hasDeref (p : Place) : Bool := p.steps.contains .deref

/-- The place is a whole local. -/
def isLocal (p : Place) : Bool := p.steps.isEmpty

/-- One more step on the text of a place. -/
def stepText (text : String) : Projection → String
  | .deref => "(*" ++ text ++ ")"
  | .field name => text ++ "." ++ name

/-- The text of a place: `_1`, `_1.buf`, `(*_2)`, `(*_2).0`. -/
def text (p : Place) : String := p.steps.foldl stepText s!"_{p.base}"

end Place

end Dangling
