import Dangling.Json.Value

/-!
# Mir — Ty — Fault

Why a type text is refused.  Positions count characters of the text from zero.
-/

namespace Dangling

/-- Why a type is refused. -/
inductive TypeFault where
  /-- The type is given by something that is no text. -/
  | notText (got : Json.Value)
  /-- Something follows the type. -/
  | trailing (text : String) (position : Nat)
  /-- A mark that has to come next does not. -/
  | expected (mark text : String) (position : Nat)
  /-- A parenthesis is never closed. -/
  | unclosed (text : String)
  /-- The text ends where a type should start. -/
  | ended (text : String)
  /-- The elements of a tuple are not separated. -/
  | unseparated (text : String)
  /-- No name stands where a type should start. -/
  | nameless (text : String) (position : Nat)
  /-- The declaration of a type is no object. -/
  | declaration (name : String)
  /-- The fields of a declaration are no object. -/
  | fields (name : String)
  /-- The fields of a generic type lead back to it without end. -/
  | endless (name : String)
  deriving Repr

/-- The wording of a refusal. -/
def TypeFault.message : TypeFault → String
  | .notText got => "Type must be a string, got " ++ got.quoted
  | .trailing text p => s!"Unexpected text in type {Text.quoted text} at {p}"
  | .expected mark text p => s!"Expected {Text.quoted mark} in type {Text.quoted text} at {p}"
  | .unclosed text => s!"Unbalanced '(' in type {Text.quoted text}"
  | .ended text => s!"Unexpected end of type {Text.quoted text}"
  | .unseparated text => s!"Expected ',' or ')' in type {Text.quoted text}"
  | .nameless text p => s!"Expected a type name in {Text.quoted text} at {p}"
  | .declaration name => s!"ADT {Text.quoted name} must be an object"
  | .fields name => s!"ADT {Text.quoted name} fields must be an object"
  | .endless name => s!"ADT {Text.quoted name} contains itself without end"

end Dangling
