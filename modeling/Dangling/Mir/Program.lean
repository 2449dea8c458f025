import Dangling.Library.Model
import Dangling.Mir.Body

/-!
# Mir — Program

The functions of a crate with its declared types and the library models it is read against.  A
callee path names a function of the program as it is written or by its plain path; only a path that
names none is looked up in the library.
-/

namespace Dangling

/-- A crate. -/
structure Program where
  crate : String
  sourceFiles : List String
  /-- The declared types, in the order of the document. -/
  adts : List (String × Ty)
  decls : Declarations
  library : Library
  /-- The functions, in the order of the document. -/
  bodies : List Body
  /-- No two functions have the same name. -/
  distinct : (bodies.map (·.name)).Nodup := by decide
  deriving Repr

namespace Program

/-- The function of this name. -/
def body? (p : Program) (name : String) : Option Body := p.bodies.find? fun b => b.name == name

/-- The program has a function of this name. -/
def hasBody (p : Program) (name : String) : Bool := (p.body? name).isSome

/-- The names of the functions in ascending order. -/
def functionNames (p : Program) : List String := Sorted.sortTexts (p.bodies.map (·.name))

/-- The function that a callee path names. -/
def resolve (p : Program) (callee : String) : Option Body :=
  match p.body? callee with
  | some b => some b
  | none => p.body? (Callee.normalize callee)

/-- The library model that a callee path names; functions of the program come first. -/
def model? (p : Program) (callee : String) : Option Model :=
  match p.resolve callee with
  | some _ => none
  | none => p.library.lookup callee

/-- The functions of the program that a function calls, in ascending order. -/
def callsOf (p : Program) (b : Body) : List String :=
  Sorted.ofList Sorted.text (b.callees.filterMap fun f => (p.resolve f).map (·.name))

/-- A crate and its functions as a text. -/
def text (p : Program) : String :=
  "\n".intercalate
    (s!"Crate {p.crate} with {p.bodies.length} functions:" ::
      p.functionNames.map ("  - " ++ ·))

end Program

end Dangling
