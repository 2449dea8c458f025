import Dangling.Mir.Location
import Dangling.Order.Sorted

/-!
# Finding — Finding

Misused memory: the node that misuses it, the origin whose drop released it, and where.
-/

namespace Dangling

/-- How released memory is misused. -/
inductive Misuse where
  | useAfterFree
  | doubleFree
  deriving DecidableEq, Repr, Inhabited

namespace Misuse

/-- The word for a misuse. -/
def word : Misuse → String
  | useAfterFree => "UseAfterFree"
  | doubleFree => "DoubleFree"

/-- The misuse of a word. -/
def ofWord? (word : String) : Option Misuse :=
  [useAfterFree, doubleFree].find? fun m => m.word == word

/-- The identifier in the Common Weakness Enumeration. -/
def cweId : Misuse → String
  | useAfterFree => "CWE-416"
  | doubleFree => "CWE-415"

/-- The heading of reports. -/
def title : Misuse → String
  | useAfterFree => "Use after free"
  | doubleFree => "Double free"

/-- What the misusing node does. -/
def deed : Misuse → String
  | useAfterFree => "is used after"
  | doubleFree => "is dropped again after"

end Misuse

/-- A misuse of released memory in a function. -/
structure Finding where
  function : String
  loc : Location
  kind : Misuse
  /-- The number of the node. -/
  node : Int
  nodePath : String
  /-- The number of the node whose drop released the memory. -/
  origin : Int
  originPath : String
  dropLoc : Option Location := none
  context : String := ""
  deriving Repr, Inhabited

namespace Finding

/-- What tells findings of a function apart. -/
def key (f : Finding) : Misuse × Int × Int := (f.kind, f.node, f.origin)

/-- The finding in one sentence. -/
def description (f : Finding) : String :=
  f.kind.title ++ ": '" ++ f.nodePath ++ "' " ++ f.kind.deed ++ " '" ++ f.originPath ++
    "' released it" ++
    (match f.dropLoc with
      | some loc => " at " ++ loc.text
      | none => "") ++
    (if f.context = "" then "" else " (" ++ f.context ++ ")")

/-- The finding with its location. -/
def text (f : Finding) : String :=
  f.loc.text ++ ": [" ++ f.kind.cweId ++ "] " ++ f.description

/-- A finding as a document. -/
def toJson (f : Finding) : Json.Value :=
  .obj [("function", .str f.function), ("kind", .str f.kind.word), ("cwe_id", .str f.kind.cweId),
    ("location", f.loc.toJson), ("node", .int f.node), ("node_path", .str f.nodePath),
    ("origin", .int f.origin), ("origin_path", .str f.originPath),
    ("drop_location", match f.dropLoc with
      | some loc => loc.toJson
      | none => .null),
    ("context", .str f.context), ("description", .str f.description)]

/-- Comparison by location, kind, node and origin. -/
def compare (f g : Finding) : Ordering :=
  (Sorted.text f.loc.file g.loc.file).then <|
  (Ord.compare f.loc.line g.loc.line).then <|
  (Ord.compare f.loc.column g.loc.column).then <|
  (Sorted.text f.kind.word g.kind.word).then <|
  (Ord.compare f.node g.node).then (Ord.compare f.origin g.origin)

end Finding

end Dangling
