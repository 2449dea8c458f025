import Dangling.Order.Sorted

/-!
# Disk — Route

Paths to files, without empty parts and parts for the directory itself.
-/

namespace Dangling

/-- A path: where it starts, and its parts. -/
structure Route where
  root : String := ""
  parts : List String := []
  deriving DecidableEq, Repr, Inhabited

namespace Route

/-- The parts of a path between slashes. -/
def split (acc : List Char) : List Char → List String
  | [] => [String.ofList acc.reverse]
  | '/' :: rest => String.ofList acc.reverse :: split [] rest
  | c :: rest => split (c :: acc) rest

/-- The parts that lead somewhere. -/
def partsOf (cs : List Char) : List String :=
  (split [] cs).filter fun p => p != "" && p != "."

/-- The path of a text.  Two slashes at the start are a root of their own; more count as one. -/
def ofText (s : String) : Route :=
  let slashes := s.toList.takeWhile (· == '/')
  let root := match slashes.length with
    | 0 => ""
    | 2 => "//"
    | _ => "/"
  ⟨root, partsOf s.toList⟩

/-- The text of a path. -/
def text (r : Route) : String :=
  let joined := r.root ++ "/".intercalate r.parts
  if joined = "" then "." else joined

/-- The path of a file in a directory. -/
def child (r : Route) (name : String) : Route := { r with parts := r.parts ++ [name] }

/-- Comparison part by part. -/
def compare (r s : Route) : Ordering :=
  Sorted.lexicographic Sorted.text (r.root :: r.parts) (s.root :: s.parts)

end Route

end Dangling
