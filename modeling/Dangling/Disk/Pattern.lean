import Dangling.Disk.Route

/-!
# Disk — Pattern

Patterns for paths: `**` stands for any number of directories, and within a part `*` for any
characters, `?` for one, and `[…]` for one of a set.
-/

namespace Dangling

/-- A piece of a pattern for a name. -/
inductive Piece where
  | any
  | one
  | char (c : Char)
  /-- A character in, or with `outside` not in, one of the ranges. -/
  | set (outside : Bool) (ranges : List (Char × Char))
  deriving DecidableEq, Repr, Inhabited

namespace Piece

/-- A single character is of the piece. -/
def holds : Piece → Char → Bool
  | .any, _ => false
  | .one, _ => true
  | .char c, d => c == d
  | .set outside ranges, c =>
    ranges.any (fun (lo, hi) => decide (lo.toNat ≤ c.toNat) && decide (c.toNat ≤ hi.toNat)) != outside

/-- The ends of a list. -/
def tails : List Char → List (List Char)
  | [] => [[]]
  | c :: cs => (c :: cs) :: tails cs

/-- The pieces stand for the characters. -/
def accept : List Piece → List Char → Bool
  | [], cs => cs.isEmpty
  | .any :: ps, cs => (tails cs).any (accept ps)
  | p :: ps, c :: cs => p.holds c && accept ps cs
  | _ :: _, [] => false

/-- The ranges of a set; a character that is no range is one of itself. -/
def ranges : List Char → List (Char × Char)
  | lo :: '-' :: hi :: rest => (lo, hi) :: ranges rest
  | c :: rest => (c, c) :: ranges rest
  | [] => []

/-- Splits off a leading `c`. -/
def leading (c : Char) : List Char → List Char × List Char
  | d :: rest => if d == c then ([d], rest) else ([], d :: rest)
  | [] => ([], [])

/-- The set after an opening bracket, and what follows it.  A closing bracket that comes first
belongs to the set. -/
def set? (cs : List Char) : Option (Piece × List Char) :=
  let (mark, cs) := leading '!' cs
  let (first, cs) := leading ']' cs
  match cs.dropWhile (· != ']') with
  | _ :: rest => some (.set (!mark.isEmpty) (ranges (first ++ cs.takeWhile (· != ']'))), rest)
  | [] => none

/-- The pieces of a pattern for a name. -/
def read : (fuel : Nat) → List Char → List Piece
  | 0, _ => []
  | _, [] => []
  | fuel + 1, c :: rest =>
    if c == '*' then .any :: read fuel rest
    else if c == '?' then .one :: read fuel rest
    else if c == '[' then
      match set? rest with
      | some (piece, rest) => piece :: read fuel rest
      | none => .char c :: read fuel rest
    else .char c :: read fuel rest

/-- The pieces of a pattern for a name. -/
def ofText (s : String) : List Piece := read (s.length + 1) s.toList

end Piece

/-- A part of a pattern for paths. -/
inductive PatternPart where
  /-- Any number of directories. -/
  | anyDepth
  /-- A part without marks. -/
  | exactly (name : String)
  | like (pieces : List Piece)
  /-- The end of a pattern for directories only. -/
  | directory
  deriving DecidableEq, Repr, Inhabited

/-- Why a text is no pattern. -/
inductive PatternFault where
  | empty
  | absolute
  /-- `**` is not a part of its own. -/
  | depthInside
  /-- Only the directory itself is named. -/
  | noParts
  /-- Only the directory itself is named, with a slash. -/
  | onlyDirectory
  deriving DecidableEq, Repr, Inhabited

namespace PatternPart

/-- The text has two stars in a row. -/
def hasDepthMark : List Char → Bool
  | '*' :: '*' :: _ => true
  | _ :: rest => hasDepthMark rest
  | [] => false

/-- A part of a pattern. -/
def ofText (s : String) : Except PatternFault PatternPart :=
  if s = "**" then .ok .anyDepth
  else if hasDepthMark s.toList then .error .depthInside
  else if s.toList.any fun c => c == '*' || c == '?' || c == '[' then .ok (.like (Piece.ofText s))
  else .ok (.exactly s)

/-- The parts of a pattern. -/
def ofPattern (s : String) : Except PatternFault (List PatternPart) := do
  if s = "" then .error .empty
  let route := Route.ofText s
  if route.root ≠ "" then .error .absolute
  let closing : List PatternPart :=
    if s.toList.getLast? == some '/' then [.directory] else []
  let parts ← route.parts.mapM ofText
  match parts, closing with
  | [], [] => .error .noParts
  | [], _ => .error .onlyDirectory
  | parts, closing => .ok (parts ++ closing)

end PatternPart

end Dangling
