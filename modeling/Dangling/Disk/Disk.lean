import Dangling.Disk.Pattern
import Dangling.Text.Quoted

/-!
# Disk — Disk

What a scan needs of a file system, and the search for files by pattern.
-/

namespace Dangling

/-- What a path leads to. -/
inductive FileKind where
  | file | directory
  deriving DecidableEq, Repr, Inhabited

/-- Why a file cannot be read or written. -/
inductive DiskCause where
  | missing | notDirectory | isDirectory
  deriving DecidableEq, Repr, Inhabited

/-- A failed access to a path. -/
structure DiskFault where
  cause : DiskCause
  path : String
  deriving DecidableEq, Repr, Inhabited

/-- The wording of a failed access. -/
def DiskFault.message (f : DiskFault) : String :=
  (match f.cause with
    | .missing => "[Errno 2] No such file or directory: "
    | .notDirectory => "[Errno 20] Not a directory: "
    | .isDirectory => "[Errno 21] Is a directory: ") ++ Text.quoted f.path

/-- Access to a file system. -/
structure Disk (m : Type → Type) where
  kind : Route → m (Option FileKind)
  read : Route → m (Except DiskFault (List UInt8))
  /-- The names in a directory. -/
  names : Route → m (List String)
  /-- Directories are not nested deeper. -/
  depth : Nat

namespace Disk

variable {m : Type → Type} [Monad m]

/-- The path leads to a directory. -/
def isDirectory (d : Disk m) (r : Route) : m Bool := do return (← d.kind r) == some .directory

/-- A directory and all directories below it, at most `depth` levels down. -/
def directories (d : Disk m) : (depth : Nat) → Route → m (List Route)
  | 0, r => pure [r]
  | depth + 1, r => do
    let inner ← (← d.names r).mapM fun name => do
      if ← d.isDirectory (r.child name) then directories d depth (r.child name) else pure []
    return r :: inner.flatten

/-- The list without repetitions. -/
def distinct (rs : List Route) : List Route :=
  rs.foldl (fun seen r => if seen.contains r then seen else seen ++ [r]) []

/-- The paths in directory `r` that a pattern stands for. -/
def select (d : Disk m) : List PatternPart → Route → m (List Route)
  | [], r => pure [r]
  | .directory :: _, r => pure [r]
  | .exactly name :: rest, r => do
    let there ← d.kind (r.child name)
    let fits := if rest.isEmpty then there.isSome else there == some .directory
    if fits then select d rest (r.child name) else pure []
  | .like pieces :: rest, r => do
    let found ← (← d.names r).mapM fun name => do
      let fits ← if rest.isEmpty then pure true else d.isDirectory (r.child name)
      if fits && Piece.accept pieces name.toList then select d rest (r.child name) else pure []
    return found.flatten
  | .anyDepth :: rest, r => do
    let found ← (← d.directories d.depth r).mapM fun dir => select d rest dir
    return distinct found.flatten

/-- The files below a directory that a pattern stands for, in the order of their paths. -/
def find (d : Disk m) (pattern : List PatternPart) (r : Route) : m (List Route) := do
  if ← d.isDirectory r then
    let found := Sorted.sortBy (fun a b => (Route.compare a b).isLE) (← d.select pattern r)
    let kinds ← found.mapM fun r => do return (r, ← d.kind r)
    return (kinds.filter fun x => x.2 == some .file).map (·.1)
  else pure []

end Disk

end Dangling
