import Dangling.Disk.Disk

/-!
# Disk — FileTree

A file system in memory, as a list of files.  A directory is there if a file is below it.
-/

namespace Dangling

/-- Files by their parts below the root. -/
structure FileTree where
  files : List (List String × List UInt8)
  deriving Repr, Inhabited

namespace FileTree

/-- The file at a path without parts that lead up. -/
def file? (t : FileTree) (parts : List String) : Option (List UInt8) := t.files.lookup parts

/-- A directory is at the path. -/
def isDirectory (t : FileTree) (parts : List String) : Bool :=
  parts.isEmpty || t.files.any fun (p, _) => parts.isPrefixOf p && p != parts

/-- Where steps lead from directory `here`. -/
def walk (t : FileTree) (here : List String) : List String → Except DiskCause (List String)
  | [] => .ok here
  | step :: rest =>
    if !t.isDirectory here then .error .notDirectory
    else if step = ".." then
      if here.isEmpty then .error .missing else walk t here.dropLast rest
    else
      let there := here ++ [step]
      if t.isDirectory there || (t.file? there).isSome then walk t there rest
      else .error .missing

/-- Where a path leads; only paths from the root of the tree lead anywhere. -/
def locate (t : FileTree) (r : Route) : Except DiskCause (List String) :=
  if r.root = "" then t.walk [] r.parts else .error .missing

/-- What a path leads to. -/
def kind (t : FileTree) (r : Route) : Option FileKind :=
  match t.locate r with
  | .ok parts => some (if t.isDirectory parts then .directory else .file)
  | .error _ => none

/-- The bytes of a file. -/
def read (t : FileTree) (r : Route) : Except DiskFault (List UInt8) :=
  match t.locate r with
  | .error cause => .error ⟨cause, r.text⟩
  | .ok parts =>
    match t.file? parts with
    | some bytes => .ok bytes
    | none => .error ⟨.isDirectory, r.text⟩

/-- The names in a directory. -/
def names (t : FileTree) (r : Route) : List String :=
  match t.locate r with
  | .error _ => []
  | .ok dir =>
    Sorted.ofList Sorted.text (t.files.filterMap fun (p, _) =>
      if dir.isPrefixOf p then (p.drop dir.length).head? else none)

/-- The tree as a file system. -/
def disk (t : FileTree) : Disk Id where
  kind := t.kind
  read := t.read
  names := t.names
  depth := t.files.foldl (fun n (p, _) => max n p.length) 0

/-- Where a file can be written: in a directory that is there, and not over a directory.  A path
that ends with a slash or leads up stands for a directory. -/
def target (t : FileTree) (path : String) : Except DiskCause (List String) :=
  let r := Route.ofText path
  match r.parts.getLast? with
  | none => .error .isDirectory
  | some name =>
    match t.locate { r with parts := r.parts.dropLast } with
    | .error cause => .error cause
    | .ok dir =>
      if !t.isDirectory dir then .error .notDirectory
      else if name = ".." || path.toList.getLast? == some '/' then .error .isDirectory
      else
        match t.walk dir [name] with
        | .ok there => if t.isDirectory there then .error .isDirectory else .ok there
        | .error _ => .ok (dir ++ [name])

end FileTree

end Dangling
