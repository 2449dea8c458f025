import Dangling.Cli.Command

/-!
# Main

The command line on the file system of this machine.
-/

namespace Dangling.Main

/-- The file system of this machine. -/
def disk : Disk IO where
  kind r := do
    let path := (← IO.currentDir) / r.text
    if ← path.isDir then return some .directory
    else if ← path.pathExists then return some .file
    else return none
  read r := do
    let path := (← IO.currentDir) / r.text
    if ← path.isDir then return .error ⟨.isDirectory, r.text⟩
    else if ← path.pathExists then return .ok (← IO.FS.readBinFile path).toList
    else return .error ⟨.missing, r.text⟩
  names r := do
    let path := (← IO.currentDir) / r.text
    return (← path.readDir).toList.map (·.fileName)
  depth := 1000

end Dangling.Main

/-- Does what the arguments ask for. -/
def main (args : List String) : IO UInt32 := do
  match ← Dangling.Request.runArgs args Dangling.Main.disk with
  | .ok outcome =>
    (← IO.getStdout).putStr outcome.stdout
    (← IO.getStderr).putStr outcome.stderr
    match outcome.output with
    | some (path, text) => IO.FS.writeFile path text
    | none => pure ()
    return outcome.exit.toUInt32
  | .error _ =>
    (← IO.getStderr).putStr "Error: the dump or the pattern cannot be used\n"
    return 1
