import Dangling.Graph.FunctionGraph
import Dangling.Scan.Sarif

/-!
# Cli — Page

What the user gets to read.
-/

namespace Dangling.Page

/-- A line of one character. -/
def rule (c : Char) (n : Nat) : String := String.ofList (List.replicate n c)

/-- The help page. -/
def help : String :=
  "\n".intercalate
    ["usage: safedrop [-h] [-V] \x7bscan,cfg\x7d ...",
      "",
      "SafeDrop - use-after-free and double free detection on Rust MIR",
      "",
      "positional arguments:",
      "  \x7bscan,cfg\x7d     Available commands",
      "    scan         Scan MIR dumps for invalid deallocation",
      "    cfg          Show blocks, successors and loop fathers of a function",
      "",
      "options:",
      "  -h, --help     show this help message and exit",
      "  -V, --version  show program's version number and exit",
      "",
      "Use 'safedrop <command> --help' for more information on a specific command."]

/-- The version line. -/
def version : String := "safedrop " ++ toolVersion

/-- One finding of a report. -/
def finding (f : Finding) (i : Nat) : List String :=
  [s!"\n{i + 1}. [{f.severity.heading}] {f.severity.icon} {f.kind.word}",
    "   Location: " ++ f.loc.text,
    "   Function: " ++ f.function,
    "   Description: " ++ f.description,
    "   CWE: " ++ f.kind.cweId] ++
    (f.dropLoc.map fun l => "   Freed at: " ++ l.text).toList

/-- Lines under a heading, if there are any. -/
def listed (heading mark : String) (lines : List String) : List String :=
  if lines.isEmpty then [] else heading :: lines.map (mark ++ ·)

/-- The report on a dump. -/
def result (r : ScanResult) : String :=
  let bar := rule '=' 60
  "\n".intercalate
    (["\n" ++ bar, "SafeDrop Scan: " ++ r.filename, bar,
        s!"\nFunctions analyzed: {r.analyzedCount}", "Scan time: 0.00ms"] ++
      (match r.cache with
        | some c => [s!"Summaries: {c.size} (hits {c.hits}, misses {c.misses})"]
        | none => []) ++
      listed "\nErrors:" "  ❌ " r.errors ++
      listed "\nWarnings:" "  ⚠️  " r.warnings ++
      (if r.findings.isEmpty then ["\n✅ No invalid deallocation found!"]
        else
          [s!"\nFindings: {r.findings.length}", rule '-' 40] ++
            r.findings.zipIdx.flatMap fun (f, i) => finding f i) ++
      ["\n" ++ bar ++ "\n"])

/-- The graph of a function. -/
def graph (name : String) (g : FunctionGraph) : String :=
  "\n".intercalate
    (s!"fn {name} (entry bb{g.entry}, {g.nodes.size} nodes)" ::
      g.blocks.map fun b =>
        "  " ++ b.text ++ s!"  father bb{g.loops.father b.id}" ++
          if g.loops.inCycle b.id then " [loop]" else "")

/-- The graph of a function as a document. -/
def graphJson (name : String) (g : FunctionGraph) : Json.Value :=
  let blocks (bs : List BlockId) : Json.Value := .arr (bs.map .int)
  .obj [("function", .str name), ("entry", .int g.entry),
    ("blocks", .arr (g.blocks.map fun b =>
      .obj [("id", .int b.id), ("successors", blocks b.succs), ("unwind", blocks b.unwinds),
        ("father", .int (g.loops.father b.id)), ("cyclic", .bool (g.loops.inCycle b.id))])),
    ("acyclic_condensation", .bool g.loops.isAcyclic)]

end Dangling.Page
