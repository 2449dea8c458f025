import Dangling.Scan.Result

/-!
# Scan — Sarif

Results in the Static Analysis Results Interchange Format, version 2.1.0, as code scanning services
read them.
-/

namespace Dangling

/-- The version of this tool. -/
def toolVersion : String := "0.1.0"

namespace Sarif

/-- The level of a severity. -/
def level : Severity → String
  | .critical | .high => "error"

/-- The identifier of the rule that a misuse breaks. -/
def ruleId (m : Misuse) : String := "safedrop/" ++ m.word

/-- A text as a message. -/
def message (s : String) : Json.Value := .obj [("text", .str s)]

/-- The rule that a misuse breaks. -/
def rule (m : Misuse) : Json.Value :=
  .obj [("id", .str (ruleId m)), ("name", .str m.word), ("shortDescription", message m.title),
    ("defaultConfiguration", .obj [("level", .str (level m.severity))]),
    ("properties", .obj [("cwe", .str m.cweId)])]

/-- The file of a finding; a location without one is in the dump itself. -/
def uri (filename : String) (l : Location) : String :=
  if ['<'].isPrefixOf l.file.toList then filename else l.file

/-- A finding in a dump. -/
def result (filename : String) (f : Finding) : Json.Value :=
  .obj [("ruleId", .str (ruleId f.kind)), ("level", .str (level f.severity)),
    ("message", message (f.description ++ " in " ++ f.function)),
    ("locations", .arr [.obj [("physicalLocation", .obj [
      ("artifactLocation", .obj [("uri", .str (uri filename f.loc))]),
      ("region", .obj [("startLine", .int (max f.loc.line 1)),
        ("startColumn", .int (max f.loc.column 1))])])]])]

/-- The misuses found, in the order they are met first. -/
def misuses (fs : List Finding) : List Misuse :=
  fs.foldl (fun ms f => if ms.contains f.kind then ms else ms ++ [f.kind]) []

/-- All results in one run. -/
def document (rs : List ScanResult) : Json.Value :=
  .obj [("$schema", .str
      "https://raw.githubusercontent.com/oasis-tcs/sarif-spec/master/Schemata/sarif-schema-2.1.0.json"),
    ("version", .str "2.1.0"),
    ("runs", .arr [.obj [
      ("tool", .obj [("driver", .obj [("name", .str "SafeDrop"), ("version", .str toolVersion),
        ("rules", .arr ((misuses (rs.flatMap (·.findings))).map rule))])]),
      ("results", .arr (rs.flatMap fun r => r.findings.map (result r.filename)))]])]

end Sarif

end Dangling
