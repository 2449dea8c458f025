import Dangling.Json.Value

/-!
# Mir — Location

Where in the source an instruction comes from.  The end of a span is carried as the dump gives it.
-/

namespace Dangling

/-- A place in a source file; column zero stands for the whole line. -/
structure Location where
  file : String
  line : Int
  column : Int := 0
  endLine : Json.Value := .null
  endColumn : Json.Value := .null
  deriving Repr, Inhabited

namespace Location

/-- Where nothing is known. -/
def unknown : Location := { file := "<unknown>", line := 0 }

/-- `file:line:column`, without a column of zero. -/
def text (l : Location) : String :=
  if l.column = 0 then s!"{l.file}:{l.line}" else s!"{l.file}:{l.line}:{l.column}"

/-- A location as a constructor call. -/
def quoted (l : Location) : String :=
  s!"Location({Text.quoted l.file}, {l.line}, {l.column})"

/-- A location as a document. -/
def toJson (l : Location) : Json.Value :=
  .obj [("file", .str l.file), ("line", .int l.line), ("column", .int l.column),
    ("end_line", l.endLine), ("end_column", l.endColumn)]

end Location

end Dangling
