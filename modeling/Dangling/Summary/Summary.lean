import Dangling.Json.Value
import Dangling.Order.Sorted

/-!
# Summary — Summary

What a call does that its caller can see, said about slots: the result and the arguments, with the
fields below them.
-/

namespace Dangling

/-- The result of a function (slot zero) or one of its arguments, narrowed by fields. -/
structure Slot where
  slot : Nat
  fields : List String := []
  deriving DecidableEq, Repr, Inhabited

namespace Slot

/-- The name of a slot: `ret`, `arg1.buf`. -/
def text (s : Slot) : String :=
  ".".intercalate ((if s.slot = 0 then "ret" else s!"arg{s.slot}") :: s.fields)

/-- Comparison by number, then field by field. -/
def compare (s t : Slot) : Ordering :=
  (Ord.compare s.slot t.slot).then (Sorted.lexicographic Sorted.text s.fields t.fields)

/-- A slot as a document. -/
def toJson (s : Slot) : Json.Value := .arr [.int s.slot, .arr (s.fields.map .str)]

end Slot

/-- A slot whose memory is released when the function returns. -/
structure DroppedSlot where
  path : Slot
  /-- It was released by hand. -/
  manual : Bool := false
  deriving DecidableEq, Repr, Inhabited

namespace DroppedSlot

/-- A released slot as a text. -/
def text (d : DroppedSlot) : String := d.path.text ++ if d.manual then " (manual)" else ""

/-- Comparison by slot; releases by hand come last. -/
def compare (d e : DroppedSlot) : Ordering :=
  (d.path.compare e.path).then (Ord.compare d.manual.toNat e.manual.toNat)

/-- A released slot as a document. -/
def toJson (d : DroppedSlot) : Json.Value :=
  .obj [("slot", d.path.toJson), ("manual", .bool d.manual)]

end DroppedSlot

/-- Two slots that name the same memory. -/
abbrev AliasPair := Slot × Slot

namespace AliasPair

/-- Comparison by the first slot, then by the second. -/
def compare (p q : AliasPair) : Ordering := (p.1.compare q.1).then (p.2.compare q.2)

/-- Two slots in ascending order. -/
def ofSlots (s t : Slot) : AliasPair := if (s.compare t).isLE then (s, t) else (t, s)

/-- A pair as a document. -/
def toJson (p : AliasPair) : Json.Value := .arr [p.1.toJson, p.2.toJson]

end AliasPair

/-- The effect of a function on its slots: what holds at some return. -/
structure Summary where
  function : String
  argCount : Nat := 0
  /-- Slots that name the same memory; ascending, each pair once. -/
  aliases : List AliasPair := []
  /-- Slots whose memory is released; ascending, each once. -/
  dropped : List DroppedSlot := []
  /-- All paths were walked. -/
  complete : Bool := true
  deriving DecidableEq, Repr, Inhabited

namespace Summary

/-- A summary of these aliases and releases, in any order. -/
def ofLists (function : String) (argCount : Nat) (aliases : List AliasPair)
    (dropped : List DroppedSlot) (complete : Bool) : Summary :=
  { function, argCount, complete, aliases := Sorted.ofList AliasPair.compare aliases,
    dropped := Sorted.ofList DroppedSlot.compare dropped }

/-- A function without effects. -/
def unknown (function : String) (argCount : Nat) : Summary := { function, argCount }

/-- A summary as a document. -/
def toJson (s : Summary) : Json.Value :=
  .obj [("function", .str s.function), ("arg_count", .int s.argCount),
    ("aliases", .arr (s.aliases.map AliasPair.toJson)),
    ("dropped", .arr (s.dropped.map DroppedSlot.toJson)), ("complete", .bool s.complete)]

end Summary

end Dangling
