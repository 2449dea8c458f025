import Dangling.Mir.Location
import Dangling.Mir.Rvalue

/-!
# Mir — Instruction

Statements, which have no control flow, and the terminators that end basic blocks.
-/

namespace Dangling

/-- What a statement does. -/
inductive StatementKind where
  | assign (place : Place) (rvalue : Rvalue)
  /-- The storage of a local begins. -/
  | storageLive (base : Int)
  /-- The storage of a local ends. -/
  | storageDead (base : Int)
  | nop
  deriving Repr, Inhabited

/-- A statement and where it comes from. -/
structure Statement where
  loc : Location
  kind : StatementKind
  deriving Repr, Inhabited

namespace Statement

/-- The text of a statement. -/
def text (s : Statement) : String :=
  match s.kind with
  | .assign p r => p.text ++ " = " ++ r.text
  | .storageLive n => s!"StorageLive(_{n})"
  | .storageDead n => s!"StorageDead(_{n})"
  | .nop => "nop"

/-- The places that a statement's operands read. -/
def reads (s : Statement) : List Place :=
  match s.kind with
  | .assign _ r => r.operands.filterMap (·.place?)
  | _ => []

/-- The places that a statement writes. -/
def writes (s : Statement) : List Place :=
  match s.kind with
  | .assign p _ => [p]
  | _ => []

/-- Every place that a statement mentions. -/
def places (s : Statement) : List Place :=
  s.reads ++ s.writes ++
    match s.kind with
    | .assign _ r => r.target?.toList
    | _ => []

end Statement

/-- The number of a basic block. -/
abbrev BlockId := Int

/-- How a basic block ends. -/
inductive TerminatorKind where
  | goto (target : BlockId)
  /-- Goes to the block of the arm that holds the operand's value, else to `otherwise`. -/
  | switchInt (discr : Operand) (arms : List (Int × BlockId)) (otherwise : Option BlockId)
  | ret
  /-- Calls the function at path `callee`; without a target the call does not come back. -/
  | call (callee : String) (args : List Operand) (destination : Place) (target : Option BlockId)
      (unwind : Option BlockId)
  /-- Drops a value at the end of its scope, if it is still there. -/
  | drop (place : Place) (target : BlockId) (unwind : Option BlockId)
  /-- Goes on if the operand is as expected, and panics otherwise. -/
  | assert (cond : Operand) (expected : Bool) (target : BlockId) (unwind : Option BlockId)
  | unreachable
  | resume
  | abort
  deriving Repr, Inhabited

/-- A terminator and where it comes from. -/
structure Terminator where
  loc : Location
  kind : TerminatorKind
  deriving Repr, Inhabited

namespace TerminatorKind

/-- The word for a terminator. -/
def word : TerminatorKind → String
  | .goto _ => "goto"
  | .switchInt _ _ _ => "switch_int"
  | .ret => "return"
  | .call _ _ _ _ _ => "call"
  | .drop _ _ _ => "drop"
  | .assert _ _ _ _ => "assert"
  | .unreachable => "unreachable"
  | .resume => "resume"
  | .abort => "abort"

/-- `b` added to `bs`, unless it is there. -/
def addBlock (bs : List BlockId) (b : BlockId) : List BlockId :=
  if bs.contains b then bs else bs ++ [b]

/-- The blocks that control goes to when nothing fails. -/
def successors : TerminatorKind → List BlockId
  | .goto b => [b]
  | .switchInt _ arms otherwise =>
    (arms.map (·.2) ++ otherwise.toList).foldl addBlock []
  | .call _ _ _ target _ => target.toList
  | .drop _ b _ => [b]
  | .assert _ _ b _ => [b]
  | .ret | .unreachable | .resume | .abort => []

/-- The blocks that control goes to on a panic. -/
def unwinds : TerminatorKind → List BlockId
  | .call _ _ _ _ unwind => unwind.toList
  | .drop _ _ unwind => unwind.toList
  | .assert _ _ _ unwind => unwind.toList
  | _ => []

end TerminatorKind

namespace Terminator

/-- The arms of a switch as a text. -/
def armsText (arms : List (Int × BlockId)) (otherwise : Option BlockId) : String :=
  ", ".intercalate (arms.map (fun (v, b) => s!"{v}: bb{b}") ++
    (otherwise.map fun b => s!"otherwise: bb{b}").toList)

/-- The text of a terminator. -/
def text (t : Terminator) : String :=
  match t.kind with
  | .goto b => s!"goto -> bb{b}"
  | .switchInt d arms otherwise =>
    "switchInt(" ++ d.text ++ ") -> [" ++ armsText arms otherwise ++ "]"
  | .ret => "return"
  | .call f args dest _ _ =>
    dest.text ++ " = " ++ f ++ "(" ++ ", ".intercalate (args.map (·.text)) ++ ")"
  | .drop p b _ => "drop(" ++ p.text ++ s!") -> bb{b}"
  | .assert c expected b _ =>
    "assert(" ++ c.text ++ " == " ++ (if expected then "True" else "False") ++ s!") -> bb{b}"
  | .unreachable => "unreachable"
  | .resume => "resume"
  | .abort => "abort"

/-- The places that a terminator's operands read. -/
def reads (t : Terminator) : List Place :=
  match t.kind with
  | .switchInt d _ _ => d.place?.toList
  | .call _ args _ _ _ => args.filterMap (·.place?)
  | .assert c _ _ _ => c.place?.toList
  | _ => []

/-- The places that a terminator writes. -/
def writes (t : Terminator) : List Place :=
  match t.kind with
  | .call _ _ dest _ _ => [dest]
  | _ => []

/-- Every place that a terminator mentions. -/
def places (t : Terminator) : List Place :=
  t.reads ++ t.writes ++
    match t.kind with
    | .drop p _ _ => [p]
    | _ => []

end Terminator

end Dangling
