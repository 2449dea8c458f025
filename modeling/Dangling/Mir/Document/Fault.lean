import Dangling.Json.Reader
import Dangling.Mir.Operand.Reader
import Dangling.Mir.Ty.Fault

/-!
# Mir — Document — Fault

Why a dump is refused.  A *fault* is something that the reader of dumps looks for; a fault inside a
function stays with that function.  A *breakdown* is a value of a shape that nothing looked for, and
takes the whole document with it.
-/

namespace Dangling

/-- What is wrong with a document. -/
inductive DocumentFault where
  | notJson (error : Json.ReadError)
  | notObject
  | adtsNotObject
  | functionsNotList
  | namelessFunction
  | duplicateFunction (name : String)
  deriving Repr

/-- The wording of a fault, after the file name. -/
def DocumentFault.message : DocumentFault → String
  | .notJson e => "invalid JSON: " ++ e.message
  | .notObject => "document must be an object"
  | .adtsNotObject => "'adts' must be an object"
  | .functionsNotList => "'functions' must be a list"
  | .namelessFunction => "function entries need a 'name'"
  | .duplicateFunction name => "duplicate function " ++ Text.quoted name

/-- What is wrong with a function. -/
inductive FunctionFault where
  | type (fault : TypeFault)
  | span (got : Json.Value)
  | argCount (got : Json.Value)
  | localsNotList
  | localDecl (index : Nat)
  | blocksNotList
  | blockNotObject (position : Nat)
  | blockId (got : Json.Value)
  | duplicateBlock (id : Int)
  | noTerminator (id : Int)
  | statementNotObject (got : Json.Value)
  | statementKind (got : Json.Value)
  | terminatorNotObject (got : Json.Value)
  | terminatorKind (got : Json.Value)
  | switchArm
  | switchValue
  | noCallee
  | rawBorrow (got : String)
  | rvalue (got : Json.Value)
  | rvalueKind (got : Json.Value)
  | binaryOp (got : Json.Value)
  | unaryOp (got : Json.Value)
  | missing (key : String) (kind : Json.Value)
  | localNumber (got : Json.Value)
  | blockReference (got : Json.Value)
  deriving Repr

/-- The wording of a fault, after the function's name. -/
def FunctionFault.message : FunctionFault → String
  | .type fault => fault.message
  | .span got => "invalid span " ++ got.quoted
  | .argCount got => "invalid arg_count " ++ got.quoted
  | .localsNotList => "'locals' must be a list"
  | .localDecl i => s!"invalid local #{i}"
  | .blocksNotList => "'blocks' must be a list or null"
  | .blockNotObject i => s!"block #{i} must be an object"
  | .blockId got => "invalid block id " ++ got.quoted
  | .duplicateBlock id => s!"duplicate block bb{id}"
  | .noTerminator id => s!"bb{id} has no terminator"
  | .statementNotObject got => "statement must be an object: " ++ got.quoted
  | .statementKind got => "unknown statement kind " ++ got.quoted
  | .terminatorNotObject got => "terminator must be an object: " ++ got.quoted
  | .terminatorKind got => "unknown terminator kind " ++ got.quoted
  | .switchArm => "switch arm must be [value, block]"
  | .switchValue => "switch value must be an integer"
  | .noCallee => "call needs a 'func' path"
  | .rawBorrow got => "invalid raw borrow " ++ Text.quoted got
  | .rvalue got => "invalid rvalue " ++ got.quoted
  | .rvalueKind got => "unknown rvalue kind " ++ got.quoted
  | .binaryOp got => "unknown binary operator " ++ got.quoted
  | .unaryOp got => "unknown unary operator " ++ got.quoted
  | .missing key kind => s!"missing {Text.quoted key} in {kind.text}"
  | .localNumber got => "invalid local " ++ got.quoted
  | .blockReference got => "invalid block reference " ++ got.quoted

/-- What is wrong, and where: in a file, in a function, or in a place or an operand by itself. -/
inductive Fault where
  | document (file : String) (cause : DocumentFault)
  | function (name : String) (cause : FunctionFault)
  | place (cause : PlaceFault)
  | operand (cause : OperandFault)
  deriving Repr

/-- The wording of a fault. -/
def Fault.message : Fault → String
  | .document file cause => file ++ ": " ++ cause.message
  | .function name cause => name ++ ": " ++ cause.message
  | .place cause => cause.message
  | .operand cause => cause.message

/-- A value of a shape that nothing looks for. -/
inductive Breakdown where
  /-- A list is expected, and the value holds nothing to go through. -/
  | notList
  /-- A name is expected, and a list or an object cannot be one. -/
  | notName
  /-- A digit of a block reference is no decimal digit. -/
  | numeral
  /-- A line or column is infinite. -/
  | infinite
  /-- A declared type contains itself without end. -/
  | endlessType
  deriving DecidableEq, Repr

/-- Why a document cannot be read. -/
inductive Refusal where
  | fault (cause : Fault)
  | breakdown (cause : Breakdown)
  deriving Repr

end Dangling
