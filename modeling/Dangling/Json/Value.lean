import Dangling.Number.Binary64
import Dangling.Text.Quoted

/-!
# Json — Value

Decoded documents.  Object members keep the order they were written in; whole numbers are unbounded
and are told apart from decimals.  `text` and `quoted` are how messages show a value.
-/

namespace Dangling.Json

/-- A decoded document. -/
inductive Value where
  | null
  | bool (b : Bool)
  | int (i : Int)
  | float (x : Binary64)
  | str (s : String)
  | arr (items : List Value)
  | obj (members : List (String × Value))
  deriving Repr, Inhabited

namespace Value

/-- Null, false, zero and everything empty count as false. -/
def truthy : Value → Bool
  | .null => false
  | .bool b => b
  | .int i => i != 0
  | .float x => !x.isZero
  | .str s => s != ""
  | .arr items => !items.isEmpty
  | .obj members => !members.isEmpty

/-- The member `key` of a list of members. -/
def find? (key : String) (members : List (String × Value)) : Option Value :=
  members.lookup key

mutual

/-- A value as messages quote it: texts between quotes, members as `'key': value`. -/
def quoted : Value → String
  | .null => "None"
  | .bool b => if b then "True" else "False"
  | .int i => toString i
  | .float x => x.text
  | .str s => Text.quoted s
  | .arr items => "[" ++ ", ".intercalate (quotedItems items) ++ "]"
  | .obj members => "\x7b" ++ ", ".intercalate (quotedMembers members) ++ "\x7d"

/-- The items of a list, each quoted. -/
def quotedItems : List Value → List String
  | [] => []
  | v :: rest => quoted v :: quotedItems rest

/-- The members of an object, each quoted. -/
def quotedMembers : List (String × Value) → List String
  | [] => []
  | (k, v) :: rest => (Text.quoted k ++ ": " ++ quoted v) :: quotedMembers rest

end

/-- A value as messages show it: a text as it is, everything else quoted. -/
def text : Value → String
  | .str s => s
  | v => v.quoted

/-- The members of an object. -/
def members? : Value → Option (List (String × Value))
  | .obj members => some members
  | _ => none

/-- The text of a value. -/
def str? : Value → Option String
  | .str s => some s
  | _ => none

/-- What a value holds when gone through one by one: the items of a list, the characters of a text,
the keys of an object. -/
def elements? : Value → Option (List Value)
  | .arr items => some items
  | .str s => some (s.toList.map fun c => .str (String.singleton c))
  | .obj members => some (members.map fun m => .str m.1)
  | _ => none

/-- The member `key` of an object, null when there is none. -/
def get (v : Value) (key : String) : Value :=
  match v with
  | .obj members => (find? key members).getD .null
  | _ => .null

end Value

end Dangling.Json
