import Dangling.Mir.Instruction
import Dangling.Order.Sorted

/-!
# Mir — Body

Functions: their locals, of which the first holds the result, and their basic blocks.  Block numbers
are those of the dump; the block with the smallest number is the entry.
-/

namespace Dangling

/-- The debug name of a local.  A dump may give something else than a text: it shows in the
declaration, but labels nothing. -/
inductive LocalName where
  | text (name : String)
  | other (shown : String)
  deriving DecidableEq, Repr, Inhabited

/-- How a name shows. -/
def LocalName.shown : LocalName → String
  | .text name => name
  | .other shown => shown

/-- A declared local. -/
structure LocalDecl where
  ty : Ty
  name : Option LocalName := none
  deriving Repr, Inhabited

/-- The declaration of local `i` as a text. -/
def LocalDecl.text (i : Nat) (d : LocalDecl) : String :=
  s!"_{i}: " ++ d.ty.text ++
    match d.name with
    | some n => " (" ++ n.shown ++ ")"
    | none => ""

/-- A basic block.  Cleanup blocks are reached by panics only. -/
structure Block where
  id : BlockId
  statements : List Statement
  terminator : Terminator
  isCleanup : Bool := false
  deriving Repr, Inhabited

namespace Block

/-- The blocks that control goes to when nothing fails. -/
def successors (b : Block) : List BlockId := b.terminator.kind.successors

/-- The blocks that control goes to on a panic. -/
def unwinds (b : Block) : List BlockId := b.terminator.kind.unwinds

/-- All blocks that control goes to. -/
def allSuccessors (b : Block) : List BlockId :=
  b.unwinds.foldl TerminatorKind.addBlock b.successors

/-- The text of a block. -/
def text (b : Block) : String :=
  "\n".intercalate
    ((s!"bb{b.id}" ++ (if b.isCleanup then " (cleanup)" else "") ++ ":") ::
      (b.statements.map fun s => "    " ++ s.text ++ ";") ++ ["    " ++ b.terminator.text ++ ";"])

end Block

/-- A function. -/
structure Body where
  name : String
  argCount : Nat := 0
  locals : List LocalDecl := []
  blocks : List Block := []
  /-- No two blocks have the same number. -/
  distinct : (blocks.map (·.id)).Nodup := by exact .nil
  loc : Option Location := none
  /-- The dump has code for the function. -/
  hasBody : Bool := true
  /-- Why the function could not be read. -/
  parseError : Option String := none
  deriving Repr, Inhabited

namespace Body

/-- The header of a function. -/
def text (b : Body) : String :=
  let params := (b.locals.zipIdx.drop 1).take b.argCount
  let result := match b.locals with
    | d :: _ => " -> " ++ d.ty.text
    | [] => ""
  "fn " ++ b.name ++ "(" ++ ", ".intercalate (params.map fun (d, i) => d.text i) ++ ")" ++ result

/-- The blocks in the order of their numbers. -/
def sortedBlocks (b : Body) : List Block :=
  Sorted.sortBy (fun x y => decide (x.id ≤ y.id)) b.blocks

/-- The block where execution starts. -/
def entry? (b : Body) : Option BlockId := b.sortedBlocks.head?.map (·.id)

/-- The type of a local; unknown if it is not declared. -/
def localType (b : Body) (i : Nat) : Ty := (b.locals[i]?.map (·.ty)).getD Ty.unknown

/-- The callee paths of the calls in a function, by block number. -/
def callees (b : Body) : List String :=
  b.sortedBlocks.filterMap fun blk =>
    match blk.terminator.kind with
    | .call f _ _ _ _ => some f
    | _ => none

/-- A character that ends a line. -/
def isLineBreak (c : Char) : Bool :=
  let n := c.toNat
  (decide (0x0A ≤ n) && decide (n ≤ 0x0D)) || (decide (0x1C ≤ n) && decide (n ≤ 0x1E)) ||
    n == 0x85 || n == 0x2028 || n == 0x2029

/-- The lines of a text, without what ends them; no line follows the last break. -/
def lines (s : String) : List String :=
  go [] s.toList
where
  /-- The lines of `cs`, the first one after the characters of `acc`. -/
  go (acc : List Char) : List Char → List String
    | [] => if acc.isEmpty then [] else [String.ofList acc.reverse]
    | '\r' :: '\n' :: rest => String.ofList acc.reverse :: go [] rest
    | c :: rest =>
      if isLineBreak c then String.ofList acc.reverse :: go [] rest else go (c :: acc) rest

/-- A function with its locals and blocks, one item a line. -/
def pretty (b : Body) : String :=
  "\n".intercalate
    ((b.text ++ " \x7b") ::
      (b.locals.zipIdx.map fun (d, i) => "    let " ++ d.text i ++ ";") ++
      (b.sortedBlocks.flatMap fun blk => (lines blk.text).map ("    " ++ ·)) ++ ["\x7d"])

end Body

end Dangling
