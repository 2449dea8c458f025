import Dangling.Json.Value
import Dangling.Order.Distinct

/-!
# Json — Reader

Reading documents.  A refusal names what was expected and where: the position counts characters
from zero, lines count from one, and the column is the distance from the last line break.  Beside
the standard numbers, `NaN`, `Infinity` and `-Infinity` are read.
-/

namespace Dangling.Json

/-- What a text that is no document lacks. -/
inductive Lack where
  | value
  | propertyName
  | colon
  | comma
  | closingQuote
  | controlCharacter
  | escape
  | unicodeEscape
  | endOfText
  | byteOrderMark
  deriving DecidableEq, Repr

/-- The wording of a lack. -/
def Lack.message : Lack → String
  | .value => "Expecting value"
  | .propertyName => "Expecting property name enclosed in double quotes"
  | .colon => "Expecting ':' delimiter"
  | .comma => "Expecting ',' delimiter"
  | .closingQuote => "Unterminated string starting at"
  | .controlCharacter => "Invalid control character at"
  | .escape => "Invalid \\escape"
  | .unicodeEscape => "Invalid \\uXXXX escape"
  | .endOfText => "Extra data"
  | .byteOrderMark => "Unexpected UTF-8 BOM (decode using utf-8-sig)"

/-- A refusal while reading, with the text from the place it speaks of on. -/
structure Refusal where
  lack : Lack
  rest : List Char
  deriving DecidableEq, Repr

/-- Why a text is no document: what it lacks, at which line, column and position. -/
structure ReadError where
  lack : Lack
  line : Nat
  column : Nat
  position : Nat
  deriving DecidableEq, Repr

/-- The wording of a refusal. -/
def ReadError.message (e : ReadError) : String :=
  s!"{e.lack.message}: line {e.line} column {e.column} (char {e.position})"

namespace Reader

/-- The four blanks of the format. -/
def isSpace (c : Char) : Bool := c == ' ' || c == '\t' || c == '\n' || c == '\r'

/-- The text after the blanks at its front. -/
def skip (cs : List Char) : List Char := cs.dropWhile isSpace

/-- Refuses at the front of `cs`. -/
def refuse {α : Type} (lack : Lack) (cs : List Char) : Except Refusal α :=
  .error ⟨lack, cs⟩

/-- The value of a hexadecimal digit. -/
def hexValue? (c : Char) : Option Nat :=
  if c.isDigit then some (c.toNat - 0x30)
  else if 'a' ≤ c ∧ c ≤ 'f' then some (c.toNat - 0x57)
  else if 'A' ≤ c ∧ c ≤ 'F' then some (c.toNat - 0x37)
  else none

/-- The code unit of the four hexadecimal digits after `\u`, if another character follows them. -/
def codeUnit? : List Char → Option (Nat × List Char)
  | a :: b :: c :: d :: e :: rest => do
    let a ← hexValue? a
    let b ← hexValue? b
    let c ← hexValue? c
    let d ← hexValue? d
    some (((a * 16 + b) * 16 + c) * 16 + d, e :: rest)
  | _ => none

/-- The first half of a pair of code units. -/
def isHighHalf (n : Nat) : Bool := decide (0xD800 ≤ n) && decide (n ≤ 0xDBFF)

/-- The second half of a pair of code units. -/
def isLowHalf (n : Nat) : Bool := decide (0xDC00 ≤ n) && decide (n ≤ 0xDFFF)

/-- The character of a code unit; a half on its own is shown by the replacement character. -/
def unitChar (n : Nat) : Char := if isHighHalf n || isLowHalf n then '\ufffd' else Char.ofNat n

/-- The character of an escape `\u`, whose digits start `cs`. A first half joins the second half in
the escape right after it. -/
def unicodeEscape (cs : List Char) : Except Refusal (Char × List Char) :=
  match codeUnit? cs with
  | none => refuse .unicodeEscape ('u' :: cs)
  | some (high, rest) =>
    match rest with
    | '\\' :: 'u' :: more =>
      if isHighHalf high && decide (4 < more.length) then
        match codeUnit? more with
        | none => refuse .unicodeEscape ('u' :: more)
        | some (low, rest') =>
          if isLowHalf low then
            .ok (Char.ofNat (0x10000 + (high - 0xD800) * 0x400 + (low - 0xDC00)), rest')
          else .ok (unitChar high, rest)
      else .ok (unitChar high, rest)
    | _ => .ok (unitChar high, rest)

/-- The character of a one-letter escape. -/
def letterEscape? : Char → Option Char
  | '\x22' => some '\x22'
  | '\\' => some '\\'
  | '/' => some '/'
  | 'b' => some '\x08'
  | 'f' => some '\x0c'
  | 'n' => some '\n'
  | 'r' => some '\r'
  | 't' => some '\t'
  | _ => none

/-- The rest of a string after its opening quote; `opened` is the text from that quote on and `acc`
holds the characters so far, last first. -/
def string (opened : List Char) : (fuel : Nat) → List Char → List Char →
    Except Refusal (String × List Char)
  | 0, _, _ => refuse .closingQuote opened
  | fuel + 1, acc, cs =>
    match cs with
    | [] => refuse .closingQuote opened
    | '\x22' :: rest => .ok (String.ofList acc.reverse, rest)
    | '\\' :: [] => refuse .closingQuote opened
    | '\\' :: 'u' :: rest => do
      let (c, rest) ← unicodeEscape rest
      string opened fuel (c :: acc) rest
    | '\\' :: c :: rest =>
      match letterEscape? c with
      | some d => string opened fuel (d :: acc) rest
      | none => refuse .escape cs
    | c :: rest =>
      if c.toNat < 0x20 then refuse .controlCharacter cs
      else string opened fuel (c :: acc) rest

/-- The whole number that ASCII digits write. -/
def digitsValue (ds : List Char) : Nat := ds.foldl (fun n c => n * 10 + (c.toNat - 0x30)) 0

/-- The fraction at the front of `cs`: a point and at least one digit. -/
def fraction (cs : List Char) : List Char × List Char :=
  match cs with
  | '.' :: rest => let ds := rest.takeWhile Char.isDigit
    if ds.isEmpty then ([], cs) else (ds, rest.dropWhile Char.isDigit)
  | _ => ([], cs)

/-- The exponent at the front of `cs`: `e`, an optional sign and at least one digit. -/
def exponent (cs : List Char) : Option Int × List Char :=
  match cs with
  | e :: rest =>
    if e == 'e' || e == 'E' then
      let (negative, rest) := match rest with
        | '-' :: more => (true, more)
        | '+' :: more => (false, more)
        | more => (false, more)
      let ds := rest.takeWhile Char.isDigit
      if ds.isEmpty then (none, cs)
      else
        let n : Int := digitsValue ds
        (some (if negative then -n else n), rest.dropWhile Char.isDigit)
    else (none, cs)
  | [] => (none, cs)

/-- The digits of a number's whole part: a lone zero, or digits that start with none. -/
def wholePart : List Char → Option (List Char × List Char)
  | '0' :: rest => some (['0'], rest)
  | c :: rest => if c.isDigit then
      some (c :: rest.takeWhile Char.isDigit, rest.dropWhile Char.isDigit) else none
  | [] => none

/-- A number; a fraction or an exponent makes it a decimal. -/
def number (cs : List Char) : Except Refusal (Value × List Char) :=
  let (negative, unsigned) := match cs with
    | '-' :: rest => (true, rest)
    | _ => (false, cs)
  match wholePart unsigned with
  | none => refuse .value cs
  | some (whole, rest) =>
    let (frac, rest) := fraction rest
    let (exp, rest) := exponent rest
    if frac.isEmpty && exp.isNone then
      let n : Int := digitsValue whole
      .ok (.int (if negative then -n else n), rest)
    else
      let x := Binary64.ofDecimal negative (digitsValue (whole ++ frac))
        (exp.getD 0 - frac.length)
      .ok (.float x, rest)

/-- The rest of `cs` after `word`. -/
def afterWord? (word : String) (cs : List Char) : Option (List Char) :=
  if word.toList.isPrefixOf cs then some (cs.drop word.length) else none

/-- A word of the format, or a number. -/
def scalar (cs : List Char) : Except Refusal (Value × List Char) :=
  match afterWord? "null" cs with
  | some rest => .ok (.null, rest)
  | none =>
  match afterWord? "true" cs with
  | some rest => .ok (.bool true, rest)
  | none =>
  match afterWord? "false" cs with
  | some rest => .ok (.bool false, rest)
  | none =>
  match afterWord? "NaN" cs with
  | some rest => .ok (.float .nan, rest)
  | none =>
  match afterWord? "Infinity" cs with
  | some rest => .ok (.float (.infinite false), rest)
  | none =>
  match afterWord? "-Infinity" cs with
  | some rest => .ok (.float (.infinite true), rest)
  | none => number cs

mutual

/-- A value at the front of the text. -/
def value : (fuel : Nat) → List Char → Except Refusal (Value × List Char)
  | 0, cs => refuse .value cs
  | fuel + 1, cs =>
    match cs with
    | '\x22' :: rest => do
      let (s, rest) ← string cs fuel [] rest
      .ok (.str s, rest)
    | '[' :: rest =>
      match skip rest with
      | ']' :: rest => .ok (.arr [], rest)
      | rest => do
        let (items, rest) ← items fuel rest
        .ok (.arr items, rest)
    | '\x7b' :: rest =>
      match skip rest with
      | '\x7d' :: rest => .ok (.obj [], rest)
      | rest => do
        let (members, rest) ← members fuel [] rest
        .ok (.obj members, rest)
    | _ => scalar cs

/-- The items of a list, up to and with its closing bracket. -/
def items : (fuel : Nat) → List Char → Except Refusal (List Value × List Char)
  | 0, cs => refuse .value cs
  | fuel + 1, cs => do
    let (v, rest) ← value fuel cs
    match skip rest with
    | ']' :: rest => .ok ([v], rest)
    | ',' :: rest =>
      let (vs, rest) ← items fuel (skip rest)
      .ok (v :: vs, rest)
    | rest => refuse .comma rest

/-- The members of an object after those of `acc`, up to and with its closing brace. -/
def members : (fuel : Nat) → List (String × Value) → List Char →
    Except Refusal (List (String × Value) × List Char)
  | 0, _, cs => refuse .value cs
  | fuel + 1, acc, cs =>
    match cs with
    | '\x22' :: rest => do
      let (key, rest) ← string cs fuel [] rest
      match skip rest with
      | ':' :: rest =>
        let (v, rest) ← value fuel (skip rest)
        let acc := putBy Prod.fst (key, v) acc
        match skip rest with
        | '\x7d' :: rest => .ok (acc, rest)
        | ',' :: rest => members fuel acc (skip rest)
        | rest => refuse .comma rest
      | rest => refuse .colon rest
    | _ => refuse .propertyName cs

end

/-- A whole document with blanks around it. -/
def document (cs : List Char) : Except Refusal Value :=
  match cs with
  | '\ufeff' :: _ => refuse .byteOrderMark cs
  | _ => do
    let (v, rest) ← value (2 * cs.length + 2) (skip cs)
    match skip rest with
    | [] => .ok v
    | rest => refuse .endOfText rest

/-- Line, column and position of the place in `cs` that `rest` follows. -/
def locate (lack : Lack) (cs rest : List Char) : ReadError :=
  let before := cs.take (cs.length - rest.length)
  { lack
    line := before.count '\n' + 1
    column := (before.reverse.takeWhile (· != '\n')).length + 1
    position := before.length }

end Reader

/-- Reads a document. -/
def read (s : String) : Except ReadError Value :=
  let cs := s.toList
  match Reader.document cs with
  | .ok v => .ok v
  | .error r => .error (Reader.locate r.lack cs r.rest)

end Dangling.Json
