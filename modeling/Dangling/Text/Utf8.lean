import Dangling.Text.Quoted

/-!
# Text — Utf8

Reading bytes as UTF-8.  Only the shortest form of a character counts, and no halves of surrogate
pairs.
-/

namespace Dangling.Text

/-- What is wrong with a byte sequence. -/
inductive Utf8Lack where
  | start | continuation | ending
  deriving DecidableEq, Repr, Inhabited

/-- The wording of a fault. -/
def Utf8Lack.message : Utf8Lack → String
  | start => "invalid start byte"
  | continuation => "invalid continuation byte"
  | ending => "unexpected end of data"

/-- The bytes from `position` on that are no character; `first` is the first of `count`. -/
structure Utf8Fault where
  lack : Utf8Lack
  position : Nat
  count : Nat
  first : Nat
  deriving DecidableEq, Repr, Inhabited

/-- The wording of a fault, with the bytes it concerns. -/
def Utf8Fault.message (f : Utf8Fault) : String :=
  "'utf-8' codec can't decode " ++
    (if f.count = 1 then s!"byte 0x{String.ofList (hex 2 f.first)} in position {f.position}"
      else s!"bytes in position {f.position}-{f.position + f.count - 1}") ++
    ": " ++ f.lack.message

namespace Utf8

/-- The number of bytes that follow a first byte, and the bits that it adds. -/
def lead? (b : Nat) : Option (Nat × Nat) :=
  if b < 0xC2 then none
  else if b < 0xE0 then some (1, b - 0xC0)
  else if b < 0xF0 then some (2, b - 0xE0)
  else if b < 0xF5 then some (3, b - 0xF0)
  else none

/-- A byte that goes on with a character. -/
def isTail (b : Nat) : Bool := decide (0x80 ≤ b) && decide (b < 0xC0)

/-- A byte that may follow the first byte `lead`. -/
def isSecond (lead b : Nat) : Bool :=
  isTail b && (lead != 0xE0 || decide (0xA0 ≤ b)) && (lead != 0xED || decide (b < 0xA0)) &&
    (lead != 0xF0 || decide (0x90 ≤ b)) && (lead != 0xF4 || decide (b < 0x90))

/-- A character of which the first bytes are read. -/
structure Pending where
  lead : Nat
  value : Nat
  read : Nat
  left : Nat

/-- The characters of the bytes from `position` on, with the characters before them in reverse and
the bytes read of the next one. -/
def decode (done : List Char) : (position : Nat) → Option Pending → List UInt8 →
    Except Utf8Fault (List Char)
  | _, none, [] => .ok done.reverse
  | position, some p, [] => .error ⟨.ending, position - p.read, p.read, p.lead⟩
  | position, none, b :: rest =>
    let b := b.toNat
    if b < 0x80 then decode (Char.ofNat b :: done) (position + 1) none rest
    else
      match lead? b with
      | some (left, value) => decode done (position + 1) (some ⟨b, value, 1, left⟩) rest
      | none => .error ⟨.start, position, 1, b⟩
  | position, some p, b :: rest =>
    let b := b.toNat
    if (if p.read = 1 then isSecond p.lead b else isTail b) then
      let value := p.value * 64 + (b - 0x80)
      if p.left = 1 then decode (Char.ofNat value :: done) (position + 1) none rest
      else decode done (position + 1) (some ⟨p.lead, value, p.read + 1, p.left - 1⟩) rest
    else .error ⟨.continuation, position - p.read, p.read, p.lead⟩

end Utf8

/-- Every line break as one line feed. -/
def unifyBreaks : List Char → List Char
  | '\r' :: '\n' :: rest => '\n' :: unifyBreaks rest
  | '\r' :: rest => '\n' :: unifyBreaks rest
  | c :: rest => c :: unifyBreaks rest
  | [] => []

/-- The text of a file. -/
def ofBytes (bytes : List UInt8) : Except Utf8Fault String :=
  (Utf8.decode [] 0 none bytes).map fun cs => String.ofList (unifyBreaks cs)

end Dangling.Text
