import Dangling.Text.Blank
import Dangling.Text.Digit

/-!
# Text — Numeral

Reading integers.  Digits of every script count, one underscore may stand between two digits, and
white space around the numeral is ignored.
-/

namespace Dangling.Text

/-- The number a list of decimal digits writes, on top of what `n` already holds. -/
def decimalValue (n : Nat) (ds : List Char) : Nat :=
  ds.foldl (fun n c => n * 10 + (decimal? c).getD 0) n

/-- Digits with single underscores between them, on top of what `n` already holds. -/
def readDigits (n : Nat) : List Char → Option Nat
  | [] => none
  | [c] => (decimal? c).map (n * 10 + ·)
  | c :: '_' :: rest => do readDigits (n * 10 + (← decimal? c)) rest
  | c :: rest => do readDigits (n * 10 + (← decimal? c)) rest

/-- White space that a numeral may stand in: all of it but the four ASCII separators. -/
def isNumeralBlank (c : Char) : Bool :=
  isBlank c && !(decide (0x1C ≤ c.toNat) && decide (c.toNat ≤ 0x1F))

/-- Reads an integer: blanks, an optional sign, digits, blanks. -/
def readInt? (s : String) : Option Int :=
  match trim isNumeralBlank s.toList with
  | '-' :: ds => (readDigits 0 ds).map fun n => -(n : Int)
  | '+' :: ds => (readDigits 0 ds).map Int.ofNat
  | ds => (readDigits 0 ds).map Int.ofNat

end Dangling.Text
