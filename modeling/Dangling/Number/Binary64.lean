/-!
# Number — Binary64

Double precision numbers as sign, significand and exponent of two, so that reading and writing
decimals is exact arithmetic on natural numbers.  `ofDecimal` rounds to the nearest number, a tie to
the even significand; `shortest` gives the fewest digits that read back.
-/

namespace Dangling

/-- A double precision number: `± significand · 2 ^ exponent`, an infinity, or no number. -/
inductive Binary64 where
  | finite (negative : Bool) (significand : Nat) (exponent : Int)
  | infinite (negative : Bool)
  | nan
  deriving DecidableEq, Repr, Inhabited

namespace Binary64

/-- The quotient `num / den` rounded to a whole number, a tie to the even one. -/
def roundDiv (num den : Nat) : Nat :=
  let q := num / den
  let r := num % den
  if 2 * r < den then q
  else if den < 2 * r then q + 1
  else if q % 2 = 0 then q else q + 1

/-- The fraction `num / den` times `2 ^ e`, as a fraction. -/
def scale2 (num den : Nat) (e : Int) : Nat × Nat :=
  if 0 ≤ e then (num * Nat.pow 2 e.toNat, den) else (num, den * Nat.pow 2 (-e).toNat)

/-- The fraction `num / den` times `10 ^ e`, as a fraction. -/
def scale10 (num den : Nat) (e : Int) : Nat × Nat :=
  if 0 ≤ e then (num * Nat.pow 10 e.toNat, den) else (num, den * Nat.pow 10 (-e).toNat)

/-- The greatest `e` with `2 ^ e ≤ num / den`, for a positive fraction. -/
def floorLog2 (num den : Nat) : Int :=
  let e : Int := (Nat.log2 num : Int) - (Nat.log2 den : Int)
  let (n, d) := scale2 num den (-e)
  if d ≤ n then e else e - 1

/-- The number nearest to the positive fraction `num / den`. -/
def ofFraction (negative : Bool) (num den : Nat) : Binary64 :=
  let e := max (floorLog2 num den - 52) (-1074)
  let (n, d) := scale2 num den (-e)
  let m := roundDiv n d
  let (m, e) := if m = Nat.pow 2 53 then (Nat.pow 2 52, e + 1) else (m, e)
  if 971 < e then .infinite negative else .finite negative m e

/-- The number nearest to `± digits · 10 ^ exponent`.  Exponents so large or small that the answer
is an infinity or a zero are settled first, which keeps the powers of ten small. -/
def ofDecimal (negative : Bool) (digits : Nat) (exponent : Int) : Binary64 :=
  if digits = 0 then .finite negative 0 0
  else
    let magnitude := ((Nat.toDigits 10 digits).length : Int) + exponent
    if 400 < magnitude then .infinite negative
    else if magnitude < -400 then .finite negative 0 0
    else
      let (num, den) := scale10 digits 1 exponent
      ofFraction negative num den

/-- Zeros are the only numbers that count as false. -/
def isZero : Binary64 → Bool
  | .finite _ m _ => m == 0
  | _ => false

/-- The whole part, toward zero, of a finite number. -/
def truncate? : Binary64 → Option Int
  | .finite negative m e =>
    let (n, d) := scale2 m 1 e
    let q : Int := (n / d : Nat)
    some (if negative then -q else q)
  | _ => none

/-- The least `k` with `num / den < 10 ^ k`, for a positive fraction. -/
def decimalExponent (num den : Nat) : Int :=
  if den ≤ num then ((Nat.toDigits 10 (num / den)).length : Int)
  else
    let below := (List.range 400).find? fun j => decide (den ≤ num * Nat.pow 10 (j + 1))
    Int.negOfNat (below.getD 0)

/-- The numbers that read back as a given one lie between two fractions over one denominator. -/
structure Interval where
  low : Nat
  value : Nat
  high : Nat
  den : Nat
  closed : Bool

/-- The numbers nearer to `m · 2 ^ e` than to its neighbours; the ends belong to it when `m` is
even, and the lower neighbour of a power of two is nearer than the upper one. -/
def interval (m : Nat) (e : Int) : Interval :=
  let narrow := m == Nat.pow 2 52 && decide (-1074 < e)
  let (v, d) := scale2 m 1 e
  -- quarter steps of the last place, over one denominator
  let (step, den) := scale2 1 4 e
  let unit := den / d
  { low := v * unit - (if narrow then step else 2 * step)
    value := v * unit
    high := v * unit + 2 * step
    den := den
    closed := m % 2 == 0 }

/-- `c / d` lies in the interval. -/
def Interval.holds (i : Interval) (c d : Nat) : Bool :=
  let l := i.low * d
  let x := c * i.den
  let h := i.high * d
  if i.closed then decide (l ≤ x) && decide (x ≤ h) else decide (l < x) && decide (x < h)

/-- Of the two whole multiples of `10 ^ g` around the value, the one that reads back; the nearer one
when both do, and the even one when they are equally near. -/
def Interval.onGrid (i : Interval) (g : Int) : Option Nat :=
  let (num, den) := scale10 i.value i.den (-g)
  let lo := num / den
  let holds (k : Nat) : Bool :=
    let (c, d) := scale10 k 1 g
    i.holds c d
  let r := num % den
  match holds lo, holds (lo + 1) with
  | false, false => none
  | true, false => some lo
  | false, true => some (lo + 1)
  | true, true =>
    if 2 * r < den then some lo
    else if den < 2 * r then some (lo + 1)
    else if lo % 2 = 0 then some lo else some (lo + 1)

/-- The first grid, from one digit on, that holds a number reading back. -/
def Interval.search (i : Interval) (k : Int) : (left : Nat) → (digits : Nat) → Nat × Int
  | 0, digits => (((i.onGrid (k - digits)).getD 0), k - digits)
  | left + 1, digits =>
    match i.onGrid (k - digits) with
    | some c => (c, k - digits)
    | none => i.search k left (digits + 1)

/-- The decimal `c · 10 ^ g` with the fewest digits that reads back as `m · 2 ^ e`, for a positive
`m`. -/
def shortest (m : Nat) (e : Int) : Nat × Int :=
  let i := interval m e
  let (n, d) := scale2 m 1 e
  i.search (decimalExponent n d) 16 1

/-- The digits of a decimal without zeros at its end, and where its point stands before them. -/
def digitsOf (c : Nat) (g : Int) : List Char × Int :=
  let ds := Nat.toDigits 10 c
  ((ds.reverse.dropWhile (· == '0')).reverse, (ds.length : Int) + g)

/-- Digits `ds` with the decimal point after `point` of them.  Positional from `0.0001` up to
sixteen digits before the point; otherwise with an exponent of two digits at least. -/
def layout (ds : List Char) (point : Int) : List Char :=
  if -4 < point && point ≤ 16 then
    if point ≤ 0 then '0' :: '.' :: (List.replicate (-point).toNat '0' ++ ds)
    else if (ds.length : Int) ≤ point then
      ds ++ List.replicate (point - ds.length).toNat '0' ++ ['.', '0']
    else ds.take point.toNat ++ '.' :: ds.drop point.toNat
  else
    let exponent := point - 1
    let sign := if exponent < 0 then '-' else '+'
    let es := Nat.toDigits 10 exponent.natAbs
    let es := if es.length < 2 then '0' :: es else es
    match ds with
    | [] => []
    | [d] => d :: 'e' :: sign :: es
    | d :: more => d :: '.' :: (more ++ 'e' :: sign :: es)

/-- The text of a number: the fewest digits that read back. -/
def text : Binary64 → String
  | .nan => "nan"
  | .infinite negative => if negative then "-inf" else "inf"
  | .finite negative m e =>
    let body :=
      if m = 0 then ['0', '.', '0']
      else
        let (c, g) := shortest m e
        let (ds, point) := digitsOf c g
        layout ds point
    String.ofList (if negative then '-' :: body else body)

end Binary64

end Dangling
