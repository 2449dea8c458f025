import Dangling.Proofs.Constant.Folding
import Mathlib.Data.Int.Bitwise

/-!
# Proofs — Constant — Words

Folding of numbers against reference arithmetic.  Division is the one that rounds toward zero.  A bit
operation is the operation on two's complement words of sixty-four bits: a number is reduced to its
lowest bits, and the resulting word is read as a signed number.  On numbers that are signed words
already nothing is lost, and the operation is the one on unbounded two's complement.

* `testBit_eq_iff`: a number fits `k` bits just when its bits from there on repeat its sign.
* `ofInt_land` and the like: to reduce a number to any width keeps its bits, so bit operations may be
  done before or after.
* `BinOp.value?_bitAnd` and the like: the value is that of the unbounded operation, reduced to a word.
* `Term.literals_fold`: every operation on two numbers, against its reference.
-/

namespace Dangling

/-! ### Bits of unbounded numbers -/

/-- The number fits `k` bits beside its sign. -/
def Spans (k : Nat) (a : Int) : Prop := -2 ^ k ≤ a ∧ a < 2 ^ k

section Bits

variable {k : Nat} {a b : Int}

/-- The bits of a natural number end. -/
theorem testBit_nat_eq_iff {n : Nat} {sign : Bool} :
    (∀ i, k ≤ i → n.testBit i = sign) ↔ n < 2 ^ k ∧ sign = false := by
  have hend : ∀ {j i : Nat}, n < 2 ^ j → j ≤ i → n.testBit i = false := fun hn hi =>
    Nat.testBit_lt_two_pow (Nat.lt_of_lt_of_le hn (Nat.pow_le_pow_right (by decide) hi))
  constructor
  · intro h
    have hsign : sign = false := by
      rw [← h (max k n) (Nat.le_max_left k n)]
      exact hend Nat.lt_two_pow_self (Nat.le_max_right k n)
    subst hsign
    exact ⟨Nat.lt_pow_two_of_testBit n h, rfl⟩
  · rintro ⟨hn, rfl⟩ i hi
    exact hend hn hi

/-- A number fits `k` bits just when its bits from there on repeat its sign. -/
theorem testBit_eq_iff {sign : Bool} :
    (∀ i, k ≤ i → a.testBit i = sign) ↔ Spans k a ∧ decide (a < 0) = sign := by
  have hpos : (0 : Int) < 2 ^ k := Int.pow_pos (by decide)
  have hcast : ∀ n : Nat, n < 2 ^ k ↔ (n : Int) < 2 ^ k := fun n => by exact_mod_cast Iff.rfl
  cases a with
  | ofNat n =>
      have hrange : Spans k (Int.ofNat n) ↔ n < 2 ^ k := by
        rw [hcast, Spans, Int.ofNat_eq_natCast]
        omega
      have hsign : decide (Int.ofNat n < 0) = false := decide_eq_false (Int.not_lt.mpr (Int.natCast_nonneg n))
      rw [hrange, hsign]
      exact testBit_nat_eq_iff.trans (and_congr_right fun _ => eq_comm)
  | negSucc n =>
      have hrange : Spans k (Int.negSucc n) ↔ n < 2 ^ k := by
        rw [hcast, Spans]
        omega
      have hsign : decide (Int.negSucc n < 0) = true := decide_eq_true (Int.negSucc_lt_zero n)
      have hbits : (∀ i, k ≤ i → (Int.negSucc n).testBit i = sign) ↔
          ∀ i, k ≤ i → n.testBit i = !sign := by
        refine forall₂_congr fun i _ => ?_
        rw [Int.testBit, Bool.not_eq_eq_eq_not]
      rw [hrange, hsign, hbits, testBit_nat_eq_iff, Bool.not_eq_false', eq_comm (a := true)]

/-- Above the span all bits are the sign. -/
theorem Spans.testBit (h : Spans k a) {i : Nat} (hi : k ≤ i) : a.testBit i = decide (a < 0) :=
  testBit_eq_iff.mpr ⟨h, rfl⟩ i hi

/-- A conjunction stays in the span, and is negative where both sides are. -/
theorem land_spans (ha : Spans k a) (hb : Spans k b) :
    Spans k (Int.land a b) ∧ decide (Int.land a b < 0) = (decide (a < 0) && decide (b < 0)) :=
  testBit_eq_iff.mp fun i hi => by rw [Int.testBit_land, ha.testBit hi, hb.testBit hi]

/-- A disjunction stays in the span, and is negative where one side is. -/
theorem lor_spans (ha : Spans k a) (hb : Spans k b) :
    Spans k (Int.lor a b) ∧ decide (Int.lor a b < 0) = (decide (a < 0) || decide (b < 0)) :=
  testBit_eq_iff.mp fun i hi => by rw [Int.testBit_lor, ha.testBit hi, hb.testBit hi]

/-- A difference stays in the span, and is negative where the signs differ. -/
theorem xor_spans (ha : Spans k a) (hb : Spans k b) :
    Spans k (Int.xor a b) ∧ decide (Int.xor a b < 0) = (decide (a < 0) ^^ decide (b < 0)) :=
  testBit_eq_iff.mp fun i hi => by rw [Int.testBit_lxor, ha.testBit hi, hb.testBit hi]

/-- A number with all its bits turned. -/
theorem lnot_eq (a : Int) : Int.lnot a = -1 - a := by
  cases a with
  | ofNat n =>
      change Int.negSucc n = -1 - (n : Int)
      omega
  | negSucc n =>
      change (n : Int) = -1 - Int.negSucc n
      omega

/-- A complement stays in the span. -/
theorem lnot_spans (ha : Spans k a) : Spans k (Int.lnot a) := by
  rw [lnot_eq, Spans]
  obtain ⟨hlower, hupper⟩ := ha
  omega

/-- Shifted by as many bits as it fits or more, only the sign of a number is left. -/
theorem Spans.ediv_two_pow (h : Spans k a) {n : Nat} (hn : k ≤ n) :
    a / 2 ^ n = if a < 0 then -1 else 0 := by
  have hpos : (0 : Int) < 2 ^ n := Int.pow_pos (by decide)
  have hle : (2 : Int) ^ k ≤ 2 ^ n := by exact_mod_cast Nat.pow_le_pow_right (by decide) hn
  obtain ⟨hlower, hupper⟩ := h
  split
  case isTrue hneg =>
    have hlow : -1 ≤ a / 2 ^ n := (Int.le_ediv_iff_mul_le hpos).mpr (by omega)
    have hup : a / 2 ^ n < 0 := Int.ediv_neg_of_neg_of_pos hneg hpos
    omega
  case isFalse hneg => exact Int.ediv_eq_zero_of_lt (Int.not_lt.mp hneg) (by omega)

end Bits

/-! ### Numbers of a given width -/

section Width

variable (w : Nat) (a b : Int)

/-- The bits of a number that is reduced to `w` bits. -/
theorem getElem_ofInt {i : Nat} (hi : i < w) : (BitVec.ofInt w a)[i] = a.testBit i := by
  rw [← BitVec.getLsbD_eq_getElem]
  cases a with
  | ofNat n =>
      have hbit : (BitVec.ofNat w n).getLsbD i = _ := BitVec.getLsbD_ofNat w n i
      rw [decide_eq_true hi, Bool.true_and] at hbit
      exact hbit
  | negSucc n =>
      rw [BitVec.ofInt_negSucc_eq_not_ofNat, BitVec.getLsbD_not, BitVec.getLsbD_ofNat, Int.testBit]
      simp [hi]

/-- The bits of an integer, taken as a word of any width. -/
theorem ofInt_land : BitVec.ofInt w (Int.land a b) = BitVec.ofInt w a &&& BitVec.ofInt w b := by
  ext i hi
  simp [getElem_ofInt, Int.testBit_land]

theorem ofInt_lor : BitVec.ofInt w (Int.lor a b) = BitVec.ofInt w a ||| BitVec.ofInt w b := by
  ext i hi
  simp [getElem_ofInt, Int.testBit_lor]

theorem ofInt_xor : BitVec.ofInt w (Int.xor a b) = BitVec.ofInt w a ^^^ BitVec.ofInt w b := by
  ext i hi
  simp [getElem_ofInt, Int.testBit_lxor]

/-- The complement of a word is that of the integer, cut to its width. -/
theorem ofInt_lnot : BitVec.ofInt w (Int.lnot a) = ~~~BitVec.ofInt w a := by
  ext i hi
  simp [getElem_ofInt, Int.testBit_lnot]

/-- A shift to the left doubles. -/
theorem ofInt_mul_two_pow (n : Nat) : BitVec.ofInt w (a * 2 ^ n) = BitVec.ofInt w a <<< n := by
  have hpow : BitVec.ofInt w (2 ^ n) = BitVec.twoPow w n := by
    refine BitVec.eq_of_toNat_eq ?_
    rw [BitVec.toNat_ofInt, BitVec.toNat_twoPow]
    norm_cast
  rw [BitVec.ofInt_mul, hpow, BitVec.shiftLeft_eq_mul_twoPow]

end Width

/-! ### Words -/

/-- The residue of a number that fits a word. -/
def toWord (a : Int) : Nat := (BitVec.ofInt 64 a).toNat

/-- A number reduced to a word and read as signed. -/
def wrap (a : Int) : Int := (BitVec.ofInt 64 a).toInt

/-- The number is a signed word. -/
def IsWord (a : Int) : Prop := Spans 63 a

/-- An integer is read as a word by its residue nearest to zero. -/
theorem wrap_eq (a : Int) : wrap a = a.bmod (2 ^ 64) := BitVec.toInt_ofInt a

theorem isWord_toInt (x : BitVec 64) : IsWord x.toInt := ⟨x.le_toInt, x.toInt_lt⟩

theorem isWord_wrap (a : Int) : IsWord (wrap a) := isWord_toInt _

/-- What fits into a word is not changed. -/
theorem IsWord.wrap_eq_self {a : Int} (h : IsWord a) : wrap a = a :=
  BitVec.toInt_ofInt_eq_self (by decide) h.1 h.2

/-- A shift to the right divides by a power of two, and rounds down. -/
theorem toInt_sshiftRight (x : BitVec 64) (n : Nat) : (x.sshiftRight n).toInt = x.toInt / 2 ^ n := by
  rw [BitVec.toInt_sshiftRight, Int.shiftRight_eq_div_pow]
  norm_cast

namespace Bits

variable (x y : BitVec 64)

/-- Beyond the width, a shift to the left leaves nothing. -/
theorem eval_shl : eval .shl x y = x <<< y.toNat := by
  rw [eval]
  split
  case isTrue hlong => exact (BitVec.shiftLeft_eq_zero hlong).symm
  case isFalse => rfl

/-- Beyond the width, a shift to the right leaves the sign. -/
theorem eval_shr : eval .shr x y = x.sshiftRight y.toNat := by
  rw [eval]
  obtain hshort | hlong := Nat.le_total y.toNat 63
  · rw [Nat.min_eq_left hshort]
  · -- only the sign is left
    have hword : Spans 63 x.toInt := isWord_toInt x
    refine BitVec.eq_of_toInt_eq ?_
    rw [Nat.min_eq_right hlong, toInt_sshiftRight, toInt_sshiftRight,
      hword.ediv_two_pow (Nat.le_refl 63), hword.ediv_two_pow hlong]

end Bits

section Values

variable (ρ : Valuation) (a b : Int)

namespace BinOp

/-- On words the two conjunctions agree. -/
theorem value?_bitAnd : value? ρ .bitAnd (.int a) (.int b) = some (.int (wrap (Int.land a b))) := by
  rw [wrap, ofInt_land]
  rfl

theorem value?_bitOr : value? ρ .bitOr (.int a) (.int b) = some (.int (wrap (Int.lor a b))) := by
  rw [wrap, ofInt_lor]
  rfl

theorem value?_bitXor : value? ρ .bitXor (.int a) (.int b) = some (.int (wrap (Int.xor a b))) := by
  rw [wrap, ofInt_xor]
  rfl

/-- A shift to the left multiplies by a power of two. -/
theorem value?_shl : value? ρ .shl (.int a) (.int b) = some (.int (wrap (a * 2 ^ toWord b))) := by
  rw [wrap, ofInt_mul_two_pow, toWord, ← Bits.eval_shl]
  rfl

/-- A shift to the right divides by a power of two, and rounds down. -/
theorem value?_shr : value? ρ .shr (.int a) (.int b) = some (.int (wrap a / 2 ^ toWord b)) := by
  rw [wrap, ← toInt_sshiftRight, toWord, ← Bits.eval_shr]
  rfl

variable {b}

/-- Division rounds toward zero. -/
theorem value?_div (hb : b ≠ 0) : value? ρ .div (.int a) (.int b) = some (.int (a.tdiv b)) := by
  have hquotient := Expr.eval_quotient (ρ := ρ) (a := .int a) (b := .int b) hb
  exact congrArg (fun q => some (Scalar.int q)) hquotient

/-- The remainder has the sign of the dividend. -/
theorem value?_rem (hb : b ≠ 0) : value? ρ .rem (.int a) (.int b) = some (.int (a.tmod b)) := by
  have hremainder := Expr.eval_remainder (ρ := ρ) (a := .int a) (b := .int b) hb
  exact congrArg (fun r => some (Scalar.int r)) hremainder

end BinOp

/-- The complement is taken on words, whatever the type. -/
theorem UnOp.value?_not : value? ρ .not (.int a) = some (.int (wrap (Int.lnot a))) := by
  rw [wrap, ofInt_lnot]
  rfl

end Values

/-! ### The law of literals -/

/-- A folded value is a word, read as a signed number: it is the signed word that is congruent to it. -/
def FoldsTo (folded : Option Scalar) (x : BitVec 64) : Prop :=
  ∃ r : Int, folded = some (.int r) ∧ (-2 ^ 63 ≤ r ∧ r < 2 ^ 63) ∧ r % 2 ^ 64 = x.toNat

/-- A word is what its own integer folds to. -/
theorem foldsTo_toInt (x : BitVec 64) : FoldsTo (some (.int x.toInt)) x := by
  refine ⟨x.toInt, rfl, isWord_toInt x, ?_⟩
  have hmod : x.toInt % ((2 ^ 64 : Nat) : Int) = (x.toNat : Int) % ((2 ^ 64 : Nat) : Int) := by
    rw [x.toInt_eq_toNat_bmod, Int.bmod_emod]
  exact hmod.trans (Int.emod_eq_of_lt (Int.natCast_nonneg _) (Int.ofNat_lt.mpr x.isLt))

/-- Integers that are the same word fold to it. -/
theorem foldsTo_wrap {a : Int} {x : BitVec 64} (h : BitVec.ofInt 64 a = x) :
    FoldsTo (some (.int (wrap a))) x := by
  rw [wrap, h]
  exact foldsTo_toInt x

/-- What is left of a division that rounds toward zero has the sign of the dividend. -/
theorem sign_tmod (a b : Int) : a.tmod b = 0 ∨ (a.tmod b).sign = a.sign := by
  by_cases hr : a.tmod b = 0
  · exact .inl hr
  have ha : a ≠ 0 := by
    rintro rfl
    exact hr (Int.zero_tmod b)
  obtain hle | hle := Int.le_total 0 a
  · have hnonneg := Int.tmod_nonneg b hle
    rw [Int.sign_eq_one_of_pos (by omega), Int.sign_eq_one_of_pos (by omega)]
    exact .inr rfl
  · have hnonneg := Int.tmod_nonneg b (Int.neg_nonneg.mpr hle)
    rw [Int.neg_tmod] at hnonneg
    rw [Int.sign_eq_neg_one_of_neg (by omega), Int.sign_eq_neg_one_of_neg (by omega)]
    exact .inr rfl

namespace Term

variable {simplify : Simplifier}

/-- What an operation on two numbers folds to. -/
def ofInts (simplify : Simplifier) (op : BinOp) (a b : Int) : Option Scalar :=
  binary op (.lit (.int a)) (.lit (.int b)) simplify

/-- An operation on two numbers folds to its value. -/
theorem ofInts_eq (hsound : simplify.Sound) (hcomputes : simplify.Computes) (op : BinOp) (a : Int)
    {b : Int} (hop : op.Admits b) : ofInts simplify op a b = op.value? default (.int a) (.int b) :=
  hcomputes.binary_eq hsound hop default

/-- **Folding of numbers is reference arithmetic.**  Let a simplifier keep the value of every
expression, and compute those without symbols.  For all numbers `a` and `b`:

* the quotient by `b`, unless it is zero, is rounded toward zero, and the remainder is what is left;
* a bit operation is the operation on the words of `a` and `b`, read as a signed number; shifts take
  the word of `b` as an unsigned amount, and by a word's length or more they leave nothing, or the sign;
* the operations other than shifts are those on unbounded two's complement, as long as `a` and `b` are
  signed words. -/
theorem literals_fold (hsound : simplify.Sound) (hcomputes : simplify.Computes) (a b : Int) :
    (b ≠ 0 → ∃ q r : Int, ofInts simplify .div a b = some (.int q) ∧
      ofInts simplify .rem a b = some (.int r) ∧
      a = b * q + r ∧ r.natAbs < b.natAbs ∧ (r = 0 ∨ r.sign = a.sign)) ∧
    (FoldsTo (ofInts simplify .bitAnd a b) (BitVec.ofInt 64 a &&& BitVec.ofInt 64 b) ∧
      FoldsTo (ofInts simplify .bitOr a b) (BitVec.ofInt 64 a ||| BitVec.ofInt 64 b) ∧
      FoldsTo (ofInts simplify .bitXor a b) (BitVec.ofInt 64 a ^^^ BitVec.ofInt 64 b) ∧
      FoldsTo (unary .not (.lit (.int a)) simplify) (~~~BitVec.ofInt 64 a)) ∧
    (FoldsTo (ofInts simplify .shl a b) (BitVec.ofInt 64 a <<< (BitVec.ofInt 64 b).toNat) ∧
      FoldsTo (ofInts simplify .shr a b)
        ((BitVec.ofInt 64 a).sshiftRight (BitVec.ofInt 64 b).toNat) ∧
      (64 ≤ (BitVec.ofInt 64 b).toNat → ofInts simplify .shl a b = some (.int 0) ∧
        ofInts simplify .shr a b = some (.int (if (BitVec.ofInt 64 a).msb then -1 else 0)))) ∧
    (IsWord a → unary .not (.lit (.int a)) simplify = some (.int (Int.lnot a)) ∧
      (IsWord b → ofInts simplify .bitAnd a b = some (.int (Int.land a b)) ∧
        ofInts simplify .bitOr a b = some (.int (Int.lor a b)) ∧
        ofInts simplify .bitXor a b = some (.int (Int.xor a b)))) := by
  have hvalue : ∀ op : BinOp, op ≠ .div ∧ op ≠ .rem →
      ofInts simplify op a b = op.value? default (.int a) (.int b) := fun op h =>
    ofInts_eq hsound hcomputes op a fun e => (e.elim h.1 h.2).elim
  have hand := (hvalue .bitAnd (by decide)).trans (BinOp.value?_bitAnd _ a b)
  have hor := (hvalue .bitOr (by decide)).trans (BinOp.value?_bitOr _ a b)
  have hxor := (hvalue .bitXor (by decide)).trans (BinOp.value?_bitXor _ a b)
  have hshl := (hvalue .shl (by decide)).trans (BinOp.value?_shl _ a b)
  have hshr := (hvalue .shr (by decide)).trans (BinOp.value?_shr _ a b)
  have hnot := (hcomputes.unary_eq hsound .not (.int a) default).trans (UnOp.value?_not _ a)
  refine ⟨fun hb => ?_, ⟨?_, ?_, ?_, ?_⟩, ⟨?_, ?_, fun hlong => ⟨?_, ?_⟩⟩, fun ha => ⟨?_, fun hb => ?_⟩⟩
  · have hdiv := (ofInts_eq hsound hcomputes .div a fun _ => hb).trans (BinOp.value?_div _ a hb)
    have hrem := (ofInts_eq hsound hcomputes .rem a fun _ => hb).trans (BinOp.value?_rem _ a hb)
    refine ⟨a.tdiv b, a.tmod b, hdiv, hrem, (Int.mul_tdiv_add_tmod a b).symm, ?_, sign_tmod a b⟩
    rw [Int.natAbs_tmod]
    exact Nat.mod_lt _ (Int.natAbs_pos.mpr hb)
  · exact hand ▸ foldsTo_wrap (ofInt_land 64 a b)
  · exact hor ▸ foldsTo_wrap (ofInt_lor 64 a b)
  · exact hxor ▸ foldsTo_wrap (ofInt_xor 64 a b)
  · exact hnot ▸ foldsTo_wrap (ofInt_lnot 64 a)
  · exact hshl ▸ foldsTo_wrap (ofInt_mul_two_pow 64 a _)
  · rw [hshr, wrap, toWord, ← toInt_sshiftRight]
    exact foldsTo_toInt _
  · rw [hshl, wrap, ofInt_mul_two_pow, toWord, BitVec.shiftLeft_eq_zero hlong, BitVec.toInt_zero]
  · have hword : Spans 63 (wrap a) := isWord_wrap a
    have hsign : (BitVec.ofInt 64 a).msb = decide (wrap a < 0) := BitVec.msb_eq_toInt
    rw [hshr, toWord, hword.ediv_two_pow (Nat.le_trans (by decide) hlong), hsign]
    simp
  · rw [hnot, IsWord.wrap_eq_self (lnot_spans ha)]
  · rw [hand, hor, hxor, IsWord.wrap_eq_self (land_spans ha hb).1,
      IsWord.wrap_eq_self (lor_spans ha hb).1, IsWord.wrap_eq_self (xor_spans ha hb).1]
    exact ⟨rfl, rfl, rfl⟩

/-- Two negative numbers: the divisor is no zero, and as an amount to shift by it is far too large. -/
theorem minusSeven_folds :
    IsWord (-7) ∧ IsWord (-2) ∧ 64 ≤ (BitVec.ofInt 64 (-2)).toNat ∧
      (∃ q r : Int, ofInts Formula.simplify .div (-7) (-2) = some (.int q) ∧
        ofInts Formula.simplify .rem (-7) (-2) = some (.int r) ∧
        -7 = -2 * q + r ∧ r.natAbs < 2 ∧ (r = 0 ∨ r.sign = -1)) ∧
      ofInts Formula.simplify .shr (-7) (-2) = some (.int (-1)) ∧
      ofInts Formula.simplify .bitXor (-7) (-2) = some (.int 7) := by
  have hseven : IsWord (-7) := ⟨by omega, by omega⟩
  have htwo : IsWord (-2) := ⟨by omega, by omega⟩
  have hlong : 64 ≤ (BitVec.ofInt 64 (-2)).toNat := by decide
  obtain ⟨hdiv, -, ⟨-, -, hshift⟩, hword⟩ :=
    literals_fold Formula.simplify_sound Formula.simplify_computes (-7) (-2)
  exact ⟨hseven, htwo, hlong, hdiv (by decide), (hshift hlong).2, ((hword hseven).2 htwo).2.2⟩

end Term

end Dangling
