import Dangling.Proofs.Constant.Words

/-!
# Proofs — Constant — Widths

Integers of declared types against folded numbers.  A type has a width and may have a sign; a program
computes on words of that width.  Folding computes on signed words of sixty-four bits, whatever the
type.  Both reduce the same unbounded number, so they come to the same value just when the folded one
is a value of the type and the value at the type is a signed word.

* `IntType`, `IntType.Holds`, `IntType.reduce`: the integer types, their values, and numbers cut down to
  them.
* `IntType.unary?`, `IntType.binary?`: what a program computes at a type.
* `IntType.reduce_eq_wrap_iff`: when a type and a signed word agree on a number.
* `IntType.binary_agrees_iff`, `IntType.unary_agrees_iff`: when folding agrees with the program, for each
  operator.
* `IntType.binary_agrees_of_narrow`, `IntType.unary_agrees_of_narrow`: for which types and operators
  they always do.
-/

namespace Dangling

/-- How many bits a pointer has. -/
inductive PointerWidth where
  | w16 | w32 | w64
  deriving DecidableEq, Repr

/-- An integer type. -/
structure IntType where
  signed : Bool
  width : Nat
  pos : 0 < width := by decide
  le : width ≤ 128 := by decide
  deriving DecidableEq, Repr

namespace IntType

/-- The integers as wide as a pointer. -/
def pointerSized (signed : Bool) : PointerWidth → IntType
  | .w16 => { signed, width := 16 }
  | .w32 => { signed, width := 32 }
  | .w64 => { signed, width := 64 }

/-- The integer type of a name. -/
def ofName? (pointer : PointerWidth) : String → Option IntType
  | "i8" => some { signed := true, width := 8 }
  | "i16" => some { signed := true, width := 16 }
  | "i32" => some { signed := true, width := 32 }
  | "i64" => some { signed := true, width := 64 }
  | "i128" => some { signed := true, width := 128 }
  | "isize" => some (pointerSized true pointer)
  | "u8" => some { signed := false, width := 8 }
  | "u16" => some { signed := false, width := 16 }
  | "u32" => some { signed := false, width := 32 }
  | "u64" => some { signed := false, width := 64 }
  | "u128" => some { signed := false, width := 128 }
  | "usize" => some (pointerSized false pointer)
  | _ => none

variable (T : IntType)

/-- The number is a value of the type. -/
def Holds (a : Int) : Prop :=
  if T.signed then -2 ^ (T.width - 1) ≤ a ∧ a < 2 ^ (T.width - 1) else 0 ≤ a ∧ a < 2 ^ T.width

/-- A number as a word of the type. -/
def word (a : Int) : BitVec T.width := BitVec.ofInt T.width a

/-- The value that a word of the type stands for. -/
def read (x : BitVec T.width) : Int := if T.signed then x.toInt else x.toNat

/-- A number cut down to the type. -/
def reduce (a : Int) : Int := T.read (T.word a)

/-- The value of a unary operation at the type. -/
def unary? : UnOp → Int → Option Int
  | .not, a => some (T.read (~~~T.word a))
  | _, _ => none

/-- The value of a bit operation at the type.  A shift to the right is filled with the sign. -/
def binary? : BinOp → Int → Int → Option Int
  | .bitAnd, a, b => some (T.read (T.word a &&& T.word b))
  | .bitOr, a, b => some (T.read (T.word a ||| T.word b))
  | .bitXor, a, b => some (T.read (T.word a ^^^ T.word b))
  | .shl, a, b => some (T.read (T.word a <<< b.toNat))
  | .shr, a, b =>
    some (T.read (if T.signed then (T.word a).sshiftRight b.toNat else T.word a >>> b.toNat))
  | _, _, _ => none

/-! ### Values of a type -/

variable {T} {a b : Int}

/-- The values of a type are those that its bits span. -/
theorem holds_iff : T.Holds a ↔
    if T.signed then Spans (T.width - 1) a else Spans T.width a ∧ decide (a < 0) = false := by
  rw [Holds]
  split
  · exact Iff.rfl
  · have hpos : (0 : Int) < 2 ^ T.width := Int.pow_pos (by decide)
    rw [Spans, decide_eq_false_iff_not]
    omega

theorem reduce_of_holds (h : T.Holds a) : T.reduce a = a := by
  rw [Holds] at h
  rw [reduce, read, word]
  split at h
  case isTrue hs =>
    rw [if_pos hs]
    exact BitVec.toInt_ofInt_eq_self T.pos h.1 h.2
  case isFalse hs =>
    rw [if_neg hs, BitVec.toNat_ofInt]
    have hlt : a < ((2 ^ T.width : Nat) : Int) := by exact_mod_cast h.2
    rw [Int.emod_eq_of_lt h.1 hlt]
    exact Int.toNat_of_nonneg h.1

theorem holds_read (x : BitVec T.width) : T.Holds (T.read x) := by
  rw [Holds, read]
  split
  · exact ⟨x.le_toInt, x.toInt_lt⟩
  · exact ⟨Int.natCast_nonneg _, by exact_mod_cast x.isLt⟩

/-- A value of the type is not reduced. -/
theorem reduce_eq_self_iff : T.reduce a = a ↔ T.Holds a :=
  ⟨fun h => h ▸ holds_read _, reduce_of_holds⟩

/-- The values of a type are closed under an operation on bits that makes no negative number of two
others. -/
theorem Holds.bits {f : Int → Int → Int} {sign : Bool → Bool → Bool} (hsign : sign false false = false)
    (hf : ∀ {k : Nat} {a b : Int}, Spans k a → Spans k b →
      Spans k (f a b) ∧ decide (f a b < 0) = sign (decide (a < 0)) (decide (b < 0)))
    (ha : T.Holds a) (hb : T.Holds b) : T.Holds (f a b) := by
  rw [holds_iff] at *
  split at ha
  case isTrue hs =>
    rw [if_pos hs] at *
    exact (hf ha hb).1
  case isFalse hs =>
    rw [if_neg hs] at *
    obtain ⟨hspans, hneg⟩ := hf ha.1 hb.1
    exact ⟨hspans, by rw [hneg, ha.2, hb.2, hsign]⟩

theorem Holds.lnot (hs : T.signed = true) (ha : T.Holds a) : T.Holds (Int.lnot a) := by
  rw [holds_iff, if_pos hs] at *
  exact lnot_spans ha

/-! ### Types and words -/

/-- Cut down to a word first, a number keeps what a narrower type sees of it. -/
theorem reduce_wrap (hw : T.width ≤ 64) (a : Int) : T.reduce (wrap a) = T.reduce a := by
  have hword : T.word (wrap a) = T.word a := by
    refine BitVec.eq_of_toInt_eq ?_
    rw [word, word, BitVec.toInt_ofInt, BitVec.toInt_ofInt]
    rw [wrap_eq]
    exact Int.bmod_bmod_of_dvd (Nat.pow_dvd_pow 2 hw)
  rw [reduce, hword, reduce]

/-- Cut down to a wider type first, a number keeps what a word sees of it. -/
theorem wrap_reduce (hw : 64 ≤ T.width) (a : Int) : wrap (T.reduce a) = wrap a := by
  have hdvd : 2 ^ 64 ∣ 2 ^ T.width := Nat.pow_dvd_pow 2 hw
  have hbmod : ∀ b : Int, wrap (b.bmod (2 ^ T.width)) = wrap b := fun b => by
    rw [wrap_eq, wrap_eq]
    exact Int.bmod_bmod_of_dvd hdvd
  rw [← hbmod (T.reduce a), ← hbmod a]
  congr 1
  rw [reduce, read, word]
  split
  · rw [BitVec.toInt_ofInt, Int.bmod_bmod]
  · rw [← BitVec.toInt_eq_toNat_bmod, BitVec.toInt_ofInt]

/-- Folding and the type agree on a number. -/
def Agrees (T : IntType) (a : Int) : Prop := T.Holds (wrap a) ∧ IsWord (T.reduce a)

/-- **A type and a signed word agree on a number** just when the word is a value of the type and the
value of the type is a word. -/
theorem reduce_eq_wrap_iff : wrap a = T.reduce a ↔ T.Agrees a := by
  constructor
  · intro h
    exact ⟨h ▸ holds_read _, h ▸ isWord_wrap a⟩
  · rintro ⟨hholds, hword⟩
    obtain hw | hw := Nat.le_total T.width 64
    · rw [← reduce_wrap hw, reduce_of_holds hholds]
    · rw [← wrap_reduce hw, hword.wrap_eq_self]

theorem isWord_iff : wrap a = a ↔ IsWord a :=
  ⟨fun h => h ▸ isWord_wrap a, IsWord.wrap_eq_self⟩

/-- A value of the type is folded rightly if it fits into a word. -/
theorem agrees_iff_of_holds (h : T.Holds a) : T.Agrees a ↔ IsWord a := by
  rw [← reduce_eq_wrap_iff, reduce_of_holds h, isWord_iff]

/-! ### Operators -/

/-- When folding agrees with a unary operation at the type. -/
def UnaryAgrees (T : IntType) : UnOp → Int → Prop
  | .not, a => T.Agrees (Int.lnot a)
  | _, _ => False

/-- When folding agrees with a bit operation at the type, on values of the type. -/
def BinaryAgrees (T : IntType) : BinOp → Int → Int → Prop
  | .bitAnd, a, b => IsWord (Int.land a b)
  | .bitOr, a, b => IsWord (Int.lor a b)
  | .bitXor, a, b => IsWord (Int.xor a b)
  | .shl, a, b => T.Agrees (a * 2 ^ b.toNat)
  | .shr, a, b => if b < 64 then IsWord a else a / 2 ^ b.toNat = if wrap a < 0 then -1 else 0
  | _, _, _ => False

/-- When a folded unary operation has the value that the type asks for. -/
theorem unary_agrees_iff {ρ : Valuation} {op : UnOp} {k : Int} {v : Scalar}
    (hk : T.unary? op a = some k) (hv : op.value? ρ (.int a) = some v) :
    v.toInt = k ↔ T.UnaryAgrees op a := by
  cases op with
  | not =>
      rw [UnOp.value?_not] at hv
      cases hv
      rw [unary?, word, ← ofInt_lnot] at hk
      cases hk
      exact reduce_eq_wrap_iff
  | neg | ptrMetadata => cases hk

/-- A shift to the right divides, at the type too. -/
theorem binary?_shr (ha : T.Holds a) : T.binary? .shr a b = some (a / 2 ^ b.toNat) := by
  have hreduce := reduce_of_holds ha
  rw [reduce, read] at hreduce
  rw [binary?, read]
  cases hs : T.signed with
  | true =>
      rw [hs, if_pos rfl] at hreduce
      rw [if_pos rfl, if_pos rfl, BitVec.toInt_sshiftRight, hreduce, Int.shiftRight_eq_div_pow]
      norm_cast
  | false =>
      rw [hs, if_neg Bool.false_ne_true] at hreduce
      rw [if_neg Bool.false_ne_true, if_neg Bool.false_ne_true, BitVec.toNat_ushiftRight,
        Nat.shiftRight_eq_div_pow, Int.natCast_ediv, hreduce]
      norm_cast

/-- A shift of the word and a shift of the number. -/
theorem wrap_ediv_eq_iff (a : Int) (n : Nat) :
    wrap a / 2 ^ n = a / 2 ^ n ↔
      if n < 64 then IsWord a else a / 2 ^ n = if wrap a < 0 then -1 else 0 := by
  split
  case isTrue hn =>
    refine ⟨fun h => ?_, fun h => by rw [h.wrap_eq_self]⟩
    -- what the word lacks is a multiple of its size, and a shift by less shows it
    obtain ⟨c, hc⟩ : ((2 ^ 64 : Nat) : Int) ∣ wrap a - a := wrap_eq a ▸ Int.dvd_bmod_sub_self
    have hsize : ((2 ^ 64 : Nat) : Int) = 2 ^ n * 2 ^ (64 - n) := by
      rw [← Int.pow_add, Nat.add_sub_of_le (Nat.le_of_lt hn)]
      rfl
    have hwrap : wrap a = a + 2 ^ n * (2 ^ (64 - n) * c) := by
      rw [← Int.mul_assoc, ← hsize, ← hc]
      omega
    have hpos : ∀ k : Nat, (2 : Int) ^ k ≠ 0 := fun k => Int.ne_of_gt (Int.pow_pos (by decide))
    rw [hwrap, Int.add_mul_ediv_left _ _ (hpos n)] at h
    have hzero : (2 : Int) ^ (64 - n) * c = 0 := by omega
    rw [← isWord_iff, hwrap, hzero, Int.mul_zero, Int.add_zero]
  case isFalse hn =>
    have hword : Spans 63 (wrap a) := isWord_wrap a
    rw [hword.ediv_two_pow (by omega)]
    exact eq_comm

/-- When a folded binary operation has it. -/
theorem binary_agrees_iff {ρ : Valuation} {op : BinOp} {k : Int} {v : Scalar} (ha : T.Holds a)
    (hb : T.Holds b) (hamount : op = .shl ∨ op = .shr → 0 ≤ b ∧ b < T.width)
    (hk : T.binary? op a b = some k) (hv : op.value? ρ (.int a) (.int b) = some v) :
    v.toInt = k ↔ T.BinaryAgrees op a b := by
  have hword : 0 ≤ b → b < T.width → toWord b = b.toNat := fun hlower hupper => by
    rw [toWord, BitVec.toNat_ofInt, Int.emod_eq_of_lt hlower]
    exact Int.lt_trans hupper (Int.lt_of_le_of_lt (Int.ofNat_le.mpr T.le) (by decide))
  cases op with
  | bitAnd =>
      rw [BinOp.value?_bitAnd] at hv
      cases hv
      rw [binary?, word, word, ← ofInt_land] at hk
      cases hk
      exact reduce_eq_wrap_iff.trans (agrees_iff_of_holds (.bits rfl land_spans ha hb))
  | bitOr =>
      rw [BinOp.value?_bitOr] at hv
      cases hv
      rw [binary?, word, word, ← ofInt_lor] at hk
      cases hk
      exact reduce_eq_wrap_iff.trans (agrees_iff_of_holds (.bits rfl lor_spans ha hb))
  | bitXor =>
      rw [BinOp.value?_bitXor] at hv
      cases hv
      rw [binary?, word, word, ← ofInt_xor] at hk
      cases hk
      exact reduce_eq_wrap_iff.trans (agrees_iff_of_holds (.bits rfl xor_spans ha hb))
  | shl =>
      obtain ⟨hlower, hupper⟩ := hamount (.inl rfl)
      rw [BinOp.value?_shl, hword hlower hupper] at hv
      cases hv
      rw [binary?, word, ← ofInt_mul_two_pow] at hk
      cases hk
      exact reduce_eq_wrap_iff
  | shr =>
      obtain ⟨hlower, hupper⟩ := hamount (.inr rfl)
      rw [BinOp.value?_shr, hword hlower hupper] at hv
      cases hv
      rw [binary?_shr ha] at hk
      cases hk
      have hshort : b < 64 ↔ b.toNat < 64 := by omega
      rw [BinaryAgrees]
      simp only [hshort]
      exact wrap_ediv_eq_iff a b.toNat
  | _ => cases hk

/-- The values of a narrow type are signed words. -/
theorem isWord_of_holds (hnarrow : T.width < 64 ∨ T.signed = true ∧ T.width ≤ 64) (h : T.Holds a) :
    IsWord a := by
  have hpow : ∀ {k : Nat}, k ≤ 63 → (2 : Int) ^ k ≤ 2 ^ 63 := fun hk => by
    exact_mod_cast Nat.pow_le_pow_right (by decide) hk
  rw [Holds] at h
  rw [IsWord, Spans]
  split at h
  case isTrue hs =>
    have := hpow (k := T.width - 1) (by omega)
    omega
  case isFalse hs =>
    have := hpow (k := T.width) (by
      obtain hlt | ⟨hsigned, -⟩ := hnarrow
      · omega
      · exact absurd hsigned hs)
    omega

/-- **Where folding always agrees**: bit operations other than shifts to the left, at types whose values
are all signed words. -/
theorem binary_agrees_of_narrow (hnarrow : T.width < 64 ∨ T.signed = true ∧ T.width ≤ 64)
    {op : BinOp} (hop : op ∈ [.bitAnd, .bitOr, .bitXor, .shr]) (ha : T.Holds a) (hb : T.Holds b)
    (hamount : op = .shr → b < T.width) : T.BinaryAgrees op a b := by
  simp only [List.mem_cons, List.not_mem_nil, or_false] at hop
  obtain rfl | rfl | rfl | rfl := hop
  · exact isWord_of_holds hnarrow (.bits rfl land_spans ha hb)
  · exact isWord_of_holds hnarrow (.bits rfl lor_spans ha hb)
  · exact isWord_of_holds hnarrow (.bits rfl xor_spans ha hb)
  · have hlt := hamount rfl
    rw [BinaryAgrees, if_pos (by omega)]
    exact isWord_of_holds hnarrow ha

/-- Negation of bits agrees at signed types of at most a word, and at no unsigned type below one. -/
theorem unary_agrees_of_narrow (hnarrow : T.width < 64 ∨ T.signed = true ∧ T.width ≤ 64)
    (ha : T.Holds a) : T.UnaryAgrees .not a ↔ T.signed = true := by
  have hword := isWord_of_holds hnarrow ha
  have hnot : IsWord (Int.lnot a) := lnot_spans hword
  constructor
  · rintro ⟨hholds, -⟩
    by_contra hs
    rw [hnot.wrap_eq_self, Holds, if_neg hs, lnot_eq] at hholds
    rw [Holds, if_neg hs] at ha
    omega
  · intro hs
    exact (agrees_iff_of_holds (ha.lnot hs)).mpr hnot

end IntType

end Dangling
