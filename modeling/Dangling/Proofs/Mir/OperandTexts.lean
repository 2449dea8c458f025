import Dangling.Mir.Operand.Reader
import Dangling.Proofs.Mir.PlaceTexts

/-!
# Proofs — Mir — OperandTexts

The text of an operand, read as an operand, is that operand again.  For places this is what
`PlaceTexts` says.  A constant is read from a trimmed text, and the text of the constant is trimmed
in turn: a word, a numeral without its suffix, or the text that was no number and was kept.

* `Operand.Spelled`: a constant that its own text writes.
* `Operand.spelled_constantOfText`: every constant that a text writes is one.
* `Operand.read_cases`: what an operand that was read can be.
* `Operand.ofText_move`, `Operand.ofText_copy`, `Operand.Spelled.ofText_constant`: reading the text of
  what was read.
-/

namespace Dangling.Operand

open Reader

/-! ### Numerals -/

namespace Reader

/-- The number behind a sign, if digits and a suffix are all there is. -/
def unsigned? (negative : Bool) (cs : List Char) : Option Int :=
  if !(cs.takeWhile Text.isDecimal).isEmpty &&
      ((cs.dropWhile Text.isDecimal).isEmpty || isSuffix (cs.dropWhile Text.isDecimal)) then
    some (if negative then -(Text.decimalValue 0 (cs.takeWhile Text.isDecimal) : Int)
      else Text.decimalValue 0 (cs.takeWhile Text.isDecimal))
  else none

theorem number?_minus (cs : List Char) : number? ('-' :: cs) = unsigned? true cs := rfl

/-- A numeral without a minus is read as it stands. -/
theorem number?_eq {cs : List Char} (h : ∀ rest, cs ≠ '-' :: rest) :
    number? cs = unsigned? false cs := by
  rw [number?.eq_def]
  split
  next negative digits heq =>
    split at heq
    · exact absurd rfl (h _)
    · cases heq
      rfl

/-- Digits are read back. -/
theorem unsigned?_toDigits (negative : Bool) (n : Nat) :
    unsigned? negative (Nat.toDigits 10 n) = some (if negative then -(n : Int) else n) := by
  have hdigits : ∀ c ∈ Nat.toDigits 10 n, Text.isDecimal c = true := fun c hc =>
    Text.isDecimal_of_isDigit (Text.isDigit_of_mem_toDigits hc)
  rw [unsigned?, List.takeWhile_eq_self_iff.mpr hdigits, List.dropWhile_eq_nil_iff.mpr hdigits,
    Text.decimalValue_toDigits]
  simp [Nat.toDigits_ne_nil]

/-- **The text of a number is its numeral.** -/
theorem number?_toString (i : Int) : number? (toString i).toList = some i := by
  cases i with
  | ofNat n =>
      rw [Text.toList_toString_ofNat, number?_eq, unsigned?_toDigits]
      · rfl
      · intro rest heq
        have hdigit : '-'.isDigit = true :=
          Text.isDigit_of_mem_toDigits (heq ▸ List.mem_cons_self)
        cases hdigit
  | negSucc n =>
      rw [Text.toList_toString_negSucc, number?_minus, unsigned?_toDigits]
      rfl

/-- An integer is written without blanks. -/
theorem not_isBlank_toString (i : Int) : ∀ c ∈ (toString i).toList, Text.isBlank c = false := by
  have hdigits : ∀ n, ∀ c ∈ Nat.toDigits 10 n, Text.isBlank c = false := fun n c hc =>
    Place.not_isBlank_of_isFieldChar (Place.isFieldChar_of_mem_toDigits hc)
  cases i with
  | ofNat n =>
      rw [Text.toList_toString_ofNat]
      exact hdigits n
  | negSucc n =>
      rw [Text.toList_toString_negSucc]
      exact List.forall_mem_cons.mpr ⟨rfl, hdigits (n + 1)⟩

end Reader

/-! ### Constants -/

/-- A constant that its own text writes. -/
structure Spelled (v : Json.Value) (ty : Ty) : Prop where
  tight : Text.Tight (constantText v).toList
  nonempty : (constantText v).toList ≠ []
  reads : constantOfText (constantText v) = .constant v ty

theorem strip_of_tight {text : String} (h : Text.Tight text.toList) : Text.strip text = text := by
  rw [Text.strip, h.trim_eq, String.ofList_toList]

/-- A truth value is spelled as a word. -/
theorem spelled_bool (b : Bool) : Spelled (.bool b) Ty.bool := by
  cases b with
  | false => exact ⟨Text.tight_of_all rfl, by decide, rfl⟩
  | true => exact ⟨Text.tight_of_all rfl, by decide, rfl⟩

theorem spelled_null : Spelled .null Ty.unit :=
  ⟨Text.tight_of_all rfl, by decide, rfl⟩

/-- A numeral is none of the words for other constants. -/
theorem constantOfText_of_number? {text : String} {i : Int} (htight : Text.Tight text.toList)
    (h : number? text.toList = some i) : constantOfText text = .constant (.int i) Ty.int32 := by
  have hword : ∀ word : String, number? word.toList = none → text ≠ word := by
    rintro word hnone rfl
    rw [hnone] at h
    cases h
  rw [constantOfText, strip_of_tight htight, if_neg (hword "true" rfl), if_neg (hword "false" rfl),
    if_neg (hword "()" rfl), h]

/-- An integer is spelled in digits, with a minus if it is negative. -/
theorem spelled_int (i : Int) : Spelled (.int i) Ty.int32 := by
  have hnumber := number?_toString i
  have htight := Text.tight_of_forall (not_isBlank_toString i)
  refine ⟨htight, fun hnil => ?_, constantOfText_of_number? htight hnumber⟩
  have hempty : (toString i).toList = [] := hnil
  rw [hempty] at hnumber
  cases hnumber

/-- A text that is kept has been trimmed, and is no word and no number. -/
theorem spelled_constantOfText {text : String} (hne : Text.trim Text.isBlank text.toList ≠ []) :
    ∃ v ty, constantOfText text = .constant v ty ∧ Spelled v ty := by
  rw [constantOfText]
  split
  · exact ⟨_, _, rfl, spelled_bool true⟩
  split
  · exact ⟨_, _, rfl, spelled_bool false⟩
  split
  · exact ⟨_, _, rfl, spelled_null⟩
  split
  · exact ⟨_, _, rfl, spelled_int _⟩
  next htrue hfalse hunit _ hnumber =>
    have hlist : (Text.strip text).toList = Text.trim Text.isBlank text.toList := by
      rw [Text.strip, String.toList_ofList]
    have htight : Text.Tight (Text.strip text).toList := hlist ▸ Text.tight_trim _
    refine ⟨_, _, rfl, htight, hlist ▸ hne, ?_⟩
    change constantOfText (Text.strip text) = _
    rw [constantOfText, strip_of_tight htight, if_neg htrue, if_neg hfalse, if_neg hunit, hnumber]

/-! ### Reading the text of an operand -/

/-- The word is taken off the front. -/
theorem after?_append (word : String) (cs : List Char) :
    after? word (word.toList ++ cs) = some cs := by
  rw [after?, if_pos (List.isPrefixOf_iff_prefix.mpr (List.prefix_append _ _)), ← String.length_toList,
    List.drop_left]

theorem eq_append_of_after? {word : String} {cs rest : List Char} (h : after? word cs = some rest) :
    cs = word.toList ++ rest := by
  rw [after?] at h
  split at h
  next hprefix =>
    obtain ⟨more, rfl⟩ := List.isPrefixOf_iff_prefix.mp hprefix
    rw [← String.length_toList, List.drop_left, Option.some.injEq] at h
    rw [h]
  cases h

/-- What stands behind the word that opens an operand is not trimmed. -/
theorem trim_append {word body : String}
    (hword : ∀ c, word.toList.head? = some c → Text.isBlank c = false)
    (hbody : Text.Tight body.toList) (hne : body.toList ≠ []) :
    Text.trim Text.isBlank (word ++ body).toList = word.toList ++ body.toList := by
  rw [String.toList_append]
  exact (hbody.append hword hne).trim_eq

section Written

variable {p : Place} {v : Json.Value} {ty : Ty}

/-- A moved place is read back. -/
theorem ofText_move (h : p.Named) : ofText (Operand.move p).text = .ok (.move p) := by
  have htight := Text.tight_of_forall h.not_isBlank
  rw [ofText, text, trim_append (by rintro c ⟨⟩; rfl) htight h.text_ne_nil, after?_append]
  simp only [String.ofList_toList, h.ofText_text]
  rfl

/-- A copied place is read back. -/
theorem ofText_copy (h : p.Named) : ofText (Operand.copy p).text = .ok (.copy p) := by
  have htight := Text.tight_of_forall h.not_isBlank
  have hmove : after? "move " ("copy ".toList ++ p.text.toList) = none := rfl
  rw [ofText, text, trim_append (by rintro c ⟨⟩; rfl) htight h.text_ne_nil, hmove]
  simp only [after?_append, String.ofList_toList, h.ofText_text]
  rfl

/-- A constant is read back if it is spelled as its type wants. -/
theorem Spelled.ofText_constant (h : Spelled v ty) :
    ofText (Operand.constant v ty).text = .ok (.constant v ty) := by
  have hmove : after? "move " ("const ".toList ++ (constantText v).toList) = none := rfl
  have hcopy : after? "copy " ("const ".toList ++ (constantText v).toList) = none := rfl
  rw [ofText, text, trim_append (by rintro c ⟨⟩; rfl) h.tight h.nonempty, hmove, hcopy]
  simp only [after?_append, String.ofList_toList, h.reads]

end Written

/-! ### What an operand that was read can be -/

/-- A result that came through was there before. -/
theorem map_mapError_eq_ok {ε ε' α β : Type} {x : Except ε α} {f : ε → ε'} {g : α → β} {b : β}
    (h : (x.mapError f).map g = .ok b) : ∃ a, x = .ok a ∧ g a = b := by
  cases x with
  | error e => cases h
  | ok a => exact ⟨a, rfl, Except.ok.inj h⟩

/-- Behind the word for a constant stands something: the end of a trimmed text is no white space. -/
theorem trim_ne_nil_of_after? {given rest : List Char}
    (h : after? "const " (Text.trim Text.isBlank given) = some rest) :
    Text.trim Text.isBlank rest ≠ [] := by
  have htight := Text.tight_trim given
  rw [eq_append_of_after? h] at htight
  cases hlast : rest.getLast? with
  | none =>
      rw [List.getLast?_eq_none_iff] at hlast
      cases htight.last ' ' (by rw [hlast]; rfl)
  | some c =>
      have hc : ("const ".toList ++ rest).getLast? = some c := by
        rw [List.getLast?_append, hlast]
        rfl
      exact Text.trim_ne_nil (List.mem_of_getLast? hlast) (htight.last c hc)

/-- What is read is a place, moved or copied, or a spelled constant. -/
theorem ofText_cases {given : String} {o : Operand} (h : ofText given = .ok o) :
    (∃ p : Place, p.Readable ∧ (o = .move p ∨ o = .copy p)) ∨
      ∃ v ty, o = .constant v ty ∧ Spelled v ty := by
  rw [ofText] at h
  dsimp only at h
  split at h
  · obtain ⟨p, hp, rfl⟩ := map_mapError_eq_ok h
    exact .inl ⟨p, Place.readable_of_ofText hp, .inl rfl⟩
  split at h
  · obtain ⟨p, hp, rfl⟩ := map_mapError_eq_ok h
    exact .inl ⟨p, Place.readable_of_ofText hp, .inr rfl⟩
  split at h
  next rest hrest =>
    have hne : Text.trim Text.isBlank (String.ofList rest).toList ≠ [] := by
      rw [String.toList_ofList]
      exact trim_ne_nil_of_after? hrest
    obtain ⟨v, ty, hv, hspelled⟩ := spelled_constantOfText hne
    exact .inr ⟨v, ty, (Except.ok.inj h).symm.trans hv, hspelled⟩
  split at h
  · obtain ⟨p, hp, rfl⟩ := map_mapError_eq_ok h
    exact .inl ⟨p, Place.readable_of_ofText hp, .inr rfl⟩
  · obtain ⟨p, hp, rfl⟩ := map_mapError_eq_ok h
    exact .inl ⟨p, Place.readable_of_ofText hp, .inr rfl⟩
  · cases h

/-- **An operand that was read** takes a place whose fields were read, or is a constant that its text
writes. -/
theorem read_cases {given : Json.Value} {o : Operand} (h : Operand.read given = .ok o) :
    (∃ p : Place, p.Readable ∧ (o = .move p ∨ o = .copy p)) ∨
      ∃ v ty, o = .constant v ty ∧ Spelled v ty := by
  cases given with
  | str text => exact ofText_cases h
  | bool b =>
      cases h
      exact .inr ⟨_, _, rfl, spelled_bool b⟩
  | int i =>
      cases h
      exact .inr ⟨_, _, rfl, spelled_int i⟩
  | null =>
      cases h
      exact .inr ⟨_, _, rfl, spelled_null⟩
  | float x => cases h
  | arr items => cases h
  | obj members => cases h

/-- **Places and operands read back**: the text of a place whose fields have names is read as that
place, and the text of an operand that was read, if its place has no index, as that operand. -/
theorem texts_read_back :
    (∀ p : Place, p.Named → Place.read (.str p.text) = .ok p) ∧
      ∀ given o, Operand.read given = .ok o → (∀ p, o.place? = some p → .field "[]" ∉ p.steps) →
        Operand.read (.str o.text) = .ok o := by
  refine ⟨fun p h => h.ofText_text, fun given o h hindex => ?_⟩
  rw [Operand.read]
  obtain ⟨p, hp, hplace⟩ | ⟨v, ty, rfl, hspelled⟩ := read_cases h
  · obtain rfl | rfl := hplace
    · exact ofText_move (hp.named (hindex p rfl))
    · exact ofText_copy (hp.named (hindex p rfl))
  · exact hspelled.ofText_constant

/-- A field behind two pointers. -/
def header : Place := (((Place.mk 1 []).deref.field "buf").deref.field "0").field "len_2"

/-- What two pointers in a buffer lead to. -/
def bufTarget : Operand := .copy (((Place.mk 1 []).field "buf").deref.deref)

/-- Dereferences and fields inside one another, and a text with blanks. -/
theorem header_read_back :
    header.Named ∧ header.text = "(*(*_1).buf).0.len_2" ∧ Place.read (.str header.text) = .ok header ∧
      Operand.read (.str " (* *_1.buf) ") = .ok bufTarget ∧ bufTarget.text = "copy (*(*_1.buf))" ∧
      Operand.read (.str bufTarget.text) = .ok bufTarget ∧
      Operand.read (.str "const  -007_i64") = .ok (.constant (.int (-7)) Ty.int32) ∧
      Operand.read (.str "const -7") = .ok (.constant (.int (-7)) Ty.int32) := by
  have hbuf : Place.IsFieldName "buf" := ⟨by decide, List.all_eq_true.mp rfl⟩
  have hfirst : Place.IsFieldName "0" := ⟨by decide, List.all_eq_true.mp rfl⟩
  have hlen : Place.IsFieldName "len_2" := ⟨by decide, List.all_eq_true.mp rfl⟩
  have hheader : header.Named := .field (.field (.deref (.field (.deref (.base 1)) hbuf)) hfirst) hlen
  have hplace : Place.ofText (String.ofList ['(', '*', ' ', '*', '_', '1', '.', 'b', 'u', 'f', ')']) =
      .ok (((Place.mk 1 []).field "buf").deref.deref) := by
    rw [Place.ofText, String.length_ofList, String.toList_ofList]
    rfl
  have htarget : Operand.read (.str " (* *_1.buf) ") = .ok bufTarget :=
    congrArg (fun x => (x.mapError OperandFault.place).map Operand.copy) hplace
  obtain ⟨hplaces, hoperands⟩ := texts_read_back
  refine ⟨hheader, rfl, hplaces header hheader, htarget, rfl, hoperands _ bufTarget htarget ?_, rfl, ?_⟩
  · rintro p ⟨⟩
    decide
  · exact hoperands (.str "const  -007_i64") (.constant (.int (-7)) Ty.int32) rfl (by rintro p ⟨⟩)

end Dangling.Operand
