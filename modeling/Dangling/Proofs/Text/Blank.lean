import Dangling.Text.Blank
import Mathlib.Data.List.DropRight
import Mathlib.Data.List.TakeWhile

/-!
# Proofs — Text — Blank

Texts without white space at their ends are what trimming leaves, and trimming leaves them as they
are.

* `takeWhile_append`: a word in front of what is not part of it.
* `trim_append`: trimming what stands around a text.
* `Tight`: no white space at either end.
* `Tight.trim_eq`, `tight_trim`: trimming, and what it leaves.
* `head_trim`, `last_trim`, `trim_isInfix`: the same for any class of characters.
-/

namespace Dangling.Text

/-- A word of characters of one class, in front of what does not begin with one. -/
theorem takeWhile_append {p : Char → Bool} {word rest : List Char} (hword : ∀ c ∈ word, p c = true)
    (hrest : ∀ c, rest.head? = some c → p c = false) :
    (word ++ rest).takeWhile p = word ∧ (word ++ rest).dropWhile p = rest := by
  rw [List.takeWhile_append_of_pos hword, List.dropWhile_append_of_pos hword]
  cases rest with
  | nil => simp
  | cons c rest => simp [hrest c rfl]

theorem toNat_of_isAlphanum {c : Char} (h : c.isAlphanum = true) :
    65 ≤ c.toNat ∧ c.toNat ≤ 90 ∨ 97 ≤ c.toNat ∧ c.toNat ≤ 122 ∨ 48 ≤ c.toNat ∧ c.toNat ≤ 57 := by
  have hclasses : ((decide (c.val ≥ 'A'.val ∧ c.val ≤ 'Z'.val) ||
      (decide (c.val ≥ 'a'.val) && decide (c.val ≤ 'z'.val))) ||
      (decide (c.val ≥ '0'.val) && decide (c.val ≤ '9'.val))) = true := h
  simp only [Bool.or_eq_true, Bool.and_eq_true, decide_eq_true_eq, ge_iff_le,
    UInt32.le_iff_toNat_le] at hclasses
  exact or_assoc.mp hclasses

/-- Letters and digits are no blanks. -/
theorem not_isBlank_of_isAlphanum {c : Char} (h : c.isAlphanum = true) : isBlank c = false := by
  have hrange := toNat_of_isAlphanum h
  simp only [isBlank, Bool.or_eq_false_iff, Bool.and_eq_false_iff, decide_eq_false_iff_not,
    beq_eq_false_iff_ne]
  omega

/-- No white space stands at either end. -/
structure Tight (cs : List Char) : Prop where
  head : ∀ c, cs.head? = some c → isBlank c = false
  last : ∀ c, cs.getLast? = some c → isBlank c = false

theorem tight_of_forall {cs : List Char} (h : ∀ c ∈ cs, isBlank c = false) : Tight cs :=
  ⟨fun c hc => h c (List.mem_of_head? hc), fun c hc => h c (List.mem_of_getLast? hc)⟩

theorem tight_of_all {cs : List Char} (h : (cs.all fun c => !isBlank c) = true) : Tight cs :=
  tight_of_forall fun c hc => by simpa using List.all_eq_true.mp h c hc

/-- A text without a blank in front, before a tight one. -/
theorem Tight.append {cs ds : List Char} (hcs : ∀ c, cs.head? = some c → isBlank c = false)
    (hds : Tight ds) (hne : ds ≠ []) : Tight (cs ++ ds) := by
  refine ⟨fun c hc => ?_, fun c hc => ?_⟩
  · cases cs with
    | nil => exact hds.head c hc
    | cons d cs => exact hcs c hc
  · rw [List.getLast?_append_of_ne_nil cs hne] at hc
    exact hds.last c hc

theorem trimEnd_eq (p : Char → Bool) (cs : List Char) : trimEnd p cs = cs.rdropWhile p := rfl

/-- What is trimmed is what stands around a text that has no such character at its ends. -/
theorem trim_append {p : Char → Bool} {cs tail : List Char}
    (hhead : ∀ c, cs.head? = some c → p c = false) (hlast : ∀ c, cs.getLast? = some c → p c = false)
    (htail : ∀ c ∈ tail, p c = true) : trim p (cs ++ tail) = cs := by
  cases cs with
  | nil =>
      rw [List.nil_append, trim, trimStart, List.dropWhile_eq_nil_iff.mpr htail]
      rfl
  | cons c cs =>
      have hstart : trimStart p (c :: cs ++ tail) = c :: cs ++ tail :=
        List.dropWhile_cons_of_neg (by simp [hhead c rfl])
      have hend : trimEnd p (c :: cs ++ tail) = trimEnd p (c :: cs) := by
        have htail' : ∀ d ∈ tail.reverse, p d = true := fun d hd => htail d (List.mem_reverse.mp hd)
        rw [trimEnd, List.reverse_append, List.dropWhile_append_of_pos htail', trimEnd]
      rw [trim, hstart, hend, trimEnd_eq, List.rdropWhile_eq_self_iff]
      intro hne
      simp [hlast _ (List.getLast?_eq_some_getLast hne)]

/-- Where neither end is to go, nothing goes. -/
theorem trim_eq_self {p : Char → Bool} {cs : List Char}
    (hhead : ∀ c, cs.head? = some c → p c = false)
    (hlast : ∀ c, cs.getLast? = some c → p c = false) : trim p cs = cs := by
  simpa using trim_append hhead hlast (List.forall_mem_nil _)

theorem Tight.trim_eq {cs : List Char} (h : Tight cs) : trim isBlank cs = cs :=
  trim_eq_self h.head h.last

/-- Nothing that is to go is left in front. -/
theorem head_trim {p : Char → Bool} {cs : List Char} {c : Char}
    (hc : (trim p cs).head? = some c) : p c = false := by
  obtain ⟨rest, hrest⟩ := List.head?_eq_some_iff.mp hc
  obtain ⟨more, hmore⟩ : trim p cs <+: trimStart p cs := List.rdropWhile_prefix _ _
  have hhead : (cs.dropWhile p).head? = some c := by
    rw [hrest] at hmore
    rw [← trimStart, ← hmore]
    rfl
  have hnot := List.head?_dropWhile_not p cs
  rw [hhead] at hnot
  simpa using hnot

/-- Nor at the end. -/
theorem last_trim {p : Char → Bool} {cs : List Char} {c : Char}
    (hc : (trim p cs).getLast? = some c) : p c = false := by
  have hne : (trimStart p cs).rdropWhile p ≠ [] := by
    intro hnil
    rw [trim, trimEnd_eq, hnil] at hc
    cases hc
  have hnot := List.rdropWhile_last_not p _ hne
  rw [trim, trimEnd_eq, List.getLast?_eq_some_getLast hne, Option.some.injEq] at hc
  rw [hc] at hnot
  simpa using hnot

theorem tight_trim (cs : List Char) : Tight (trim isBlank cs) :=
  ⟨fun _ hc => head_trim hc, fun _ hc => last_trim hc⟩

/-- Trimming cuts off both ends. -/
theorem trim_isInfix (p : Char → Bool) (cs : List Char) : trim p cs <:+: cs := by
  have hend : trim p cs <+: trimStart p cs := List.rdropWhile_prefix _ _
  exact hend.isInfix.trans (List.dropWhile_suffix p).isInfix

/-- What is not all white space leaves something when trimmed. -/
theorem trim_ne_nil {cs : List Char} {c : Char} (hc : c ∈ cs) (hblank : isBlank c = false) :
    trim isBlank cs ≠ [] := by
  intro hnil
  rw [trim, trimEnd_eq, List.rdropWhile_eq_nil_iff] at hnil
  have hall : ∀ d ∈ cs.dropWhile isBlank, isBlank d = true := hnil
  cases hrest : cs.dropWhile isBlank with
  | nil =>
      rw [List.dropWhile_eq_nil_iff.mp hrest c hc] at hblank
      cases hblank
  | cons d ds =>
      have hnot := List.head?_dropWhile_not isBlank cs
      rw [hrest] at hnot hall
      simp [hall d (.head _)] at hnot

end Dangling.Text
