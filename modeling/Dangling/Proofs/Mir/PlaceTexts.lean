import Dangling.Mir.Place.Reader
import Dangling.Proofs.Mir.Outcome
import Dangling.Proofs.Text.Blank
import Dangling.Proofs.Text.Numeral

/-!
# Proofs — Mir — PlaceTexts

The text of a place, read as a place, is that place again.  A place text grows at both ends: a
dereference puts it in parentheses, a field stands behind it.  The reader goes the other way round:
it finds the parenthesis that closes the first one, reads what is inside, and then takes the fields.
So the argument is about a place text with more fields behind it, and goes by the last step.

* `Place.Named`: the places whose fields all have names.
* `Place.Reader.splitParens_text`: a place text closes the parentheses that it opens.
* `Place.Named.start_text`: the reader gets from a text to its place, and goes on with what follows.
* `Place.Named.ofText_text`: a place text alone.
* `Place.readable_of_ofText`: the fields of a place that was read have names, or stand for an index.
-/

namespace Dangling.Place

open Reader

/-! ### Places with named fields -/

/-- A field name: ASCII letters, digits and underscores. -/
structure IsFieldName (name : String) : Prop where
  nonempty : name ≠ ""
  chars : ∀ c ∈ name.toList, isFieldChar c = true

/-- A local, narrowed by dereferences and by fields that have names. -/
inductive Named : Place → Prop
  | base (n : Nat) : Named { base := n }
  | deref {p : Place} (h : Named p) : Named p.deref
  | field {p : Place} {name : String} (h : Named p) (hname : IsFieldName name) : Named (p.field name)

/-- Every field that a place passes has a name. -/
theorem named_iff {p : Place} : p.Named ↔ ∀ name, .field name ∈ p.steps → IsFieldName name := by
  refine ⟨fun h => ?_, fun h => ?_⟩
  · induction h with
    | base n => exact fun name hname => absurd hname List.not_mem_nil
    | deref _ ih =>
        intro name hname
        exact ih name (by simpa [Place.deref] using hname)
    | field _ hname ih =>
        intro name hmem
        obtain hmem | hlast := List.mem_append.mp hmem
        · exact ih name hmem
        · obtain rfl := Projection.field.inj (List.mem_singleton.mp hlast)
          exact hname
  · obtain ⟨n, steps⟩ := p
    -- The last step is the one that a place was built with last.
    induction steps using List.reverseRecOn with
    | nil => exact .base n
    | append_singleton steps step ih =>
        have hsteps : Named ⟨n, steps⟩ := ih fun name hname => h name (List.mem_append_left _ hname)
        cases step with
        | deref => exact .deref hsteps
        | field name => exact .field hsteps (h name (List.mem_append_right _ (.head _)))

theorem toList_text_base (n : Nat) : (text { base := n }).toList = '_' :: Nat.toDigits 10 n := by
  change ("_" ++ toString n).toList = _
  simp [Nat.toString_eq_repr, Nat.toList_repr]

/-- A dereference is written in brackets. -/
theorem toList_text_deref (p : Place) :
    p.deref.text.toList = '(' :: '*' :: (p.text.toList ++ [')']) := by
  simp [text, deref, stepText]

/-- A field is written behind a dot. -/
theorem toList_text_field (p : Place) (name : String) :
    (p.field name).text.toList = p.text.toList ++ '.' :: name.toList := by
  simp [text, field, stepText]

theorem Named.text_ne_nil {p : Place} (h : p.Named) : p.text.toList ≠ [] := by
  cases h with
  | base n => simp [toList_text_base]
  | deref _ => simp [toList_text_deref]
  | field _ _ => simp [toList_text_field]

/-! ### The characters of a place text -/

/-- Digits may stand in the name of a field. -/
theorem isFieldChar_of_mem_toDigits {n : Nat} {c : Char} (h : c ∈ Nat.toDigits 10 n) :
    isFieldChar c = true := by
  rw [isFieldChar, Char.isAlphanum, Text.isDigit_of_mem_toDigits h, Bool.or_true, Bool.true_or]

/-- Blanks may not. -/
theorem not_isBlank_of_isFieldChar {c : Char} (h : isFieldChar c = true) :
    Text.isBlank c = false := by
  rw [isFieldChar, Bool.or_eq_true, beq_iff_eq] at h
  obtain h | rfl := h
  · exact Text.not_isBlank_of_isAlphanum h
  · rfl

/-- By induction on the steps: a place is written without blanks. -/
theorem Named.not_isBlank {p : Place} (h : p.Named) :
    ∀ c ∈ p.text.toList, Text.isBlank c = false := by
  induction h with
  | base n =>
      rw [toList_text_base]
      refine List.forall_mem_cons.mpr ⟨rfl, fun c hc => ?_⟩
      exact not_isBlank_of_isFieldChar (isFieldChar_of_mem_toDigits hc)
  | deref _ ih =>
      rw [toList_text_deref]
      refine List.forall_mem_cons.mpr ⟨rfl, List.forall_mem_cons.mpr ⟨rfl, ?_⟩⟩
      exact List.forall_mem_append.mpr ⟨ih, List.forall_mem_singleton.mpr rfl⟩
  | field _ hname ih =>
      rw [toList_text_field]
      refine List.forall_mem_append.mpr ⟨ih, List.forall_mem_cons.mpr ⟨rfl, fun c hc => ?_⟩⟩
      exact not_isBlank_of_isFieldChar (hname.chars c hc)

namespace Reader

/-! ### Parentheses -/

/-- A letter inside of brackets is passed over. -/
theorem splitParens_cons {c : Char} (hopen : c ≠ '(') (hclose : c ≠ ')') (acc : List Char)
    (depth : Nat) (rest : List Char) :
    splitParens acc depth (c :: rest) = splitParens (c :: acc) depth rest := by
  rw [splitParens.eq_def]
  split <;> simp_all

/-- Characters of field names are passed over. -/
theorem splitParens_append {cs : List Char} (h : ∀ c ∈ cs, isFieldChar c = true) (acc : List Char)
    (depth : Nat) (rest : List Char) :
    splitParens acc depth (cs ++ rest) = splitParens (cs.reverse ++ acc) depth rest := by
  induction cs generalizing acc with
  | nil => rfl
  | cons c cs ih =>
      obtain ⟨hc, hcs⟩ := List.forall_mem_cons.mp h
      have hopen : c ≠ '(' := by rintro rfl; cases hc
      have hclose : c ≠ ')' := by rintro rfl; cases hc
      rw [List.cons_append, splitParens_cons hopen hclose, ih hcs, List.reverse_cons,
        List.append_assoc]
      rfl

/-- **A place text closes the parentheses that it opens.** -/
theorem splitParens_text {p : Place} (h : p.Named) (acc : List Char) (depth : Nat)
    (rest : List Char) : splitParens acc (depth + 1) (p.text.toList ++ rest) =
      splitParens (p.text.toList.reverse ++ acc) (depth + 1) rest := by
  induction h generalizing acc depth rest with
  | base n =>
      rw [toList_text_base]
      exact splitParens_append
        (List.forall_mem_cons.mpr ⟨rfl, fun c hc => isFieldChar_of_mem_toDigits hc⟩) acc _ rest
  | deref _ ih =>
      have hclose : ∀ acc, splitParens acc (depth + 2) (')' :: rest) =
          splitParens (')' :: acc) (depth + 1) rest := fun acc => rfl
      rw [toList_text_deref, List.cons_append, List.cons_append, splitParens,
        splitParens_cons (by decide) (by decide), List.append_assoc, ih, List.singleton_append, hclose]
      simp
  | field _ hname ih =>
      rw [toList_text_field, List.append_assoc, ih, List.cons_append,
        splitParens_cons (by decide) (by decide), splitParens_append hname.chars]
      simp

/-- The parenthesis that a dereference opens is closed at its end. -/
theorem splitParens_deref {p : Place} (h : p.Named) (tail : List Char) :
    splitParens [] 0 ('(' :: '*' :: (p.text.toList ++ [')'] ++ tail)) =
      some ('(' :: '*' :: p.text.toList, tail) := by
  rw [splitParens, splitParens_cons (by decide) (by decide), List.append_assoc, splitParens_text h,
    List.singleton_append, splitParens]
  simp

/-! ### Reading place texts -/

/-- What may follow a place text: the end, or a field. -/
def Trails (tail : List Char) : Prop := ∀ c, tail.head? = some c → c = '.'

/-- Behind a place there is a dot or nothing. -/
theorem Trails.not_mem {tail : List Char} (h : Trails tail) {p : Char → Bool} (hdot : p '.' = false) :
    ∀ c, tail.head? = some c → p c = false := by
  intro c hc
  rw [h c hc, hdot]

@[simp] theorem suffixes_nil (whole : List Char) (fuel : Nat) (p : Place) :
    suffixes whole fuel p [] = .ok (p, []) := by
  cases fuel <;> rfl

/-- A field in front of what follows a place. -/
theorem suffixes_field (whole : List Char) (fuel : Nat) (p : Place) {name : String}
    (hname : IsFieldName name) {tail : List Char} (htail : Trails tail) :
    suffixes whole (fuel + 1) p ('.' :: (name.toList ++ tail)) =
      suffixes whole fuel (p.field name) tail := by
  have htake := Text.takeWhile_append hname.chars (htail.not_mem rfl)
  have hne : name.toList ≠ [] := fun h => hname.nonempty (String.toList_eq_nil_iff.mp h)
  simp [suffixes, htake, hne, String.ofList_toList]

/-- The number of a local is read back from its digits. -/
theorem number?_toDigits (n : Nat) {tail : List Char} (htail : Trails tail) :
    number? (Nat.toDigits 10 n ++ tail) = some (n, tail) := by
  have hdigits : ∀ c ∈ Nat.toDigits 10 n, Text.isDecimal c = true := fun c hc =>
    Text.isDecimal_of_isDigit (Text.isDigit_of_mem_toDigits hc)
  obtain ⟨htake, hdrop⟩ := Text.takeWhile_append hdigits (htail.not_mem rfl)
  rw [number?, htake, hdrop, Text.decimalValue_toDigits]
  simp [Nat.toDigits_ne_nil]

theorem strip_eq {cs : List Char} (h : ∀ c ∈ cs, Text.isBlank c = false) : strip cs = cs :=
  (Text.tight_of_forall h).trim_eq

end Reader

/-- **A place text in front of fields**: the reader gets to the place, and goes on with the fields. -/
theorem Named.start_text {p : Place} (h : p.Named) {fuel : Nat} {tail : List Char}
    (hfuel : 2 * p.text.toList.length ≤ fuel) (htail : Trails tail) :
    ∃ left, tail.length ≤ left ∧
      start fuel (p.text.toList ++ tail) = suffixes (p.text.toList ++ tail) left p tail := by
  induction h generalizing fuel tail with
  | base n =>
      rw [toList_text_base] at hfuel ⊢
      obtain ⟨fuel, rfl⟩ : ∃ k, fuel = k + 1 := ⟨fuel - 1, by simp at hfuel; omega⟩
      refine ⟨tail.length, Nat.le_refl _, ?_⟩
      rw [List.cons_append, start]
      simp only [number?_toDigits n htail]
  | @deref p hp ih =>
      rw [toList_text_deref] at hfuel ⊢
      simp only [List.length_cons, List.length_append] at hfuel
      obtain ⟨fuel, rfl⟩ : ∃ k, fuel = k + 2 := ⟨fuel - 2, by omega⟩
      have hinner : whole (fuel + 1) p.text.toList = .ok p := by
        obtain ⟨left, -, hstart⟩ := @ih fuel [] (by omega) (by simp [Trails])
        rw [List.append_nil, suffixes_nil] at hstart
        rw [whole, strip_eq hp.not_isBlank, hstart]
        rfl
      refine ⟨tail.length, Nat.le_refl _, ?_⟩
      rw [List.cons_append, List.cons_append, start]
      simp only [splitParens_deref hp, List.drop_succ_cons, List.drop_zero, hinner, ok_bind]
  | @field p name hp hname ih =>
      rw [toList_text_field, List.length_append] at hfuel
      obtain ⟨left, hleft, hstart⟩ :=
        @ih fuel ('.' :: (name.toList ++ tail)) (by omega) (by simp [Trails])
      rw [List.length_cons, List.length_append] at hleft
      obtain ⟨left, rfl⟩ : ∃ k, left = k + 1 := ⟨left - 1, by omega⟩
      refine ⟨left, by omega, ?_⟩
      rw [toList_text_field, List.append_assoc, List.cons_append, hstart,
        suffixes_field _ _ _ hname htail]

/-- **A place text alone** is read as its place. -/
theorem Named.ofText_text {p : Place} (h : p.Named) : ofText p.text = .ok p := by
  have hfuel : 2 * p.text.toList.length ≤ 2 * p.text.length + 1 := by
    rw [String.length_toList]
    omega
  have htail : Trails [] := by simp [Trails]
  obtain ⟨left, -, hstart⟩ := h.start_text hfuel htail
  rw [List.append_nil, suffixes_nil] at hstart
  rw [ofText, whole, strip_eq h.not_isBlank, hstart]
  rfl

/-! ### The fields of a place that was read -/

/-- A field has a name, or stands for an index. -/
def Readable (p : Place) : Prop := ∀ name, .field name ∈ p.steps → IsFieldName name ∨ name = "[]"

/-- A field may be added. -/
theorem Readable.field {p : Place} (h : p.Readable) {name : String}
    (hname : IsFieldName name ∨ name = "[]") : (p.field name).Readable := by
  intro other hother
  obtain hother | hlast := List.mem_append.mp hother
  · exact h other hother
  · obtain rfl := Projection.field.inj (List.mem_singleton.mp hlast)
    exact hname

theorem Readable.deref {p : Place} (h : p.Readable) : p.deref.Readable := by
  intro name hname
  exact h name (by simpa [Place.deref] using hname)

/-- By induction on the fuel: what is read behind a place are fields. -/
theorem Readable.suffixes {p q : Place} (h : p.Readable) {text cs rest : List Char} {fuel : Nat}
    (hread : suffixes text fuel p cs = .ok (q, rest)) : q.Readable := by
  induction fuel generalizing p cs with
  | zero =>
      cases hread
      exact h
  | succ fuel ih =>
      rw [Reader.suffixes.eq_def] at hread
      dsimp only at hread
      split at hread
      · split at hread
        · cases hread
          exact h
        · next rest hne =>
            refine ih (h.field (.inl ⟨?_, fun c hc => ?_⟩)) hread
            · intro hnil
              rw [String.ofList_eq_empty_iff] at hnil
              exact hne (by rw [hnil]; rfl)
            · rw [String.toList_ofList] at hc
              exact List.mem_takeWhile_imp hc
      · split at hread
        · cases hread
        · exact ih (h.field (.inr rfl)) hread
      · cases hread
        exact h

/-- The two readers call each other, so the fields of what they read are known together. -/
theorem readable_of_read (fuel : Nat) :
    (∀ cs p rest, start fuel cs = .ok (p, rest) → p.Readable) ∧
      ∀ cs p, whole fuel cs = .ok p → p.Readable := by
  induction fuel with
  | zero =>
      refine ⟨fun cs p rest h => ?_, fun cs p h => ?_⟩
      · rw [start] at h
        cases h
      · rw [whole] at h
        cases h
  | succ fuel ih =>
      refine ⟨fun cs p rest h => ?_, fun cs p h => ?_⟩
      · rw [start.eq_def] at h
        dsimp only at h
        split at h
        · split at h
          · cases h
          · next inner after _ =>
              obtain ⟨q, hq, hsuffixes⟩ := bind_eq_ok.mp h
              exact (ih.2 _ q hq).deref.suffixes hsuffixes
        · next after =>
            obtain ⟨⟨q, left⟩, hq, hp⟩ := bind_eq_ok.mp h
            cases hp
            exact (ih.1 _ _ _ hq).deref
        · split at h
          · next n after _ =>
              have hbase : Readable { base := n } := fun name hname => absurd hname List.not_mem_nil
              exact hbase.suffixes h
          · cases h
        · cases h
      · rw [whole, bind_eq_ok] at h
        obtain ⟨⟨q, rest⟩, hstart, hp⟩ := h
        dsimp only at hp
        split at hp
        · cases hp
          exact ih.1 _ _ rest hstart
        · cases hp

/-- **Every place that is read can be written and read again.** -/
theorem readable_of_ofText {text : String} {p : Place} (h : ofText text = .ok p) : p.Readable :=
  (readable_of_read _).2 _ p h

/-- A place that was read, without an index, has named fields. -/
theorem Readable.named {p : Place} (h : p.Readable) (hindex : .field "[]" ∉ p.steps) : p.Named := by
  refine named_iff.mpr fun name hname => (h name hname).resolve_right ?_
  rintro rfl
  exact hindex hname

end Dangling.Place
