import Dangling.Proofs.Library.Generics

/-!
# Proofs — Library — Normal form

Plain paths as a normal form.  Whatever a callee path holds, brackets that do not pair, nested
qualifications or odd runs of colons, what `normalize` makes of it has no opening bracket, no white
space, no colon at an end and no run of four colons; and of a path like that it makes nothing else.
White space other than blanks is an exception, since it stays inside a path and is cut off at its
ends.

* `Normal`: the normal paths.
* `normal_normalizeChars`: what a path is reduced to is normal.
* `Normal.normalizeChars_eq`: normal paths stay as they are.
* `normalize_is_normal_form`: both together, and what follows for look-ups.
-/

namespace Dangling.Callee

/-- All white space of a text is blanks. -/
def BlanksOnly (cs : List Char) : Prop := ∀ c ∈ cs, Text.isBlank c = true → c = ' '

/-- A path that cannot be reduced. -/
structure Normal (cs : List Char) : Prop where
  noBracket : '<' ∉ cs
  noBlank : ∀ c ∈ cs, Text.isBlank c = false
  head : cs.head? ≠ some ':'
  last : cs.getLast? ≠ some ':'
  noRun : ¬[':', ':', ':', ':'] <:+: cs

/-! ### Brackets -/

section Brackets

theorem not_mem_eraseGenerics (depth : Nat) (cs : List Char) : '<' ∉ eraseGenerics depth cs := by
  fun_induction eraseGenerics depth cs with
  | case1 => exact List.not_mem_nil
  | case2 depth rest ih => exact ih
  | case3 depth rest ih => exact ih
  | case4 c rest hopen ih =>
      rw [List.mem_cons, not_or]
      exact ⟨fun e => hopen e.symm, ih⟩
  | case5 depth c rest hopen hclose ih => exact ih

theorem eraseGenerics_sublist (depth : Nat) (cs : List Char) :
    (eraseGenerics depth cs).Sublist cs := by
  fun_induction eraseGenerics depth cs with
  | case1 => exact .slnil
  | case2 depth rest ih => exact ih.cons _
  | case3 depth rest ih => exact ih.cons _
  | case4 c rest hopen ih => exact ih.cons_cons c
  | case5 depth c rest hopen hclose ih => exact ih.cons c

theorem eraseGenerics_eq_self {cs : List Char} (h : '<' ∉ cs) : eraseGenerics 0 cs = cs := by
  induction cs with
  | nil => rfl
  | cons c cs ih =>
      obtain ⟨hc, hcs⟩ := not_or.mp (mt List.mem_cons.mpr h)
      rw [eraseGenerics_outside (Ne.symm hc), ih hcs]

end Brackets

/-! ### Qualifications -/

section Qualifications

variable {c : Char}

/-- A qualification and what follows it are parts of the path. -/
theorem splitQualified_eq_some {acc cs inner rest : List Char} {depth : Nat}
    (h : splitQualified acc depth cs = some (inner, rest)) :
    acc.reverse ++ cs = inner ++ '>' :: rest := by
  fun_induction splitQualified acc depth cs with
  | case1 => cases h
  | case2 acc depth cs ih => simpa using ih h
  | case3 acc cs =>
      obtain ⟨rfl, rfl⟩ := Prod.mk.inj (Option.some.inj h)
      rfl
  | case4 acc depth cs hdepth ih => simpa using ih h
  | case5 acc depth c cs hopen hone hclose ih => simpa using ih h

theorem selfType_isPrefix (depth : Nat) (cs : List Char) : selfType depth cs <+: cs := by
  fun_induction selfType depth cs with
  | case1 => exact List.nil_prefix
  | case2 depth rest ih => exact (List.prefix_cons_inj _).mpr ih
  | case3 depth rest ih => exact (List.prefix_cons_inj _).mpr ih
  | case4 => exact List.nil_prefix
  | case5 depth c rest hopen hclose has ih => exact (List.prefix_cons_inj _).mpr ih

theorem mem_of_mem_strip {cs : List Char} (hc : c ∈ strip cs) : c ∈ cs :=
  (Text.trim_isInfix Text.isBlank cs).subset hc

/-- A segment has no white space that the type does not have. -/
theorem mem_segment {self : List Char} (hc : c ∈ segment self) :
    c ∈ self ∨ Text.isBlank c = false := by
  have hnamed : ∀ {name : List Char}, (name.all fun d => !Text.isBlank d) = true → c ∈ name →
      Text.isBlank c = false := fun hname hmem => by
    simpa using List.all_eq_true.mp hname c hmem
  have hborrowed : ∀ d ∈ strip ((strip self).dropWhile (· == '&')), d ∈ self := fun d hd =>
    mem_of_mem_strip ((List.dropWhile_sublist _).subset (mem_of_mem_strip hd))
  rw [segment] at hc
  split at hc
  all_goals
    split at hc
    · exact .inr (hnamed rfl hc)
    split at hc
    · exact .inr (hnamed rfl hc)
    split at hc
    · exact .inr (hnamed rfl hc)
    have hc := (eraseGenerics_sublist 0 _).subset (mem_of_mem_strip hc)
  · exact .inl (hborrowed c (List.mem_of_mem_drop (mem_of_mem_strip hc)))
  · exact .inl (hborrowed c hc)

/-- A path without its qualification has no white space that it does not have with it. -/
theorem mem_resolveQualified {cs : List Char} (hc : c ∈ resolveQualified cs) :
    c ∈ cs ∨ Text.isBlank c = false := by
  rw [resolveQualified.eq_def] at hc
  split at hc
  · split at hc
    case h_1 inner rest hsplit =>
      have hparts := splitQualified_eq_some hsplit
      rw [List.reverse_nil, List.nil_append] at hparts
      rw [hparts]
      rcases List.mem_append.mp hc with hc | hc
      · refine (mem_segment hc).imp_left fun hc => List.mem_append_left _ ?_
        exact List.mem_of_mem_drop ((selfType_isPrefix 0 _).subset hc)
      · exact .inl (List.mem_append_right _ (.tail _ hc))
    case h_2 => exact .inl hc
  · exact .inl hc

end Qualifications

/-! ### Separators -/

section Separators

theorem collapse_sublist (inRun : Bool) (cs : List Char) : (collapse inRun cs).Sublist cs := by
  fun_induction collapse inRun cs with
  | case1 rest ih => exact (ih.cons_cons _).cons_cons _
  | case2 rest ih => exact (ih.cons _).cons _
  | case3 inRun c rest h₁ h₂ ih => exact ih.cons_cons c
  | case4 => exact .slnil

/-- What does not start with a colon does not start with one when its separators are collapsed. -/
theorem head_collapse {inRun : Bool} {cs : List Char} (h : cs.head? ≠ some ':') :
    (collapse inRun cs).head? ≠ some ':' := by
  cases cs with
  | nil => simp [collapse]
  | cons c cs =>
      have hc : c ≠ ':' := fun e => h (congrArg some e)
      rw [collapse_cons hc]
      exact fun e => hc (Option.some.inj e)

/-- A colon that is no part of a separator stands alone. -/
theorem head_ne_colon {inRun : Bool} {c : Char} {rest : List Char} (hc : c = ':')
    (h₁ : ∀ tail, inRun = false → c = ':' → rest = ':' :: tail → False)
    (h₂ : ∀ tail, inRun = true → c = ':' → rest = ':' :: tail → False) :
    rest.head? ≠ some ':' := by
  intro hhead
  obtain ⟨tail, htail⟩ := List.head?_eq_some_iff.mp hhead
  cases inRun with
  | false => exact h₁ tail rfl hc htail
  | true => exact h₂ tail rfl hc htail

theorem not_prefix_of_head {cs colons : List Char} (h : cs.head? ≠ some ':') :
    ¬ ':' :: colons <+: cs := by
  rintro ⟨tail, rfl⟩
  exact h rfl

/-- **Collapsed separators leave no run of four colons**, and right after a separator there is no
other. -/
theorem collapse_noRun (inRun : Bool) (cs : List Char) :
    ¬[':', ':', ':', ':'] <:+: collapse inRun cs ∧
      (inRun = true → ¬[':', ':'] <+: collapse inRun cs) := by
  fun_induction collapse inRun cs with
  | case1 rest ih =>
      obtain ⟨hrun, hstart⟩ := ih
      refine ⟨?_, fun h => by cases h⟩
      -- a run of four that begins with the separator would go on with another
      rw [List.infix_cons_iff, List.infix_cons_iff]
      rintro (h | h | h)
      · exact hstart rfl (by simpa using h)
      · have hthree : [':', ':', ':'] <+: collapse true rest := by simpa using h
        exact hstart rfl (List.IsPrefix.trans ⟨[':'], rfl⟩ hthree)
      · exact hrun h
  | case2 rest ih => exact ih
  | case3 inRun c rest h₁ h₂ ih =>
      -- at a colon that is no separator, no second one follows
      have hsingle : ∀ colons, ¬ ':' :: ':' :: colons <+: c :: collapse false rest := by
        intro colons h
        obtain ⟨hc, h⟩ := List.cons_prefix_cons.mp h
        exact not_prefix_of_head (head_collapse (head_ne_colon hc.symm h₁ h₂)) h
      refine ⟨?_, fun _ => hsingle []⟩
      rw [List.infix_cons_iff]
      rintro (h | h)
      · exact hsingle _ h
      · exact ih.1 h
  | case4 => exact ⟨by simp, fun _ => by simp⟩

/-- Without runs of four colons, and right after no separator, there is nothing to collapse. -/
theorem collapse_eq_self {inRun : Bool} {cs : List Char} (hrun : ¬[':', ':', ':', ':'] <:+: cs)
    (hstart : inRun = true → ¬[':', ':'] <+: cs) : collapse inRun cs = cs := by
  fun_induction collapse inRun cs with
  | case1 rest ih =>
      have hrest : ¬[':', ':'] <+: rest := fun h =>
        hrun (List.IsPrefix.isInfix (by simpa using h))
      rw [ih (fun h => hrun (h.trans (List.suffix_append [':', ':'] rest).isInfix)) fun _ => hrest]
  | case2 rest ih => exact absurd (List.prefix_append [':', ':'] rest) (hstart rfl)
  | case3 inRun c rest h₁ h₂ ih =>
      rw [ih (fun h => hrun (h.trans (List.suffix_cons c rest).isInfix)) fun h => by cases h]
  | case4 => rfl

end Separators

/-! ### Normal paths -/

section Normal

variable {cs : List Char}

/-- **Normal paths stay as they are.** -/
theorem Normal.normalizeChars_eq (h : Normal cs) : normalizeChars cs = cs := by
  have hstrip : strip cs = cs := (Text.tight_of_forall h.noBlank).trim_eq
  have hresolve : resolveQualified cs = cs :=
    resolveQualified_eq_self fun hhead => h.noBracket (List.mem_of_head? hhead)
  have hfilter : cs.filter (· != ' ') = cs := by
    refine List.filter_eq_self.mpr fun c hc => bne_iff_ne.mpr ?_
    rintro rfl
    cases h.noBlank ' ' hc
  rw [normalizeChars, hstrip, hresolve, eraseGenerics_eq_self h.noBracket, hfilter,
    collapse_eq_self h.noRun fun e => by cases e]
  refine Text.trim_eq_self (fun c hc => ?_) fun c hc => ?_
  · exact beq_false_of_ne fun e => h.head (e ▸ hc)
  · exact beq_false_of_ne fun e => h.last (e ▸ hc)

/-- **What a path is reduced to is normal.** -/
theorem normal_normalizeChars (hcs : BlanksOnly cs) : Normal (normalizeChars cs) := by
  rw [normalizeChars]
  generalize hpath : eraseGenerics 0 (resolveQualified (strip cs)) = path
  have hpart := Text.trim_isInfix (· == ':') (collapse false (path.filter (· != ' ')))
  have hmem : ∀ c ∈ Text.trim (· == ':') (collapse false (path.filter (· != ' '))),
      c ∈ path ∧ c ≠ ' ' := by
    intro c hc
    obtain ⟨hc, hne⟩ := List.mem_filter.mp ((collapse_sublist false _).subset (hpart.subset hc))
    exact ⟨hc, bne_iff_ne.mp hne⟩
  refine ⟨fun h => ?_, fun c hc => ?_, fun h => ?_, fun h => ?_, fun h => ?_⟩
  · exact not_mem_eraseGenerics 0 _ (hpath ▸ (hmem _ h).1)
  · obtain ⟨hc, hne⟩ := hmem c hc
    rw [← hpath] at hc
    rcases mem_resolveQualified ((eraseGenerics_sublist 0 _).subset hc) with hc | hblank
    · exact Bool.eq_false_iff.mpr fun hblank => hne (hcs c (mem_of_mem_strip hc) hblank)
    · exact hblank
  · cases Text.head_trim h
  · cases Text.last_trim h
  · exact (collapse_noRun false _).1 (h.trans hpart)

end Normal

theorem toList_normalize (path : String) : (normalize path).toList = normalizeChars path.toList :=
  String.toList_ofList

theorem normalize_normalize {path : String} (h : BlanksOnly path.toList) :
    normalize (normalize path) = normalize path := by
  rw [normalize, toList_normalize, (normal_normalizeChars h).normalizeChars_eq, normalize]

/-- **The plain path of a callee is its normal form.**  For every text whose white space is all
blanks,

* its plain path has no opening bracket, no white space, no colon at an end and no run of four
  colons;
* it is a plain path itself exactly if it is like that, and a plain path is not reduced any further;
* its plain path has the same library model, and names the function of that very name. -/
theorem normalize_is_normal_form (path : String) (h : BlanksOnly path.toList) :
    Normal (normalize path).toList ∧ (normalize path = path ↔ Normal path.toList) ∧
      normalize (normalize path) = normalize path ∧
      (∀ lib : Library, lib.lookup (normalize path) = lib.lookup path) ∧
      ∀ p : Program, p.resolve (normalize path) = p.body? (normalize path) := by
  have hnormal : Normal (normalize path).toList := by
    rw [toList_normalize]
    exact normal_normalizeChars h
  have hagain := normalize_normalize h
  refine ⟨hnormal, ⟨fun e => e ▸ hnormal, fun hpath => ?_⟩, hagain, fun lib => ?_, fun p => ?_⟩
  · rw [normalize, hpath.normalizeChars_eq, String.ofList_toList]
  · rw [Library.lookup, Library.lookup, toList_normalize,
      (normal_normalizeChars h).normalizeChars_eq]
  · rw [Program.resolve, hagain]
    cases p.body? (normalize path) <;> rfl

/-- A qualification of a borrowed type, an odd run of colons, and brackets that do not pair. -/
def tangled : String := " <&mut Vec<u8> as Tr<X>>:: :::m > :: n::<T"

/-- Three colons and a bracket that closes nothing are left of it, and stay. -/
theorem tangled_in_normal_form :
    BlanksOnly tangled.toList ∧ normalize tangled = "Vec:::m>::n" ∧
      normalize "Vec:::m>::n" = "Vec:::m>::n" ∧ Normal "Vec:::m>::n".toList := by
  have hall : (tangled.toList.all fun c => !Text.isBlank c || c == ' ') = true := rfl
  have hblanks : BlanksOnly tangled.toList := fun c hc hblank => by
    simpa [hblank] using List.all_eq_true.mp hall c hc
  have hplain : normalize tangled = "Vec:::m>::n" := by decide +kernel
  obtain ⟨hnormal, -, hagain, -⟩ := normalize_is_normal_form tangled hblanks
  rw [hplain] at hnormal hagain
  exact ⟨hblanks, hplain, hagain, hnormal⟩

end Dangling.Callee
