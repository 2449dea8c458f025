import Dangling.Proofs.Mir.TypeScan
import Mathlib.Data.List.Chain

/-!
# Proofs — Mir — TypeNames

A name that a type text can enter is itself a type text, and reading it enters that name: it is made
of path characters, none of them blank, and has no segments.  So going through the names of a
declaration table enters every name that any text can enter later.

* `Enterable.lastSegment_eq`: the last segment of a path is its own last segment.
* `Enterable.enter_of_whole`: a name, read as a text, enters itself.
-/

namespace Dangling.Ty.Reader

/-! ### Characters -/

/-- All white space. -/
def blanks : List Nat :=
  List.range' 0x09 5 ++ List.range' 0x1C 5 ++ List.range' 0x2000 11 ++
    [0x85, 0xA0, 0x1680, 0x2028, 0x2029, 0x202F, 0x205F, 0x3000]

theorem not_isPath_of_isBlank {c : Char} (h : Text.isBlank c = true) : isPath c = false := by
  have hnone : ∀ n ∈ blanks, isPath (Char.ofNat n) = false := by decide +kernel
  have hmem : c.toNat ∈ blanks := by
    simp only [Text.isBlank, Bool.or_eq_true, Bool.and_eq_true, decide_eq_true_eq, beq_iff_eq] at h
    simp only [blanks, List.mem_append, List.mem_range'_1, List.mem_cons, List.not_mem_nil, or_false]
    omega
  simpa using hnone c.toNat hmem

theorem skip_of_isPath {c : Char} {cs : List Char} (h : isPath c = true) :
    skip (c :: cs) = c :: cs := by
  refine List.dropWhile_cons_of_neg fun hblank => ?_
  rw [not_isPath_of_isBlank hblank] at h
  cases h

/-! ### Last segments -/

/-- No two colons stand side by side. -/
def Single (cs : List Char) : Prop := cs.IsChain fun a b => ¬(a = ':' ∧ b = ':')

/-- A text of one segment is kept as a whole. -/
theorem lastSegment_go_eq {cs : List Char} (h : Single cs) (acc : List Char) :
    lastSegment.go acc cs = acc.reverse ++ cs := by
  fun_induction lastSegment.go acc cs with
  | case1 acc => simp
  | case2 acc rest ih => simp [Single] at h
  | case3 acc c rest hne ih =>
      rw [ih (List.IsChain.tail h)]
      simp

/-- What is left is one segment. -/
theorem single_lastSegment_go {acc cs : List Char} (h : Single acc.reverse)
    (hnext : acc.head? = some ':' → cs.head? ≠ some ':') : Single (lastSegment.go acc cs) := by
  fun_induction lastSegment.go acc cs with
  | case1 acc => exact h
  | case2 acc rest ih => exact ih .nil (by simp)
  | case3 acc c rest hne ih =>
      refine ih ?_ fun hc hrest => ?_
      · rw [List.reverse_cons, Single, List.isChain_append]
        refine ⟨h, List.IsChain.singleton c, fun x hx y hy hcolons => ?_⟩
        rw [List.getLast?_reverse] at hx
        exact hnext (hcolons.1 ▸ hx) (hcolons.2 ▸ hy)
      · obtain ⟨more, hmore⟩ := List.head?_eq_some_iff.mp hrest
        exact hne more (Option.some.inj hc) hmore

/-- Nothing is added. -/
theorem mem_lastSegment_go {acc cs : List Char} {c : Char} (h : c ∈ lastSegment.go acc cs) :
    c ∈ acc ∨ c ∈ cs := by
  fun_induction lastSegment.go acc cs with
  | case1 acc => exact .inl (List.mem_reverse.mp h)
  | case2 acc rest ih =>
      have hrest : c ∈ rest := (ih h).resolve_left List.not_mem_nil
      exact .inr (.tail _ (.tail _ hrest))
  | case3 acc a rest hne ih =>
      obtain hacc | hrest := ih h
      · obtain rfl | hacc := List.mem_cons.mp hacc
        · exact .inr (.head _)
        · exact .inl hacc
      · exact .inr (.tail _ hrest)

/-- A name that is the last segment of a path. -/
theorem Enterable.isPath {declared : String → Bool} {name : String} (h : Enterable declared name) :
    ∀ c ∈ name.toList, isPath c = true := by
  obtain ⟨path, hpath, rfl⟩ := h.segment
  intro c hc
  rw [lastSegment, String.toList_ofList] at hc
  exact hpath c ((mem_lastSegment_go hc).resolve_left List.not_mem_nil)

/-- A name that may be entered is its own last segment. -/
theorem Enterable.lastSegment_eq {declared : String → Bool} {name : String}
    (h : Enterable declared name) : lastSegment name.toList = name := by
  obtain ⟨path, -, rfl⟩ := h.segment
  have hsingle : Single (lastSegment path).toList := by
    rw [lastSegment, String.toList_ofList]
    exact single_lastSegment_go .nil (by simp)
  rw [lastSegment, lastSegment_go_eq hsingle, List.reverse_nil, List.nil_append, String.ofList_toList]

/-! ### Reading a name -/

/-- A text that starts with a letter of a path is read as a path. -/
theorem type_of_isPath {σ : Type} (cx : Context σ) (fuel : Nat) {c : Char} (h : isPath c = true)
    (cs : List Char) (s : σ) : type cx (fuel + 1) (c :: cs) s = path cx fuel (c :: cs) s := by
  rw [type, skip_of_isPath h]
  have hmarks : isPath '&' = false ∧ isPath '*' = false ∧ isPath '(' = false ∧
      isPath '[' = false ∧ isPath '!' = false := ⟨rfl, rfl, rfl, rfl, rfl⟩
  split <;> simp_all

/-- A text that is a path and nothing else names a type, unless it is one of two words. -/
theorem path_of_isPath {σ : Type} (cx : Context σ) (fuel : Nat) {c : Char} {cs : List Char}
    (h : ∀ a ∈ c :: cs, isPath a = true) (s : σ) :
    path cx (fuel + 2) (c :: cs) s =
      if c :: cs = ['d', 'y', 'n'] ∨ c :: cs = ['i', 'm', 'p', 'l'] then
        .error (.nameless cx.text (cx.position []))
      else named cx (lastSegment (c :: cs)) [] s >>= fun x => .ok (x.1, [], x.2) := by
  rw [path]
  simp only [skip_of_isPath (h c (.head _)), List.takeWhile_eq_self_iff.mpr h,
    List.dropWhile_eq_nil_iff.mpr h]
  by_cases hword : c :: cs = ['d', 'y', 'n'] ∨ c :: cs = ['i', 'm', 'p', 'l']
  · rw [if_pos hword, if_neg (by simp), if_pos (by simpa using hword), path]
    rfl
  · rw [if_neg hword, if_neg (by simp), if_neg (by simpa using hword), if_neg (by simp [skip])]
    rfl

/-- **A name, read as a text, enters itself.** -/
theorem Enterable.enter_of_whole {σ : Type} {declared : String → Bool} {name : String}
    (h : Enterable declared name) {enter : Enter σ} {s s' : σ} {t : Ty}
    (hread : whole declared enter name s = .ok (t, s')) : enter name false s = .ok s' := by
  have hpath := h.isPath
  have hseg := h.lastSegment_eq
  rw [whole] at hread
  cases hcs : name.toList with
  | nil =>
      rw [hcs, type] at hread
      cases hread
  | cons c cs =>
      rw [hcs] at hpath hseg hread
      rw [type_of_isPath _ _ (hpath c (.head _)), path_of_isPath _ _ hpath, hseg] at hread
      by_cases hword : c :: cs = ['d', 'y', 'n'] ∨ c :: cs = ['i', 'm', 'p', 'l']
      · rw [if_pos hword] at hread
        cases hread
      · rw [if_neg hword, named, h.foreign] at hread
        simp only [h.declared, if_true, List.isEmpty_nil, Bool.not_true] at hread
        cases henter : enter name false s with
        | error e =>
            rw [henter] at hread
            cases hread
        | ok s₁ =>
            rw [henter] at hread
            cases hread
            rfl

end Dangling.Ty.Reader
