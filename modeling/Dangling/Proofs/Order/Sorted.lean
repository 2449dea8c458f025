import Dangling.Order.Sorted

/-!
# Proofs — Order — Sorted

What is in a sorted list.  `insert`, `union` and `ofList` keep every member, provided that the
comparison takes only equal things for equal (`Std.LawfulEqCmp`), and if it is a linear order, make
strictly ascending lists; `sortBy` is a permutation, and ascending.  The comparison of texts is such an
order, so a list of texts can be sorted in one way only (`sortTexts_eq_of_perm`).
-/

namespace Dangling.Sorted

variable {α : Type}

/-! ### Sets -/

section Sets

variable {cmp : α → α → Ordering} [Std.LawfulEqCmp cmp]

@[simp] theorem mem_insert {x z : α} {ys : List α} : z ∈ insert cmp x ys ↔ z = x ∨ z ∈ ys := by
  induction ys with
  | nil => simp [insert]
  | cons y ys ih =>
      simp only [insert]
      cases h : cmp x y with
      | lt => simp
      | eq =>
          -- what compares equal to `x` stands in its place
          obtain rfl := Std.LawfulEqCmp.eq_of_compare h
          simp
      | gt => simp [ih, or_left_comm]

@[simp] theorem mem_union {z : α} {xs ys : List α} : z ∈ union cmp xs ys ↔ z ∈ xs ∨ z ∈ ys := by
  simp only [union]
  induction ys generalizing xs with
  | nil => simp
  | cons y ys ih => simp [ih, or_assoc, or_left_comm]

@[simp] theorem mem_ofList {z : α} {xs : List α} : z ∈ ofList cmp xs ↔ z ∈ xs := by
  simp [ofList]

variable [Std.TransCmp cmp]

/-- Elements are inserted in order. -/
theorem pairwise_insert {x : α} {ys : List α} (h : ys.Pairwise (cmp · · = .lt)) :
    (insert cmp x ys).Pairwise (cmp · · = .lt) := by
  induction ys with
  | nil => exact List.pairwise_singleton _ _
  | cons y ys ih =>
      obtain ⟨hy, hys⟩ := List.pairwise_cons.mp h
      simp only [insert]
      cases hxy : cmp x y with
      | lt =>
          refine List.pairwise_cons.mpr ⟨fun z hz => ?_, h⟩
          rcases List.mem_cons.mp hz with rfl | hz
          · exact hxy
          · exact Std.TransCmp.lt_trans hxy (hy z hz)
      | eq => exact h
      | gt =>
          refine List.pairwise_cons.mpr ⟨fun z hz => ?_, ih hys⟩
          rcases mem_insert.mp hz with rfl | hz
          · exact Std.OrientedCmp.lt_of_gt hxy
          · exact hy z hz

/-- By induction on the second list. -/
theorem pairwise_union {xs : List α} (ys : List α) (h : xs.Pairwise (cmp · · = .lt)) :
    (union cmp xs ys).Pairwise (cmp · · = .lt) :=
  List.foldlRecOn (motive := fun zs : List α => zs.Pairwise (cmp · · = .lt)) ys _ h
    fun _ hzs _ _ => pairwise_insert hzs

/-- A list that is made by insertions is sorted. -/
theorem pairwise_ofList (xs : List α) : (ofList cmp xs).Pairwise (cmp · · = .lt) :=
  pairwise_union xs .nil

/-- In a strict order nothing occurs twice. -/
theorem nodup_ofList (xs : List α) : (ofList cmp xs).Nodup := by
  refine (pairwise_ofList xs).imp fun {x y} hlt e => ?_
  have heq : cmp x y = .eq := Std.LawfulEqCmp.compare_eq_iff_eq.mpr e
  rw [hlt] at heq
  cases heq

/-- An ascending list is told by its members. -/
theorem ofList_congr {xs ys : List α} (h : ∀ x, x ∈ xs ↔ x ∈ ys) : ofList cmp xs = ofList cmp ys := by
  refine List.Perm.eq_of_pairwise (fun x y _ _ hxy hyx => ?_) (pairwise_ofList xs) (pairwise_ofList ys) ?_
  · rw [Std.OrientedCmp.gt_of_lt hxy] at hyx
    cases hyx
  · refine (List.perm_ext_iff_of_nodup (nodup_ofList xs) (nodup_ofList ys)).mpr fun x => ?_
    rw [mem_ofList, mem_ofList, h]

/-- Of different elements none is lost. -/
theorem length_ofList {xs : List α} (h : xs.Nodup) : (ofList cmp xs).length = xs.length :=
  ((List.perm_ext_iff_of_nodup (nodup_ofList xs) h).mpr fun _ => mem_ofList).length_eq

end Sets

/-! ### Sorting -/

/-- An element is inserted somewhere. -/
theorem insertBy_perm (le : α → α → Bool) (x : α) (ys : List α) :
    (insertBy le x ys).Perm (x :: ys) := by
  induction ys with
  | nil => exact .refl _
  | cons y ys ih =>
      simp only [insertBy]
      split
      · exact .refl _
      · exact (ih.cons y).trans (.swap x y ys)

/-- To sort is to rearrange. -/
theorem sortBy_perm (le : α → α → Bool) (xs : List α) : (sortBy le xs).Perm xs := by
  simp only [sortBy]
  induction xs with
  | nil => exact .refl _
  | cons x xs ih => exact (insertBy_perm le x _).trans (ih.cons x)

@[simp] theorem mem_sortBy {le : α → α → Bool} {x : α} {xs : List α} :
    x ∈ sortBy le xs ↔ x ∈ xs :=
  (sortBy_perm le xs).mem_iff

theorem sortBy_eq_nil {le : α → α → Bool} {xs : List α} : sortBy le xs = [] ↔ xs = [] := by
  constructor
  · exact fun h => List.nil_perm.mp (h ▸ sortBy_perm le xs)
  · rintro rfl
    rfl

section Ascending

variable {le : α → α → Bool}

/-- In a total order the place that is found is right. -/
theorem pairwise_insertBy (htotal : ∀ x y, le x y = false → le y x = true)
    (htrans : ∀ x y z, le x y = true → le y z = true → le x z = true) {x : α} {ys : List α}
    (h : ys.Pairwise (le · · = true)) : (insertBy le x ys).Pairwise (le · · = true) := by
  induction ys with
  | nil => exact List.pairwise_singleton _ _
  | cons y ys ih =>
      obtain ⟨hy, hys⟩ := List.pairwise_cons.mp h
      simp only [insertBy]
      split
      case isTrue hxy =>
        refine List.pairwise_cons.mpr ⟨fun z hz => ?_, h⟩
        rcases List.mem_cons.mp hz with rfl | hz
        · exact hxy
        · exact htrans x y z hxy (hy z hz)
      case isFalse hxy =>
        refine List.pairwise_cons.mpr ⟨fun z hz => ?_, ih hys⟩
        rcases List.mem_cons.mp ((insertBy_perm le x ys).mem_iff.mp hz) with rfl | hz
        · exact htotal z y (Bool.eq_false_iff.mpr hxy)
        · exact hy z hz

/-- By a total and transitive comparison lists are sorted in ascending order. -/
theorem pairwise_sortBy (htotal : ∀ x y, le x y = false → le y x = true)
    (htrans : ∀ x y z, le x y = true → le y z = true → le x z = true) (xs : List α) :
    (sortBy le xs).Pairwise (le · · = true) := by
  simp only [sortBy]
  induction xs with
  | nil => exact .nil
  | cons x xs ih => exact pairwise_insertBy htotal htrans ih

end Ascending

/-! ### Comparisons -/

instance lexicographic_lawful (cmp : α → α → Ordering) [Std.LawfulEqCmp cmp] :
    Std.LawfulEqCmp (lexicographic cmp) where
  compare_self {xs} := by
    induction xs with
    | nil => rfl
    | cons x xs ih => simp [lexicographic, Std.ReflCmp.compare_self, ih]
  eq_of_compare {xs} := by
    induction xs with
    | nil => rintro (_ | _) h <;> simp_all [lexicographic]
    | cons x xs ih =>
        rintro (_ | ⟨y, ys⟩) h
        · simp [lexicographic] at h
        · obtain ⟨hx, hxs⟩ := Ordering.then_eq_eq.mp h
          rw [Std.LawfulEqCmp.eq_of_compare hx, ih hxs]

instance codePoint_lawful : Std.LawfulEqCmp (compareOn Char.toNat) where
  compare_self := by simp [compareOn]
  eq_of_compare h := Char.toNat_inj.mp (by simpa [compareOn] using h)

instance text_lawful : Std.LawfulEqCmp text where
  compare_self := (lexicographic_lawful (compareOn Char.toNat)).compare_self
  eq_of_compare h :=
    String.toList_inj.mp ((lexicographic_lawful (compareOn Char.toNat)).eq_of_compare h)

/-- The order of lists is the library's. -/
theorem lexicographic_eq_compareLex (cmp : α → α → Ordering) :
    ∀ xs ys, lexicographic cmp xs ys = List.compareLex cmp xs ys
  | [], [] => rfl
  | [], _ :: _ => rfl
  | _ :: _, [] => rfl
  | x :: xs, y :: ys => by
      rw [lexicographic, List.compareLex_cons_cons, lexicographic_eq_compareLex cmp xs ys]

instance text_trans : Std.TransCmp text where
  eq_swap {s t} := by
    simp only [text, lexicographic_eq_compareLex]
    exact Std.OrientedCmp.eq_swap
  isLE_trans {s t u} := by
    simp only [text, lexicographic_eq_compareLex]
    exact Std.TransCmp.isLE_trans

/-- Texts are sorted by their characters. -/
theorem pairwise_sortTexts (ss : List String) :
    (sortTexts ss).Pairwise fun s t => (text s t).isLE = true := by
  refine pairwise_sortBy (fun s t h => ?_) (fun s t u => Std.TransCmp.isLE_trans) ss
  have hswap : text t s = (text s t).swap := Std.OrientedCmp.eq_swap
  rw [hswap]
  cases hst : text s t with
  | lt => rw [hst] at h; cases h
  | eq => rfl
  | gt => rfl

/-- However texts are listed, sorted they are one list. -/
theorem sortTexts_eq_of_perm {ss ts : List String} (h : ss.Perm ts) : sortTexts ss = sortTexts ts := by
  refine List.Perm.eq_of_pairwise (fun s t _ _ hst hts => ?_) (pairwise_sortTexts ss)
    (pairwise_sortTexts ts) (((sortBy_perm _ ss).trans h).trans (sortBy_perm _ ts).symm)
  exact Std.LawfulEqCmp.eq_of_compare (Std.OrientedCmp.isLE_antisymm hst hts)

end Dangling.Sorted
