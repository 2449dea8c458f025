import Dangling.Proofs.Mir.Declared

/-!
# Proofs — Mir — Descent

The recursion through declared types, with nothing to stop it but what is known.  The reader watches
the generic uses on its way and refuses one that meets itself.  The bare recursion watches nothing: it
goes from declaration to declaration, as deep as it may.  Where the reader has an answer, so has the
bare recursion, and where the reader finds no end, there is none.

* `descend`: the bare recursion, down to a depth.
* `Reading`: to read a declaration is a scan, as it is to read a text.
* `Extends`: what has been answered stays, however much deeper one goes.
* `descend_again`: what has been read is read again with nothing new.
* `enter_endless`: what the reader refuses as endless, the bare recursion does not end at any depth.
-/

namespace Dangling.Ty.Reader

/-! ### The bare recursion -/

/-- Reads the fields of a declared name. -/
def readDeclared (table : Table) (enter : Enter Entered) : Enter Entered := fun name generic s =>
  declarationOf table name >>= fun d =>
    readFields (declaredIn table) enter d.members (s.opening name generic) >>= fun x =>
      .ok (x.2.declare name d.decl x.1)

/-- Enters a declared name with nothing on the way, `depth` declarations deep at most. -/
def descend (table : Table) : (depth : Nat) → Enter Entered
  | 0, name, _, _ => .error (.endless name)
  | depth + 1, name, generic, s =>
    if generic = false ∧ name ∈ s.known then .ok s
    else readDeclared table (descend table depth) name generic s

/-- A reading has found no end. -/
def isEndless {α : Type} : Except TypeFault α → Bool
  | .error (.endless _) => true
  | _ => false

section Endless

variable {α β : Type}

/-- The reading has run out of depth. -/
theorem isEndless_iff {r : Except TypeFault α} : isEndless r = true ↔ ∃ n, r = .error (.endless n) := by
  cases r with
  | ok a => simp [isEndless]
  | error e => cases e <;> simp [isEndless]

theorem isEndless_eq_false {r : Except TypeFault α} :
    isEndless r = false ↔ ∀ n, r ≠ .error (.endless n) := by
  rw [← Bool.not_eq_true, isEndless_iff, not_exists]

theorem isEndless_error (e : TypeFault) :
    isEndless (.error e : Except TypeFault β) = isEndless (.error e : Except TypeFault α) := by
  cases e <;> rfl

/-- What is made of a type does not matter. -/
theorem isEndless_map (f : α → β) (x : Except TypeFault α) : isEndless (x.map f) = isEndless x := by
  cases x with
  | ok a => rfl
  | error e => exact isEndless_error e

/-- What comes after is no reason to go on without end. -/
theorem isEndless_bind {f : α → Except TypeFault β} (hf : ∀ a, isEndless (f a) = false)
    (x : Except TypeFault α) : isEndless (x >>= f) = isEndless x := by
  cases x with
  | ok a => exact hf a
  | error e => exact isEndless_error e

end Endless

/-! ### Reading a declaration -/

/-- What the fields of a declaration do: which uses they enter, in order, and what comes out, up to
the first field that is refused. -/
theorem exists_readFields_eq (declared : String → Bool) (members : List (String × Json.Value)) :
    ∃ (uses : List Use) (out : Except TypeFault (List (String × Ty))),
      isEndless out = false ∧ (∀ u ∈ uses, ∃ m ∈ members, Touches declared m.2.text u) ∧
      (∀ fields, out = .ok fields → ∀ m ∈ members, ∀ u, Touches declared m.2.text u → u ∈ uses) ∧
      ∀ {σ : Type} (enter : Enter σ) (before : List (String × Ty)) (s : σ),
        members.foldlM (fun x m => whole declared enter m.2.text x.2 >>= fun y =>
          .ok (x.1 ++ [(m.1, y.1)], y.2)) (before, s) =
        enterAll enter uses s >>= fun s' => out.map fun fields => (before ++ fields, s') := by
  induction members with
  | nil =>
      refine ⟨[], .ok [], rfl, by simp, by simp, fun enter before s => ?_⟩
      simp only [enterAll_nil, ok_bind, Except.map, List.append_nil]
      rfl
  | cons m members ih =>
      obtain ⟨uses, out, hended, hused, hall, heq⟩ := ih
      obtain ⟨scan⟩ := exists_scan declared m.2.text
      cases hout : scan.out with
      | error e =>
          refine ⟨scan.uses, .error e, ?_, fun u hu => ?_, fun fields h => ?_,
            fun enter before s => ?_⟩
          · rw [isEndless_error, ← hout]
            exact isEndless_eq_false.mpr scan.finite
          · exact ⟨m, .head _, scan.touches_iff.mpr hu⟩
          · cases h
          · rw [List.foldlM_cons, scan.whole_eq, hout]
            cases enterAll enter scan.uses s <;> rfl
      | ok t =>
          refine ⟨scan.uses ++ uses, out.map ((m.1, t) :: ·), (isEndless_map _ _).trans hended,
            fun u hu => ?_, fun fields h => ?_, fun enter before s => ?_⟩
          · obtain hu | hu := List.mem_append.mp hu
            · exact ⟨m, .head _, scan.touches_iff.mpr hu⟩
            · obtain ⟨m', hm', ht⟩ := hused u hu
              exact ⟨m', .tail _ hm', ht⟩
          · cases out with
            | error e => cases h
            | ok rest =>
                intro m' hm' u hu
                obtain rfl | hm' := List.mem_cons.mp hm'
                · exact List.mem_append_left _ (scan.touches_iff.mp hu)
                · exact List.mem_append_right _ (hall rest rfl m' hm' u hu)
          · rw [List.foldlM_cons, scan.whole_eq, hout, enterAll_append]
            cases enterAll enter scan.uses s with
            | error e => rfl
            | ok s₁ =>
                refine (heq enter (before ++ [(m.1, t)]) s₁).trans ?_
                rw [ok_bind]
                cases enterAll enter uses s₁ with
                | error e => rfl
                | ok s₂ => cases out <;> simp [Except.map]

/-- What reading a declared name does: the uses that it enters, in order, and what comes out, for
every way of entering. -/
structure Reading (table : Table) (name : String) where
  uses : List Use
  out : Except TypeFault (List (String × Json.Value) × List (String × Ty))
  ended : isEndless out = false
  used : ∀ u ∈ uses, Uses table name u
  all : ∀ x, out = .ok x → ∀ u, Uses table name u → u ∈ uses
  eq : ∀ (enter : Enter Entered) (generic : Bool) (s : Entered),
    readDeclared table enter name generic s =
      enterAll enter uses (s.opening name generic) >>= fun s' =>
        out.map fun x => s'.declare name x.1 x.2

/-- Every name has a reading. -/
theorem exists_reading (table : Table) (name : String) : Nonempty (Reading table name) := by
  cases hd : declarationOf table name with
  | error e =>
      refine ⟨[], .error e, ?_, by simp, fun x h => ?_, fun enter generic s => ?_⟩
      · rw [isEndless_error, ← hd]
        exact isEndless_eq_false.mpr (declarationOf_ne_endless table name)
      · cases h
      · rw [readDeclared, hd]
        rfl
  | ok d =>
      obtain ⟨uses, out, hended, hused, hall, heq⟩ :=
        exists_readFields_eq (declaredIn table) d.members
      refine ⟨uses, out.map (d.decl, ·), (isEndless_map _ _).trans hended, fun u hu => ?_,
        fun x h => ?_, fun enter generic s => ?_⟩
      · obtain ⟨m, hm, ht⟩ := hused u hu
        exact ⟨d, hd, m, hm, ht⟩
      · cases out with
        | error e => cases h
        | ok fields =>
            rintro u ⟨d', hd', m, hm, ht⟩
            obtain rfl := Except.ok.inj (hd.symm.trans hd')
            exact hall fields rfl m hm u ht
      · rw [readDeclared, hd, ok_bind, readFields, heq]
        cases enterAll enter uses (s.opening name generic) with
        | error e => rfl
        | ok s' => cases out <;> rfl

section Steps

variable {declared : String → Bool} {text : String} {table : Table} {name : String}
  {generic : Bool} {s s' : Entered}

/-- The reading of a text is endless where its uses are. -/
theorem Scan.isEndless_whole {σ : Type} (scan : Scan declared text) (enter : Enter σ) (s : σ) :
    isEndless (whole declared enter text s) = isEndless (enterAll enter scan.uses s) := by
  rw [scan.whole_eq]
  exact isEndless_bind
    (fun s => (isEndless_map _ _).trans (isEndless_eq_false.mpr scan.finite)) _

/-- The reading of a declaration is endless where the uses in its fields are. -/
theorem Reading.isEndless_readDeclared (reading : Reading table name) (enter : Enter Entered) :
    isEndless (readDeclared table enter name generic s) =
      isEndless (enterAll enter reading.uses (s.opening name generic)) := by
  rw [reading.eq]
  exact isEndless_bind (fun s => (isEndless_map _ _).trans reading.ended) _

/-- A declaration is entered after all its uses. -/
theorem Reading.readDeclared_eq_ok (reading : Reading table name) {enter : Enter Entered}
    (h : readDeclared table enter name generic s = .ok s') :
    ∃ s₁ x, enterAll enter reading.uses (s.opening name generic) = .ok s₁ ∧
      reading.out = .ok x ∧ s' = s₁.declare name x.1 x.2 := by
  rw [reading.eq, bind_eq_ok] at h
  obtain ⟨s₁, huses, hout⟩ := h
  cases hreading : reading.out with
  | error e =>
      rw [hreading] at hout
      cases hout
  | ok x =>
      rw [hreading] at hout
      exact ⟨s₁, x, huses, rfl, (Except.ok.inj hout).symm⟩

/-- What the reader does with a name: it is known, it is on the way, or its fields are read. -/
theorem enter_cases (table : Table) (fuel : Nat) (within : List String) (name : String)
    (generic : Bool) (s : Entered) :
    (generic = false ∧ name ∈ s.known ∧ enter table (fuel + 1) within name generic s = .ok s) ∨
      (generic = true ∧ name ∈ within ∧
        enter table (fuel + 1) within name generic s = .error (.endless name)) ∨
      ((generic = false → name ∉ s.known) ∧ (generic = true → name ∉ within) ∧
        enter table (fuel + 1) within name generic s =
          readDeclared table (enter table fuel (inside within name generic)) name generic s) := by
  by_cases hknown : generic = false ∧ name ∈ s.known
  · obtain ⟨rfl, hknown⟩ := hknown
    exact .inl ⟨rfl, hknown, enter_known hknown⟩
  by_cases hway : generic = true ∧ name ∈ within
  · obtain ⟨rfl, hway⟩ := hway
    exact .inr (.inl ⟨rfl, hway, enter_within hway⟩)
  · have hplain : generic = false → name ∉ s.known := fun hg hk => hknown ⟨hg, hk⟩
    have hgeneric : generic = true → name ∉ within := fun hg hw => hway ⟨hg, hw⟩
    exact .inr (.inr ⟨hplain, hgeneric, enter_fresh hplain hgeneric⟩)

/-- A known type is not read again. -/
theorem descend_known {depth : Nat} (h : name ∈ s.known) :
    descend table (depth + 1) name false s = .ok s := by
  rw [descend, if_pos ⟨rfl, h⟩]

/-- Any other is read from its declaration, one level further down. -/
theorem descend_fresh {depth : Nat} (h : generic = false → name ∉ s.known) :
    descend table (depth + 1) name generic s =
      readDeclared table (descend table depth) name generic s := by
  rw [descend, if_neg fun hk => h hk.1 hk.2]

end Steps

/-! ### Deeper -/

/-- What one way of entering answers, the other answers too, where the first finds an end. -/
def Extends {σ : Type} (enter enter' : Enter σ) : Prop :=
  ∀ name generic s, isEndless (enter name generic s) = false →
    enter' name generic s = enter name generic s

namespace Extends

variable {σ : Type} {enter enter' enter'' : Enter σ}

theorem refl (enter : Enter σ) : Extends enter enter := fun _ _ _ _ => rfl

/-- One extension after another. -/
theorem trans (h : Extends enter enter') (h' : Extends enter' enter'') : Extends enter enter'' := by
  intro name generic s hend
  have hsame := h name generic s hend
  rw [h' name generic s (by rw [hsame, hend]), hsame]

/-- By induction on the uses. -/
theorem enterAll (h : Extends enter enter') {uses : List Use} {s : σ}
    (hend : isEndless (enterAll enter uses s) = false) :
    Reader.enterAll enter' uses s = Reader.enterAll enter uses s := by
  induction uses generalizing s with
  | nil => rfl
  | cons u uses ih =>
      rw [enterAll_cons] at hend
      rw [enterAll_cons, enterAll_cons]
      cases hu : enter u.name u.generic s with
      | error e =>
          rw [hu] at hend
          have hsame := h u.name u.generic s (by rw [hu]; exact hend)
          rw [hsame, hu]
          rfl
      | ok s' =>
          rw [hu] at hend
          have hsame := h u.name u.generic s (by rw [hu]; rfl)
          rw [hsame, hu]
          exact ih hend

/-- A text is read alike if its uses are entered alike. -/
theorem whole (h : Extends enter enter') {declared : String → Bool} {text : String} {s : σ}
    (hend : isEndless (whole declared enter text s) = false) :
    Reader.whole declared enter' text s = Reader.whole declared enter text s := by
  obtain ⟨scan⟩ := exists_scan declared text
  rw [scan.isEndless_whole] at hend
  rw [scan.whole_eq, scan.whole_eq, h.enterAll hend]

/-- A declaration is read alike if its uses are entered alike. -/
theorem readDeclared {enter enter' : Enter Entered} (h : Extends enter enter') (table : Table) :
    Extends (readDeclared table enter) (readDeclared table enter') := by
  intro name generic s hend
  obtain ⟨reading⟩ := exists_reading table name
  rw [reading.isEndless_readDeclared] at hend
  rw [reading.eq, reading.eq, h.enterAll hend]

end Extends

section Depth

variable {table : Table} {fuel depth depth' : Nat} {within : List String} {name : String}
  {generic : Bool} {s s' : Entered}

/-- By induction on the depth: one level more makes no difference where the reading has an end. -/
theorem descend_extends_succ (table : Table) (depth : Nat) :
    Extends (descend table depth) (descend table (depth + 1)) := by
  induction depth with
  | zero =>
      intro name generic s hend
      cases hend
  | succ depth ih =>
      intro name generic s hend
      by_cases hknown : generic = false ∧ name ∈ s.known
      · obtain ⟨rfl, hknown⟩ := hknown
        rw [descend_known hknown, descend_known hknown]
      · have hfresh : generic = false → name ∉ s.known := fun hg hk => hknown ⟨hg, hk⟩
        rw [descend_fresh hfresh] at hend
        rw [descend_fresh hfresh, descend_fresh hfresh]
        exact ih.readDeclared table name generic s hend

/-- Nor do several. -/
theorem descend_extends (table : Table) (h : depth ≤ depth') :
    Extends (descend table depth) (descend table depth') := by
  induction h with
  | refl => exact .refl _
  | step _ ih => exact ih.trans (descend_extends_succ table _)

/-- The bare recursion answers what the reader does, as deep as the reader's fuel goes. -/
theorem enter_extends (table : Table) (fuel : Nat) (within : List String) :
    Extends (enter table fuel within) (descend table fuel) := by
  induction fuel generalizing within with
  | zero =>
      intro name generic s hend
      cases hend
  | succ fuel ih =>
      intro name generic s hend
      obtain ⟨rfl, hknown, henter⟩ | ⟨-, -, henter⟩ | ⟨hplain, -, henter⟩ :=
        enter_cases table fuel within name generic s
      · rw [henter, descend_known hknown]
      · rw [henter] at hend
        cases hend
      · rw [henter] at hend
        rw [henter, descend_fresh hplain]
        exact (ih _).readDeclared table name generic s hend

/-- Less deep there is no end either. -/
theorem isEndless_descend_of_le (h : depth ≤ depth')
    (hend : isEndless (descend table depth' name generic s) = true) :
    isEndless (descend table depth name generic s) = true := by
  by_contra hne
  rw [Bool.not_eq_true] at hne
  rw [descend_extends table h name generic s hne, hne] at hend
  cases hend

/-- Uses that the reader entered, the bare recursion enters with the same result, or it is not deep
enough. -/
theorem enterAll_descend {uses : List Use}
    (h : enterAll (enter table fuel within) uses s = .ok s') (depth : Nat) :
    Ends (· = s') (fun e => ∃ n, e = .endless n) (enterAll (descend table depth) uses s) := by
  have hreader := (enter_extends table fuel within).trans
    (descend_extends table (Nat.le_max_right depth fuel))
  have hdeep : enterAll (descend table (max depth fuel)) uses s = .ok s' := by
    rw [hreader.enterAll (by rw [h]; rfl), h]
  cases hend : isEndless (enterAll (descend table depth) uses s) with
  | true =>
      obtain ⟨n, hn⟩ := isEndless_iff.mp hend
      rw [hn]
      exact .error ⟨n, rfl⟩
  | false =>
      rw [← (descend_extends table (Nat.le_max_left depth fuel)).enterAll hend, hdeep]
      exact .ok rfl

end Depth

/-! ### What has been read is read again -/

section Again

variable {table : Table} {fuel : Nat} {within : List String} {name : String} {generic : Bool}
  {s s' t : Entered} {enter enter' : Enter Entered} {uses : List Use}

/-- By induction on the uses: known types stay known. -/
theorem enterAll_known (h : enterAll enter uses s = .ok s')
    (hgrown : ∀ {n g s s'}, enter n g s = .ok s' → s.known ⊆ s'.known) : s.known ⊆ s'.known := by
  induction uses generalizing s with
  | nil =>
      cases h
      exact List.Subset.refl _
  | cons u uses ih =>
      obtain ⟨s₁, hu, huses⟩ := bind_eq_ok.mp h
      exact List.Subset.trans (hgrown hu) (ih huses)

/-- Uses that have been entered are entered again where all that they made known is known, if each
of them is. -/
theorem enterAll_again (h : enterAll enter uses s = .ok s') (ht : s'.known ⊆ t.known)
    (hgrown : ∀ {n g s s'}, enter n g s = .ok s' → s.known ⊆ s'.known)
    (hagain : ∀ {n g s s' t}, enter n g s = .ok s' → s'.known ⊆ t.known →
      Ends (·.known = t.known) (fun e => ∃ n, e = .endless n) (enter' n g t)) :
    Ends (·.known = t.known) (fun e => ∃ n, e = .endless n) (enterAll enter' uses t) := by
  induction uses generalizing s t with
  | nil => exact .ok rfl
  | cons u uses ih =>
      obtain ⟨s₁, hu, huses⟩ := bind_eq_ok.mp h
      rw [enterAll_cons]
      refine (hagain hu (List.Subset.trans (enterAll_known huses hgrown) ht)).bind fun t₁ ht₁ => ?_
      rw [← ht₁]
      exact ih huses (ht₁ ▸ ht)

theorem enter_known_subset {n : String} {g : Bool}
    (h : Reader.enter table fuel within n g s = .ok s') : s.known ⊆ s'.known :=
  (enter_grown h).known

/-- A name that the reader entered is entered again, and nothing new comes to be known, where all that
it made known is known; or the depth does not suffice. -/
theorem descend_again (h : Reader.enter table fuel within name generic s = .ok s')
    (ht : s'.known ⊆ t.known) (depth : Nat) :
    Ends (·.known = t.known) (fun e => ∃ n, e = .endless n)
      (descend table depth name generic t) := by
  induction fuel generalizing within name generic s s' t depth with
  | zero => cases h
  | succ fuel ih =>
      cases depth with
      | zero => exact .error ⟨name, rfl⟩
      | succ depth =>
          obtain ⟨rfl, hknown, henter⟩ | ⟨-, -, henter⟩ | ⟨hplain, -, henter⟩ :=
            enter_cases table fuel within name generic s
          · rw [descend_known (ht (mem_known_of_enter h))]
            exact .ok rfl
          · rw [henter] at h
            cases h
          cases generic with
          | false =>
              rw [descend_known (ht (mem_known_of_enter h))]
              exact .ok rfl
          | true =>
              obtain ⟨reading⟩ := exists_reading table name
              rw [henter] at h
              obtain ⟨s₁, x, huses, hout, rfl⟩ := reading.readDeclared_eq_ok h
              rw [descend_fresh (by simp), reading.eq, hout]
              refine Ends.bind (P := (·.known = t.known)) ?_ fun t' ht' => .ok ht'
              exact enterAll_again huses ht enter_known_subset fun hu ht => ih hu ht depth

end Again

/-! ### What has no end -/

section NoEnd

variable {σ : Type} {enter : Enter σ} {s : σ}

/-- Uses that do not come to an end come to one of which that is so. -/
theorem enterAll_endless {uses : List Use} (h : isEndless (enterAll enter uses s) = true) :
    ∃ before u after s', uses = before ++ u :: after ∧ enterAll enter before s = .ok s' ∧
      isEndless (enter u.name u.generic s') = true := by
  induction uses generalizing s with
  | nil => cases h
  | cons u uses ih =>
      rw [enterAll_cons] at h
      cases hu : enter u.name u.generic s with
      | error e =>
          rw [hu] at h
          exact ⟨[], u, uses, s, rfl, rfl, by rw [hu]; exact h⟩
      | ok s₁ =>
          rw [hu] at h
          obtain ⟨before, v, after, s', rfl, hbefore, hv⟩ := ih h
          exact ⟨u :: before, v, after, s', rfl, by rw [enterAll_cons, hu]; exact hbefore, hv⟩

/-- And the other way around: it is enough that those before it come to no other end. -/
theorem isEndless_enterAll {before after : List Use} {u : Use}
    (h : Ends (fun s' => isEndless (enter u.name u.generic s') = true)
      (fun e => ∃ n, e = .endless n) (enterAll enter before s)) :
    isEndless (enterAll enter (before ++ u :: after) s) = true := by
  rw [enterAll_append]
  generalize enterAll enter before s = x at h ⊢
  cases h with
  | ok h =>
      obtain ⟨n, hn⟩ := isEndless_iff.mp h
      rw [ok_bind, enterAll_cons, hn]
      rfl
  | error h =>
      obtain ⟨n, rfl⟩ := h
      rfl

end NoEnd

/-- Entering names keeps count. -/
theorem enterAll_counted {table : Table} {fuel least : Nat} {within : List String} {uses : List Use}
    {s s' : Entered} (h : enterAll (enter table fuel within) uses s = .ok s')
    (huses : ∀ u ∈ uses, declaredIn table u.name = true) (hs : s.Counted table least) :
    s'.Counted table least :=
  (Ends.foldlM (fun _ u hu hs => enter_counted (huses u hu) hs) hs).of_ok h

/-- `name` with arguments does not come to an end at this depth, wherever `known` is known. -/
def EndlessUpon (table : Table) (known : List String) (depth : Nat) (name : String) : Prop :=
  ∀ t : Entered, known ⊆ t.known → isEndless (descend table depth name true t) = true

/-- From `s` on, `name` with arguments comes to no end if `w` does not. -/
def LeansOn (table : Table) (w name : String) (s : Entered) : Prop :=
  ∃ known, s.known ⊆ known ∧ ∀ depth, EndlessUpon table known depth w →
    EndlessUpon table known depth name ∧ isEndless (descend table depth name true s) = true

section Divergence

variable {table : Table} {fuel least : Nat} {within : List String} {name : String} {generic : Bool}
  {s s' : Entered} {before after : List Use} {u : Use}

/-- What is endless at a depth is so at every smaller one. -/
theorem EndlessUpon.of_le {known : List String} {depth depth' : Nat} (h : depth ≤ depth')
    (hupon : EndlessUpon table known depth' name) : EndlessUpon table known depth name :=
  fun t ht => isEndless_descend_of_le h (hupon t ht)

/-- One declaration deeper, in the state in which the reader was: the uses before `u` were entered. -/
theorem isEndless_descend_succ (reading : Reading table name)
    (huses : reading.uses = before ++ u :: after)
    (hbefore : enterAll (enter table fuel within) before (s.opening name generic) = .ok s')
    (hplain : generic = false → name ∉ s.known) {depth : Nat}
    (hu : isEndless (descend table depth u.name u.generic s') = true) :
    isEndless (descend table (depth + 1) name generic s) = true := by
  rw [descend_fresh hplain, reading.isEndless_readDeclared, huses]
  refine isEndless_enterAll ((enterAll_descend hbefore depth).imp ?_)
  rintro _ rfl
  exact hu

/-- One declaration deeper, in any state that knows what the reader knew. -/
theorem endlessUpon_succ (reading : Reading table name) {known : List String}
    (huses : reading.uses = before ++ u :: after)
    (hbefore : enterAll (enter table fuel within) before s = .ok s') (hknown : s'.known ⊆ known)
    (hgeneric : u.generic = true) {depth : Nat} (hu : EndlessUpon table known depth u.name) :
    EndlessUpon table known (depth + 1) name := by
  intro t ht
  rw [descend_fresh (by simp), reading.isEndless_readDeclared, huses]
  have hagain := enterAll_again hbefore (List.Subset.trans hknown ht) enter_known_subset
    fun hu ht => descend_again hu ht depth
  refine isEndless_enterAll (hagain.imp fun t' ht' => ?_)
  rw [hgeneric]
  exact hu t' (ht' ▸ ht)

/-- **What the reader refuses as endless, the bare recursion does not end at any depth**, unless it
is for a name on the way; then it does not end if that name does not.

The induction follows the reader down to the name that it met again.  On the way back, every
declaration leans on that name, up to the one that is that name: this leans on itself, a declaration
deeper. -/
theorem enter_endless (hname : declaredIn table name = true) (hway : OnTheWay table within)
    (hs : s.Counted table least)
    (hfuel : (table.length - least) * (table.length + 1) + (table.length - within.length) < fuel)
    (h : isEndless (enter table fuel within name generic s) = true) :
    (∀ depth, isEndless (descend table depth name generic s) = true) ∨
      generic = true ∧ ∃ w ∈ within, LeansOn table w name s := by
  induction fuel generalizing within name generic s least with
  | zero => omega
  | succ fuel ih =>
      obtain ⟨-, -, henter⟩ | ⟨rfl, hmet, -⟩ | ⟨hplain, hfresh, henter⟩ :=
        enter_cases table fuel within name generic s
      · rw [henter] at h
        cases h
      · have hsame : LeansOn table name name s :=
          ⟨s.known, List.Subset.refl _, fun depth hupon => ⟨hupon, hupon s (List.Subset.refl _)⟩⟩
        exact .inr ⟨rfl, name, hmet, hsame⟩
      obtain ⟨reading⟩ := exists_reading table name
      rw [henter, reading.isEndless_readDeclared] at h
      obtain ⟨before, u, after, s', huses, hbefore, hu⟩ := enterAll_endless h
      have hdeclared : ∀ v ∈ before ++ u :: after, declaredIn table v.name = true := fun v hv =>
        (reading.used v (huses ▸ hv)).enterable.declared
      obtain ⟨least', -, hopening, hinside, hsteps⟩ := hs.opening hname hway hplain hfresh hfuel
      have hcounted : s'.Counted table least' :=
        enterAll_counted hbefore (fun v hv => hdeclared v (List.mem_append_left _ hv)) hopening
      have hdown : ∀ depth, isEndless (descend table depth u.name u.generic s') = true →
          isEndless (descend table (depth + 1) name generic s) = true := fun depth =>
        isEndless_descend_succ reading huses hbefore hplain
      obtain hlost | ⟨hgeneric, w, hw, known, hknown, hleans⟩ :=
        ih (hdeclared u (by simp)) hinside hcounted hsteps hu
      · refine .inl fun depth => ?_
        cases depth with
        | zero => rfl
        | succ depth => exact hdown depth (hlost depth)
      cases generic with
      | false => exact absurd hw List.not_mem_nil
      | true =>
          have hstep : ∀ depth, EndlessUpon table known depth w →
              EndlessUpon table known (depth + 1) name ∧
                isEndless (descend table (depth + 1) name true s) = true := fun depth hupon =>
            ⟨endlessUpon_succ reading huses hbefore hknown hgeneric (hleans depth hupon).1,
              hdown depth (hgeneric ▸ (hleans depth hupon).2)⟩
          obtain rfl | hw := List.mem_cons.mp hw
          -- the name that was met again: it leans on itself
          · have hupon : ∀ depth, EndlessUpon table known depth w := by
              intro depth
              induction depth with
              | zero => exact fun _ _ => rfl
              | succ depth ih => exact (hstep depth ih).1
            refine .inl fun depth => ?_
            cases depth with
            | zero => rfl
            | succ depth => exact (hstep depth (hupon depth)).2
          · have hgrown := List.Subset.trans (enterAll_known hbefore enter_known_subset) hknown
            refine .inr ⟨rfl, w, hw, known, hgrown, fun depth hupon => ?_⟩
            cases depth with
            | zero => exact ⟨fun _ _ => rfl, rfl⟩
            | succ depth => exact hstep depth (hupon.of_le (Nat.le_succ depth))

end Divergence

end Dangling.Ty.Reader
