import Dangling.Mir.Document
import Dangling.Proofs.Mir.TypeNames

/-!
# Proofs — Mir — Entering

Entering a declared name reads the types of its fields, which enters the names that these use, and
so on; a name without arguments is read once, one with arguments every time.

* `Touches`: the uses that a text has.
* `enter_fresh`, `enter_eq_ok`: one step, forwards and backwards.
* `Scan.ends`, `readFields_ends`: what every use keeps, texts and fields keep.
* `enter_grown`: what is known stays, and what came to be known has been read to its end.
-/

namespace Dangling

namespace Ty.Reader

/-! ### Uses in a text -/

/-- Entering refuses one use, and nothing else. -/
def refused (u : Use) : Enter Unit := fun n generic s =>
  if generic = u.generic ∧ n = u.name then .error (.endless u.name) else .ok s

/-- A text has a use: it is refused where that use is. -/
def Touches (declared : String → Bool) (text : String) (u : Use) : Prop :=
  whole declared (refused u) text () = .error (.endless u.name)

/-- Uses are refused just when the refused one is among them. -/
theorem enterAll_refused (u : Use) (uses : List Use) :
    enterAll (refused u) uses () = if u ∈ uses then .error (.endless u.name) else .ok () := by
  induction uses with
  | nil => rfl
  | cons v uses ih =>
      rw [enterAll_cons, refused]
      by_cases hv : v.generic = u.generic ∧ v.name = u.name
      · obtain rfl : v = u := by
          cases u
          cases v
          simpa [and_comm] using hv
        rw [if_pos hv, if_pos (.head _)]
        rfl
      · have hne : u ≠ v := by
          rintro rfl
          exact hv ⟨rfl, rfl⟩
        rw [if_neg hv]
        simpa only [ok_bind, List.mem_cons, hne, false_or] using ih

/-- The uses of a text are those that its scan comes to. -/
theorem Scan.touches_iff {declared : String → Bool} {text : String} {u : Use}
    (scan : Scan declared text) : Touches declared text u ↔ u ∈ scan.uses := by
  rw [Touches, scan.whole_eq, enterAll_refused]
  by_cases hmem : u ∈ scan.uses
  · rw [if_pos hmem]
    exact iff_of_true rfl hmem
  · rw [if_neg hmem]
    refine iff_of_false (fun h => ?_) hmem
    have hfinite := scan.finite u.name
    change scan.out.map _ = _ at h
    cases hout : scan.out with
    | ok t =>
        rw [hout] at h
        cases h
    | error e =>
        rw [hout] at h hfinite
        cases h
        exact hfinite rfl

/-! ### Entering a declared name -/

/-- The declaration of a name: all of it, and its fields. -/
structure Declared where
  decl : List (String × Json.Value)
  members : List (String × Json.Value)

/-- What a table declares of a name. -/
def declarationOf (table : Table) (name : String) : Except TypeFault Declared :=
  match Json.Value.find? name table with
  | some (.obj decl) =>
    match (Json.Value.find? "fields" decl).getD .null with
    | .obj members => .ok ⟨decl, members⟩
    | v => if v.truthy then .error (.fields name) else .ok ⟨decl, []⟩
  | _ => .error (.declaration name)

theorem declarationOf_ne_endless (table : Table) (name n : String) :
    declarationOf table name ≠ .error (.endless n) := by
  rw [declarationOf]
  repeat' split
  all_goals simp

/-- Reads the types of fields in order. -/
def readFields {σ : Type} (declared : String → Bool) (enter : Enter σ)
    (members : List (String × Json.Value)) (s : σ) : Except TypeFault (List (String × Ty) × σ) :=
  members.foldlM (fun x m => whole declared enter m.2.text x.2 >>= fun y =>
    .ok (x.1 ++ [(m.1, y.1)], y.2)) ([], s)

/-- The state in which the fields of a name are read: a name without arguments is known from then
on. -/
def Entered.opening (s : Entered) (name : String) (generic : Bool) : Entered :=
  if generic then s else { s with known := name :: s.known }

/-- The generic uses on the way, in the fields of a name. -/
def inside (within : List String) (name : String) (generic : Bool) : List String :=
  if generic then name :: within else []

/-- The fields of a name are read. -/
def Entered.declare (s : Entered) (name : String) (decl : List (String × Json.Value))
    (fields : List (String × Ty)) : Entered :=
  { s with
    decls := s.decls.add name
      { hasDrop := ((Json.Value.find? "has_drop" decl).getD .null).truthy, fields := .ofList fields } }

section Enter

variable {table : Table} {fuel : Nat} {within : List String} {name : String} {generic : Bool}
  {s s' : Entered}

theorem enter_known (h : name ∈ s.known) : enter table (fuel + 1) within name false s = .ok s := by
  rw [enter, List.contains_iff_mem.mpr h]
  rfl

theorem enter_within (h : name ∈ within) :
    enter table (fuel + 1) within name true s = .error (.endless name) := by
  rw [enter, List.contains_iff_mem.mpr h]
  rfl

/-- The fields of a name are read, unless it is known or on the way already. -/
theorem enter_fresh (hplain : generic = false → name ∉ s.known)
    (hgeneric : generic = true → name ∉ within) :
    enter table (fuel + 1) within name generic s =
      declarationOf table name >>= fun d =>
        readFields (declaredIn table) (enter table fuel (inside within name generic)) d.members
          (s.opening name generic) >>= fun x => .ok (x.2.declare name d.decl x.1) := by
  have hknown : (!generic && s.known.contains name) = false := by
    cases generic <;> simp_all
  have hway : (generic && within.contains name) = false := by
    cases generic <;> simp_all
  rw [enter, hknown, hway, declarationOf]
  simp only [Bool.false_eq_true, if_false]
  generalize Json.Value.find? name table = found
  cases found with
  | none => rfl
  | some v =>
      cases v with
      | obj decl =>
          dsimp only
          generalize (Json.Value.find? "fields" decl).getD .null = given
          cases given with
          | obj members => rfl
          | _ => dsimp only; split <;> rfl
      | _ => rfl

/-- What a name went through that was entered. -/
theorem enter_eq_ok (h : enter table fuel within name generic s = .ok s') :
    (generic = false ∧ name ∈ s.known ∧ s' = s) ∨
      ∃ fuel' d x, fuel = fuel' + 1 ∧ (generic = true → name ∉ within) ∧
        declarationOf table name = .ok d ∧
        readFields (declaredIn table) (enter table fuel' (inside within name generic)) d.members
          (s.opening name generic) = .ok x ∧
        s' = x.2.declare name d.decl x.1 := by
  cases fuel with
  | zero => cases h
  | succ fuel =>
      by_cases hplain : generic = false ∧ name ∈ s.known
      · obtain ⟨rfl, hknown⟩ := hplain
        rw [enter_known hknown] at h
        exact .inl ⟨rfl, hknown, (Except.ok.inj h).symm⟩
      by_cases hgeneric : generic = true ∧ name ∈ within
      · obtain ⟨rfl, hway⟩ := hgeneric
        rw [enter_within hway] at h
        cases h
      · have hway : generic = true → name ∉ within := fun hg hw => hgeneric ⟨hg, hw⟩
        rw [enter_fresh (fun hg hk => hplain ⟨hg, hk⟩) hway, bind_eq_ok] at h
        obtain ⟨d, hd, h⟩ := h
        obtain ⟨x, hx, hs⟩ := bind_eq_ok.mp h
        exact .inr ⟨fuel, d, x, rfl, hway, hd, hx, (Except.ok.inj hs).symm⟩

end Enter

/-! ### Texts and fields -/

section Fields

variable {σ : Type} {declared : String → Bool} {enter : Enter σ} {s : σ}

/-- A text that was read has a type, and every name that it uses was entered. -/
theorem Scan.uses_entered {text : String} (scan : Scan declared text) {x : Ty × σ}
    (h : whole declared enter text s = .ok x) :
    (∃ t, scan.out = .ok t) ∧
      ∀ u ∈ scan.uses, ∃ s₁ s₂, enter u.name u.generic s₁ = .ok s₂ := by
  rw [scan.whole_eq, bind_eq_ok] at h
  obtain ⟨s', huses, hout⟩ := h
  refine ⟨?_, fun u hu => foldlM_eq_ok huses u hu⟩
  cases hscan : scan.out with
  | ok t => exact ⟨t, rfl⟩
  | error e =>
      rw [hscan] at hout
      cases hout

/-- Fields that were read have types, and every name that they use was entered. -/
theorem readFields_entered {members : List (String × Json.Value)} {x : List (String × Ty) × σ}
    (h : readFields declared enter members s = .ok x) {m : String × Json.Value} (hm : m ∈ members)
    (scan : Scan declared m.2.text) :
    (∃ t, scan.out = .ok t) ∧
      ∀ u ∈ scan.uses, ∃ s₁ s₂, enter u.name u.generic s₁ = .ok s₂ := by
  obtain ⟨a, b, hab⟩ := foldlM_eq_ok h m hm
  obtain ⟨y, hy, -⟩ := bind_eq_ok.mp hab
  exact scan.uses_entered hy

variable {P : σ → Prop} {Q : TypeFault → Prop}

/-- What every use of a text keeps, the text keeps. -/
theorem Scan.ends {text : String} (scan : Scan declared text)
    (hQ : ∀ e, (∀ n, e ≠ .endless n) → Q e)
    (henter : ∀ u ∈ scan.uses, ∀ s, P s → Ends P Q (enter u.name u.generic s)) (hs : P s) :
    Ends (fun x => P x.2) Q (whole declared enter text s) := by
  rw [scan.whole_eq]
  refine (Ends.foldlM (fun s u hu => henter u hu s) hs).bind fun s' hs' => ?_
  have hfinite := scan.finite
  cases hout : scan.out with
  | ok t => exact .ok hs'
  | error e => exact .error (hQ e fun n he => hfinite n (by rw [hout, he]))

/-- What every use of every field keeps, the fields keep. -/
theorem readFields_ends {members : List (String × Json.Value)}
    (hQ : ∀ e, (∀ n, e ≠ .endless n) → Q e)
    (henter : ∀ m ∈ members, ∀ scan : Scan declared m.2.text, ∀ u ∈ scan.uses, ∀ s, P s →
      Ends P Q (enter u.name u.generic s)) (hs : P s) :
    Ends (fun x => P x.2) Q (readFields declared enter members s) := by
  refine Ends.foldlM (fun x m hm hx => ?_) hs
  obtain ⟨scan⟩ := exists_scan declared m.2.text
  exact (scan.ends hQ (henter m hm scan) hx).bind fun y hy => .ok hy

end Fields

/-! ### What entering leaves behind -/

/-- The fields of a declared name can be read, and so can those of every name that they use with
arguments. -/
def Sound (table : Table) (name : String) : Prop :=
  ∃ d, declarationOf table name = .ok d ∧
    ∀ m ∈ d.members, ∀ scan : Scan (declaredIn table) m.2.text, (∃ t, scan.out = .ok t) ∧
      ∀ u ∈ scan.uses, ∃ fuel within s₁ s₂, enter table fuel within u.name u.generic s₁ = .ok s₂

namespace Entered

/-- Names once known stay known, declarations stay, and every name that came to be known has been
read to its end. -/
structure Grown (table : Table) (s s' : Entered) : Prop where
  known : ∀ n ∈ s.known, n ∈ s'.known
  decls : ∀ n, (s.decls.find? n).isSome → (s'.decls.find? n).isSome
  sound : ∀ n ∈ s'.known, n ∈ s.known ∨ (s'.decls.find? n).isSome ∧ Sound table n

variable {table : Table} {s s' s'' : Entered}

theorem Grown.refl (table : Table) (s : Entered) : Grown table s s :=
  ⟨fun _ h => h, fun _ h => h, fun _ h => .inl h⟩

theorem Grown.trans (h : Grown table s s') (h' : Grown table s' s'') : Grown table s s'' where
  known n hn := h'.known n (h.known n hn)
  decls n hn := h'.decls n (h.decls n hn)
  sound n hn := by
    obtain hn | hn := h'.sound n hn
    · exact (h.sound n hn).imp_right fun hs => ⟨h'.decls n hs.1, hs.2⟩
    · exact .inr hn

theorem isSome_find?_add (ds : Declarations) (name : String) (d : Decl) (n : String) :
    ((ds.add name d).find? n).isSome ↔ (ds.find? n).isSome ∨ n = name := by
  rw [Declarations.add]
  split
  case isTrue hsome =>
    refine ⟨.inl, fun h => h.elim id ?_⟩
    rintro rfl
    exact hsome
  case isFalse =>
    rw [Declarations.find?, List.lookup_append, Option.isSome_or, Bool.or_eq_true, Declarations.find?]
    refine or_congr_right ?_
    rw [List.lookup_isSome_iff]
    simp

theorem Grown.declare (table : Table) (s : Entered) (name : String)
    (decl : List (String × Json.Value)) (fields : List (String × Ty)) :
    Grown table s (s.declare name decl fields) where
  known _ hn := hn
  decls _ hn := (isSome_find?_add _ _ _ _).mpr (.inl hn)
  sound _ hn := .inl hn

end Entered

section Growth

open Entered

variable {table : Table} {fuel : Nat} {within : List String} {name : String} {generic : Bool}
  {s s' : Entered}

/-- A name whose fields were read is sound. -/
theorem sound_of_readFields {d : Declared} (hd : declarationOf table name = .ok d)
    {x : List (String × Ty) × Entered}
    (hx : readFields (declaredIn table) (enter table fuel within) d.members s = .ok x) :
    Sound table name := by
  refine ⟨d, hd, fun m hm scan => ?_⟩
  obtain ⟨hout, huses⟩ := readFields_entered hx hm scan
  exact ⟨hout, fun u hu => ⟨fuel, within, huses u hu⟩⟩

section

variable {declared : String → Bool} {enter : Enter Entered}
  (henter : ∀ {n generic s s'}, enter n generic s = .ok s' → Grown table s s')
include henter

/-- Where entering only adds to what is known, so does reading a text. -/
theorem whole_grown {text : String} {x : Ty × Entered}
    (hx : whole declared enter text s = .ok x) : Grown table s x.2 := by
  obtain ⟨scan⟩ := exists_scan declared text
  have hends : Ends (fun x : Ty × Entered => Grown table s x.2) (fun _ => True)
      (whole declared enter text s) := by
    refine scan.ends (fun _ _ => trivial) (fun u _ s₁ hs₁ => ?_) (.refl table s)
    cases hu : enter u.name u.generic s₁ with
    | error e => exact .error trivial
    | ok s₂ => exact .ok (hs₁.trans (henter hu))
  exact hends.of_ok hx

/-- And so does reading fields. -/
theorem readFields_grown {members : List (String × Json.Value)}
    {x : List (String × Ty) × Entered} (hx : readFields declared enter members s = .ok x) :
    Grown table s x.2 := by
  have hends : Ends (fun x : List (String × Ty) × Entered => Grown table s x.2) (fun _ => True)
      (readFields declared enter members s) := by
    refine Ends.foldlM (fun y m _ hy => ?_) (.refl table s)
    cases hm : whole declared enter m.2.text y.2 with
    | error e => exact .error trivial
    | ok z => exact .ok (hy.trans (whole_grown henter hm))
  exact hends.of_ok hx

end

/-- Entering a name only adds to what is known. -/
theorem enter_grown (h : enter table fuel within name generic s = .ok s') : Grown table s s' := by
  induction fuel generalizing within name generic s s' with
  | zero => cases h
  | succ fuel ih =>
      obtain ⟨-, -, rfl⟩ | ⟨fuel', d, x, hfuel, -, hd, hx, rfl⟩ := enter_eq_ok h
      · exact .refl table _
      · obtain rfl := Nat.succ.inj hfuel
        have hgrown := readFields_grown (fun hu => ih hu) hx
        have hsound := sound_of_readFields hd hx
        cases generic with
        | true => exact hgrown.trans (.declare table x.2 name d.decl x.1)
        | false =>
            refine ⟨fun n hn => hgrown.known n (.tail _ hn), fun n hn => ?_, fun n hn => ?_⟩
            · exact (isSome_find?_add _ _ _ _).mpr (.inl (hgrown.decls n hn))
            · obtain hn | hn := hgrown.sound n hn
              · obtain rfl | hn := List.mem_cons.mp hn
                · exact .inr ⟨(isSome_find?_add _ _ _ _).mpr (.inr rfl), hsound⟩
                · exact .inl hn
              · exact .inr ⟨(isSome_find?_add _ _ _ _).mpr (.inl hn.1), hn.2⟩

/-- A name entered without arguments is known. -/
theorem mem_known_of_enter (h : enter table fuel within name false s = .ok s') :
    name ∈ s'.known := by
  obtain ⟨-, hknown, rfl⟩ | ⟨fuel', d, x, -, -, -, hx, rfl⟩ := enter_eq_ok h
  · exact hknown
  · exact (readFields_grown enter_grown hx).known name (.head _)

end Growth

end Ty.Reader

end Dangling
