import Dangling.Proofs.Mir.Entering
import Mathlib.Logic.Relation

/-!
# Proofs — Mir — Declared

What reading the declared types of a document achieves.  If it has a result, every name that a text
can enter is known and declared, and no chain of uses with arguments is closed: from then on, to
read a type changes nothing, and comes to an end.  A closed chain is the only thing that has none.

* `Uses`, `LeadsTo`: the uses in the fields of a name, and those with arguments.
* `Settled`: what holds once the declared types are read.
* `Settled.read_eq`: then the type of a text is that of the text alone.
* `enter_finite`: without a closed chain the steps suffice.
* `settled_of_declarations`, `declarations_contained`: the two for the declared types of a document.
-/

namespace Dangling

namespace Ty.Reader

/-! ### Chains of generic uses -/

/-- The fields of `name` have the use `u`. -/
def Uses (table : Table) (name : String) (u : Use) : Prop :=
  ∃ d, declarationOf table name = .ok d ∧ ∃ m ∈ d.members, Touches (declaredIn table) m.2.text u

/-- The fields of `name` use `next` with arguments. -/
def LeadsTo (table : Table) (name next : String) : Prop := Uses table name ⟨next, true⟩

theorem Uses.enterable {table : Table} {name : String} {u : Use} (h : Uses table name u) :
    Enterable (declaredIn table) u.name := by
  obtain ⟨d, -, m, -, hm⟩ := h
  obtain ⟨scan⟩ := exists_scan (declaredIn table) m.2.text
  exact scan.enterable u (scan.touches_iff.mp hm)

section Chains

open Relation

variable {table : Table} {fuel : Nat} {within : List String} {name next : String} {s s' : Entered}

theorem LeadsTo.enterable (h : LeadsTo table name next) : Enterable (declaredIn table) next :=
  Uses.enterable h

/-- Of a generic use that was entered, the generic uses in its fields were entered, with the use
itself on the way. -/
theorem enter_leadsTo (h : enter table fuel within name true s = .ok s')
    (hnext : LeadsTo table name next) :
    ∃ fuel' s₁ s₂, enter table fuel' (name :: within) next true s₁ = .ok s₂ := by
  obtain ⟨hfalse, -⟩ | ⟨fuel', d, x, -, -, hd, hx, -⟩ := enter_eq_ok h
  · cases hfalse
  · obtain ⟨d', hd', m, hm, htouches⟩ := hnext
    obtain rfl := Except.ok.inj (hd.symm.trans hd')
    obtain ⟨scan⟩ := exists_scan (declaredIn table) m.2.text
    obtain ⟨s₁, s₂, hu⟩ := (readFields_entered hx hm scan).2 _ (scan.touches_iff.mp htouches)
    exact ⟨fuel', s₁, s₂, hu⟩

theorem enter_chain (h : enter table fuel within name true s = .ok s')
    (hchain : TransGen (LeadsTo table) name next) :
    ∃ fuel' within' s₁ s₂, name ∈ within' ∧
      enter table fuel' within' next true s₁ = .ok s₂ := by
  induction hchain with
  | single hstep =>
      obtain ⟨fuel', s₁, s₂, hnext⟩ := enter_leadsTo h hstep
      exact ⟨fuel', _, s₁, s₂, .head _, hnext⟩
  | tail _ hstep ih =>
      obtain ⟨fuel', within', s₁, s₂, hmem, hmid⟩ := ih
      obtain ⟨fuel'', s₃, s₄, hnext⟩ := enter_leadsTo hmid hstep
      exact ⟨fuel'', _, s₃, s₄, .tail _ hmem, hnext⟩

/-- A generic use that was entered does not lead back to itself. -/
theorem enter_acyclic (h : enter table fuel within name true s = .ok s') :
    ¬TransGen (LeadsTo table) name name := by
  intro hcycle
  obtain ⟨fuel', within', s₁, s₂, hmem, hback⟩ := enter_chain h hcycle
  obtain ⟨hfalse, -⟩ | ⟨-, -, -, -, hway, -⟩ := enter_eq_ok hback
  · cases hfalse
  · exact hway rfl hmem

/-- In the fields of a name, the names on the way lead to what the fields use. -/
theorem transGen_inside {generic : Bool}
    (hchain : generic = true → ∀ w ∈ within, TransGen (LeadsTo table) w name)
    (hstep : LeadsTo table name next) :
    ∀ w ∈ inside within name generic, TransGen (LeadsTo table) w next := by
  intro w hw
  cases generic with
  | false => exact absurd hw List.not_mem_nil
  | true =>
      obtain rfl | hw := List.mem_cons.mp hw
      · exact .single hstep
      · exact .tail (hchain rfl w hw) hstep

/-- Where every name is sound, no chain of generic uses is closed. -/
theorem acyclic_of_sound (h : ∀ n, Enterable (declaredIn table) n → Sound table n) (n : String) :
    ¬TransGen (LeadsTo table) n n := by
  intro hcycle
  obtain ⟨before, -, hlast⟩ := TransGen.tail'_iff.mp hcycle
  obtain ⟨next, hfirst, hback⟩ := TransGen.head'_iff.mp hcycle
  obtain ⟨d, hd, hsound⟩ := h n hlast.enterable
  obtain ⟨d', hd', m, hm, htouches⟩ := hfirst
  obtain rfl := Except.ok.inj (hd.symm.trans hd')
  obtain ⟨scan⟩ := exists_scan (declaredIn table) m.2.text
  obtain ⟨fuel, within, s, s', hnext⟩ := (hsound m hm scan).2 _ (scan.touches_iff.mp htouches)
  exact enter_acyclic hnext (TransGen.tail' hback ⟨d, hd, m, hm, htouches⟩)

end Chains

/-! ### Settled declarations -/

/-- Every name that a text can enter is known and declared, and its fields can be read. -/
structure Settled (table : Table) (s : Entered) : Prop where
  known : ∀ n, Enterable (declaredIn table) n → n ∈ s.known
  decls : ∀ n, Enterable (declaredIn table) n → (s.decls.find? n).isSome
  sound : ∀ n, Enterable (declaredIn table) n → Sound table n

/-- The names on the way are different declared names. -/
structure OnTheWay (table : Table) (within : List String) : Prop where
  nodup : within.Nodup
  declared : ∀ n ∈ within, declaredIn table n = true

theorem declaredIn_iff {table : Table} {name : String} :
    declaredIn table name = true ↔ name ∈ table.map (·.1) := by
  rw [declaredIn, Json.Value.find?, List.lookup_isSome_iff]
  simp only [beq_iff_eq, List.mem_map]
  exact exists_congr fun m => and_congr_right fun _ => eq_comm

theorem OnTheWay.length_le {table : Table} {within : List String} (h : OnTheWay table within) :
    within.length ≤ table.length := by
  have hsubset : within ⊆ table.map (·.1) := fun n hn => declaredIn_iff.mp (h.declared n hn)
  simpa using h.nodup.length_le_of_subset hsubset

theorem OnTheWay.cons {table : Table} {within : List String} (h : OnTheWay table within)
    {name : String} (hname : declaredIn table name = true) (hfresh : name ∉ within) :
    OnTheWay table (name :: within) where
  nodup := List.nodup_cons.mpr ⟨hfresh, h.nodup⟩
  declared n hn := by
    obtain rfl | hn := List.mem_cons.mp hn
    · exact hname
    · exact h.declared n hn

theorem Settled.declare_eq {table : Table} {s : Entered} (h : Settled table s) {name : String}
    (hname : Enterable (declaredIn table) name) (decl : List (String × Json.Value))
    (fields : List (String × Ty)) : s.declare name decl fields = s := by
  rw [Entered.declare, Declarations.add, if_pos (h.decls name hname)]

/-- Fields that enter nothing new are read, and leave the state as it is. -/
theorem readFields_eq {σ : Type} {declared : String → Bool} {enter : Enter σ} {s : σ}
    {members : List (String × Json.Value)}
    (h : ∀ m ∈ members, ∃ t, whole declared enter m.2.text s = .ok (t, s)) :
    ∃ fields, readFields declared enter members s = .ok (fields, s) := by
  have hgeneral : ∀ fields : List (String × Ty), ∃ fields', members.foldlM
      (fun x m => whole declared enter m.2.text x.2 >>= fun y =>
        Except.ok (x.1 ++ [(m.1, y.1)], y.2)) (fields, s) = .ok (fields', s) := by
    induction members with
    | nil => exact fun fields => ⟨fields, rfl⟩
    | cons m members ih =>
        intro fields
        obtain ⟨t, ht⟩ := h m (.head _)
        obtain ⟨fields', hrest⟩ := ih (fun m hm => h m (.tail _ hm)) (fields ++ [(m.1, t)])
        refine ⟨fields', ?_⟩
        rw [List.foldlM_cons, ht]
        exact hrest
  exact hgeneral []

/-- Uses that do nothing do nothing together. -/
theorem enterAll_eq {σ : Type} {enter : Enter σ} {s : σ} {uses : List Use}
    (h : ∀ u ∈ uses, enter u.name u.generic s = .ok s) : enterAll enter uses s = .ok s := by
  induction uses with
  | nil => rfl
  | cons u uses ih =>
      rw [enterAll_cons, h u (.head _)]
      exact ih fun u hu => h u (.tail _ hu)

/-- **Once declarations are settled, entering a name does nothing.** -/
theorem Settled.enter_eq {table : Table} {s : Entered} (h : Settled table s) {fuel : Nat}
    {within : List String} {name : String} {generic : Bool}
    (hname : Enterable (declaredIn table) name) (hway : OnTheWay table within)
    (hchain : generic = true → ∀ w ∈ within, Relation.TransGen (LeadsTo table) w name)
    (hfuel : table.length < fuel + within.length) :
    enter table fuel within name generic s = .ok s := by
  induction fuel generalizing within name generic with
  | zero =>
      have hlength := hway.length_le
      omega
  | succ fuel ih =>
      cases generic with
      | false => exact enter_known (h.known name hname)
      | true =>
          have hacyclic := acyclic_of_sound h.sound
          have hfresh : name ∉ within := fun hmem => hacyclic name (hchain rfl name hmem)
          have hinside := hway.cons hname.declared hfresh
          obtain ⟨d, hd, hsound⟩ := h.sound name hname
          obtain ⟨fields, hfields⟩ : ∃ fields, readFields (declaredIn table)
              (enter table fuel (name :: within)) d.members s = .ok (fields, s) := by
            refine readFields_eq fun m hm => ?_
            obtain ⟨scan⟩ := exists_scan (declaredIn table) m.2.text
            obtain ⟨⟨t, ht⟩, -⟩ := hsound m hm scan
            refine ⟨t, ?_⟩
            have huses : enterAll (enter table fuel (name :: within)) scan.uses s = .ok s := by
              refine enterAll_eq fun u hu => ?_
              refine ih (scan.enterable u hu) hinside (fun hgeneric => ?_) ?_
              · exact transGen_inside hchain ⟨d, hd, m, hm, scan.touches_iff.mpr (hgeneric ▸ hu)⟩
              · rw [List.length_cons]
                omega
            rw [scan.whole_eq, huses, ht]
            rfl
          rw [enter_fresh (fun hg => by cases hg) (fun _ => hfresh), hd]
          change (readFields (declaredIn table) (enter table fuel (name :: within)) d.members s >>= _)
            = _
          rw [hfields]
          exact congrArg Except.ok (h.declare_eq hname d.decl fields)

/-- Reads a type without entering declared names. -/
def scanned (table : Table) : Json.Value → Except TypeFault Ty
  | .str text => (whole (declaredIn table) (fun _ _ s => .ok s) text ()).map (·.1)
  | v => .error (.notText v)

/-- A text that enters nothing comes to the outcome of its scan. -/
theorem Scan.scanned_eq {table : Table} {text : String} (scan : Scan (declaredIn table) text) :
    scanned table (.str text) = scan.out := by
  have hnone : enterAll (fun _ _ (s : Unit) => .ok s) scan.uses () = .ok () :=
    enterAll_eq fun _ _ => rfl
  rw [scanned, scan.whole_eq, hnone]
  cases scan.out <;> rfl

theorem scanned_ne_endless (table : Table) (v : Json.Value) (n : String) :
    scanned table v ≠ .error (.endless n) := by
  cases v with
  | str text =>
      obtain ⟨scan⟩ := exists_scan (declaredIn table) text
      rw [scan.scanned_eq]
      exact scan.finite n
  | _ => simp [scanned]

/-- **Once declarations are settled, reading a type leaves them as they are**, and what comes out does
not depend on them. -/
theorem Settled.read_eq {table : Table} {s : Entered} (h : Settled table s) (v : Json.Value) :
    Ty.read table v s = (scanned table v).map fun t => (t, s) := by
  cases v with
  | str text =>
      obtain ⟨scan⟩ := exists_scan (declaredIn table) text
      have hall : enterAll (enter table (enterFuel table) []) scan.uses s = .ok s := by
        refine enterAll_eq fun u hu => ?_
        refine h.enter_eq (scan.enterable u hu) ⟨.nil, by simp⟩ (by simp) ?_
        rw [enterFuel, Nat.add_one_mul, List.length_nil]
        omega
      rw [Ty.read, declaredText, scan.whole_eq, hall, scan.scanned_eq]
      rfl
  | _ => rfl

/-! ### Enough steps -/

/-- The known names are different declared names, `least` or more. -/
structure Entered.Counted (table : Table) (least : Nat) (s : Entered) : Prop where
  known : OnTheWay table s.known
  least : least ≤ s.known.length

/-- In the fields of a name fewer steps are needed: the way is longer, or one more name is known. -/
theorem Entered.Counted.opening {table : Table} {fuel least : Nat} {within : List String}
    {name : String} {generic : Bool} {s : Entered} (hs : s.Counted table least)
    (hname : declaredIn table name = true) (hway : OnTheWay table within)
    (hplain : generic = false → name ∉ s.known) (hfresh : generic = true → name ∉ within)
    (hfuel : (table.length - least) * (table.length + 1) + (table.length - within.length) <
      fuel + 1) :
    ∃ least', least ≤ least' ∧ (s.opening name generic).Counted table least' ∧
      OnTheWay table (inside within name generic) ∧
      (table.length - least') * (table.length + 1) +
        (table.length - (inside within name generic).length) < fuel := by
  cases generic with
  | true =>
      have hinside := hway.cons hname (hfresh rfl)
      have hlength := hinside.length_le
      refine ⟨least, le_refl least, hs, hinside, ?_⟩
      change _ + (table.length - (within.length + 1)) < fuel
      rw [List.length_cons] at hlength
      omega
  | false =>
      have hopening := hs.known.cons hname (hplain rfl)
      have hlength := hopening.length_le
      have hleast := hs.least
      rw [List.length_cons] at hlength
      refine ⟨s.known.length + 1, by omega, ⟨hopening, le_refl _⟩, ⟨.nil, by simp [inside]⟩, ?_⟩
      have hstep : (table.length - (s.known.length + 1) + 1) * (table.length + 1) ≤
          (table.length - least) * (table.length + 1) := Nat.mul_le_mul_right _ (by omega)
      rw [Nat.add_one_mul] at hstep
      change _ + (table.length - 0) < fuel
      omega

theorem enterFuel_suffices (table : Table) :
    (table.length - 0) * (table.length + 1) + (table.length - ([] : List String).length) <
      enterFuel table := by
  rw [enterFuel, List.length_nil, Nat.sub_zero, Nat.add_one_mul]
  omega

/-- Entering a name keeps count: a name comes to be known once. -/
theorem enter_counted {table : Table} {fuel least : Nat} {within : List String} {name : String}
    {generic : Bool} {s : Entered} (hname : declaredIn table name = true)
    (hs : s.Counted table least) :
    Ends (Entered.Counted table least) (fun _ => True) (enter table fuel within name generic s) := by
  induction fuel generalizing within name generic s with
  | zero => exact .error trivial
  | succ fuel ih =>
      by_cases hknown : generic = false ∧ name ∈ s.known
      · obtain ⟨rfl, hknown⟩ := hknown
        rw [enter_known hknown]
        exact .ok hs
      by_cases hway : generic = true ∧ name ∈ within
      · obtain ⟨rfl, hway⟩ := hway
        rw [enter_within hway]
        exact .error trivial
      have hopening : (s.opening name generic).Counted table least := by
        cases generic with
        | true => exact hs
        | false =>
            exact ⟨hs.known.cons hname fun hk => hknown ⟨rfl, hk⟩, hs.least.trans (Nat.le_succ _)⟩
      rw [enter_fresh (fun hg hk => hknown ⟨hg, hk⟩) fun hg hw => hway ⟨hg, hw⟩]
      refine (Ends.of_any _).bind fun d _ => ?_
      refine Ends.bind (P := fun x : List (String × Ty) × Entered => x.2.Counted table least)
        (readFields_ends (fun _ _ => trivial) (fun m _ scan u hu s₁ hs₁ => ?_) hopening)
        fun x hx => .ok ⟨hx.known, hx.least⟩
      exact ih (scan.enterable u hu).declared hs₁

/-- **Only a closed chain of generic uses is endless.**  Between two uses without arguments a chain of
generic ones grows longer, and such a use makes one more name known: the steps suffice.  Chains among
the uses that `R` holds of are enough, if fields lead to no others. -/
theorem enter_finite {table : Table} {R : Use → Prop}
    (hfields : ∀ u v, R u → Uses table u.name v → R v)
    (hacyclic : ∀ u, R u → ¬Relation.TransGen (LeadsTo table) u.name u.name)
    {fuel least : Nat} {within : List String} {name : String} {generic : Bool} {s : Entered}
    (hR : R ⟨name, generic⟩) (hname : Enterable (declaredIn table) name)
    (hway : OnTheWay table within)
    (hchain : generic = true → ∀ w ∈ within, Relation.TransGen (LeadsTo table) w name)
    (hs : s.Counted table least)
    (hfuel : (table.length - least) * (table.length + 1) + (table.length - within.length) < fuel) :
    Ends (Entered.Counted table least) (fun e => ∀ n, e ≠ .endless n)
      (enter table fuel within name generic s) := by
  induction fuel generalizing within name generic s least with
  | zero => omega
  | succ fuel ih =>
      by_cases hknown : generic = false ∧ name ∈ s.known
      · obtain ⟨rfl, hknown⟩ := hknown
        rw [enter_known hknown]
        exact .ok hs
      have hplain : generic = false → name ∉ s.known := fun hg hk => hknown ⟨hg, hk⟩
      have hfresh : generic = true → name ∉ within := fun hg hw =>
        hacyclic _ hR (hchain hg name hw)
      rw [enter_fresh hplain hfresh]
      cases hd : declarationOf table name with
      | error e =>
          have hfinite := declarationOf_ne_endless table name
          exact .error fun n he => hfinite n (by rw [hd, he])
      | ok d =>
          obtain ⟨least', hleast, hopening, hinside, hsteps⟩ :=
            hs.opening hname.declared hway hplain hfresh hfuel
          refine Ends.bind (P := fun x : List (String × Ty) × Entered => x.2.Counted table least')
            (readFields_ends (fun e he => he) (fun m hm scan u hu s₁ hs₁ => ?_) hopening)
            fun x hx => .ok ⟨hx.known, hleast.trans hx.least⟩
          have huse : Uses table name u := ⟨d, hd, m, hm, scan.touches_iff.mpr hu⟩
          refine ih (hfields _ u hR huse) huse.enterable hinside (fun hgeneric => ?_) hs₁ hsteps
          exact transGen_inside hchain ⟨d, hd, m, hm, scan.touches_iff.mpr (hgeneric ▸ hu)⟩

end Ty.Reader

namespace Document

open Ty.Reader

/-- Reading declared types only adds to what is known, and makes their names known. -/
theorem declarations_grown {current : String} {table : Table} {names : List String} {s s' : Entered}
    {ts : List (String × Ty)} (h : declarations current table names s = .ok (ts, s')) :
    Entered.Grown table s s' ∧ ∀ n ∈ names, Enterable (declaredIn table) n → n ∈ s'.known := by
  induction names generalizing s ts with
  | nil =>
      cases h
      exact ⟨.refl table _, by simp⟩
  | cons name rest ih =>
      rw [declarations] at h
      cases hread : Ty.read table (.str name) s with
      | error e =>
          rw [hread] at h
          cases h
      | ok x =>
          rw [hread] at h
          obtain ⟨y, hy, hs⟩ := bind_eq_ok.mp h
          cases hs
          have hfirst : Entered.Grown table s x.2 := whole_grown enter_grown hread
          obtain ⟨hgrown, hknown⟩ := ih hy
          refine ⟨hfirst.trans hgrown, fun n hn henterable => ?_⟩
          obtain rfl | hn := List.mem_cons.mp hn
          · exact hgrown.known n (mem_known_of_enter (henterable.enter_of_whole hread))
          · exact hknown n hn henterable

/-- **After the declared types are read, they are settled.** -/
theorem settled_of_declarations {current : String} {table : Table} {s : Entered}
    {ts : List (String × Ty)}
    (h : declarations current table (table.map (·.1)) .none = .ok (ts, s)) : Settled table s := by
  obtain ⟨hgrown, hknown⟩ := declarations_grown h
  have hall : ∀ n, Enterable (declaredIn table) n → n ∈ s.known := fun n hn =>
    hknown n (declaredIn_iff.mp hn.declared) hn
  have hsound := fun n hn => (hgrown.sound n (hall n hn)).resolve_left List.not_mem_nil
  exact ⟨hall, fun n hn => (hsound n hn).1, fun n hn => (hsound n hn).2⟩

theorem typeRefusal_eq_fault {fault : TypeFault} (h : ∀ n, fault ≠ .endless n)
    (function : String) :
    typeRefusal function fault = .fault (.function function (.type fault)) := by
  cases fault with
  | endless n => exact absurd rfl (h n)
  | _ => rfl

/-- Declared types of which no generic use leads back to itself are read, or refused for a fault. -/
theorem declarations_contained {table : Table}
    (hacyclic : ∀ n, ¬Relation.TransGen (LeadsTo table) n n) (current : String) (names : List String)
    {s : Entered} (hs : s.Counted table 0) :
    Ends (fun _ => True) (fun e => ∀ b, e ≠ .breakdown b) (declarations current table names s) := by
  induction names generalizing s with
  | nil => exact .ok trivial
  | cons name rest ih =>
      obtain ⟨scan⟩ := exists_scan (declaredIn table) name
      have hread : Ends (fun x : Ty × Entered => x.2.Counted table 0)
          (fun e => ∀ n, e ≠ TypeFault.endless n) (Ty.read table (.str name) s) := by
        refine scan.ends (fun e he => he) (fun u hu s₁ hs₁ => ?_) hs
        exact enter_finite (R := fun _ => True) (fun _ _ _ _ => trivial)
          (fun u _ => hacyclic u.name) trivial (scan.enterable u hu) ⟨.nil, by simp⟩ (by simp) hs₁
          (enterFuel_suffices table)
      rw [declarations]
      cases hname : Ty.read table (.str name) s with
      | error e =>
          refine .error ?_
          rw [typeRefusal_eq_fault (hread.of_error hname)]
          simp
      | ok x =>
          exact (ih (hread.of_ok hname)).bind fun y _ => .ok trivial

end Document

end Dangling
