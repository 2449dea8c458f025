import Dangling.Proofs.Mir.Descent

/-!
# Proofs — Mir — Finishing

Which type texts are read to their end.  A reading finishes if from some depth on the depth of the
recursion does not matter.  The declarations of a text may lead back to each other in every way but
one: a closed chain, each member of which the one before uses with arguments, has no end.

* `Finishes`, `finishes_iff`: a reading that comes to an end, and the reader's own answer.
* `Reachable`: the uses that a text leads to.
* `Complete`: the uses that are read to their end; none of them is on a closed chain.
* `reading_finishes`: where the reading of a type ends.
-/

namespace Dangling.Ty.Reader

/-! ### Finishing -/

/-- A text is read to its end, with the result or the fault `r`: from some depth on, that is what the
bare recursion answers. -/
structure Finishes (table : Table) (text : String) (r : Except TypeFault (Ty × Entered)) : Prop where
  ended : isEndless r = false
  reached : ∃ depth, ∀ deeper, depth ≤ deeper →
    whole (declaredIn table) (descend table deeper) text .none = r

section Finishing

variable {table : Table} {text : String} {s : Entered} {r : Except TypeFault (Ty × Entered)}

theorem Entered.counted_none (table : Table) : Entered.none.Counted table 0 :=
  ⟨⟨.nil, fun _ hn => absurd hn List.not_mem_nil⟩, Nat.zero_le _⟩

/-- A text that the reader refuses as endless is not read to its end at any depth. -/
theorem isEndless_whole_descend (hs : s.Counted table 0)
    (h : isEndless (Ty.read table (.str text) s) = true) (depth : Nat) :
    isEndless (whole (declaredIn table) (descend table depth) text s) = true := by
  obtain ⟨scan⟩ := exists_scan (declaredIn table) text
  rw [Ty.read, declaredText, scan.isEndless_whole] at h
  obtain ⟨before, u, after, s', huses, hbefore, hu⟩ := enterAll_endless h
  have hdeclared : ∀ v ∈ before ++ u :: after, declaredIn table v.name = true := fun v hv =>
    (scan.enterable v (huses ▸ hv)).declared
  have hcounted : s'.Counted table 0 :=
    enterAll_counted hbefore (fun v hv => hdeclared v (List.mem_append_left _ hv)) hs
  obtain hlost | ⟨-, w, hw, -⟩ := enter_endless (hdeclared u (by simp)) ⟨.nil, by simp⟩ hcounted
    (enterFuel_suffices table) hu
  · rw [scan.isEndless_whole, huses]
    refine isEndless_enterAll ((enterAll_descend hbefore depth).imp ?_)
    rintro _ rfl
    exact hlost depth
  · exact absurd hw List.not_mem_nil

/-- No chain of declarations is longer than the reader's fuel. -/
theorem whole_descend_eq (hend : isEndless (Ty.read table (.str text) s) = false) {depth : Nat}
    (hdepth : enterFuel table ≤ depth) :
    whole (declaredIn table) (descend table depth) text s = Ty.read table (.str text) s :=
  ((enter_extends table (enterFuel table) []).trans (descend_extends table hdepth)).whole hend

/-- **The reader answers what a reading comes to, and refuses as endless what does not finish.** -/
theorem finishes_iff :
    Finishes table text r ↔ Ty.read table (.str text) .none = r ∧ isEndless r = false := by
  constructor
  · rintro ⟨hend, depth, hreached⟩
    cases hread : isEndless (Ty.read table (.str text) .none) with
    | true =>
        have hlost := isEndless_whole_descend (Entered.counted_none table) hread depth
        rw [hreached depth (Nat.le_refl _), hend] at hlost
        cases hlost
    | false =>
        have hdeep := whole_descend_eq hread (Nat.le_max_right depth (enterFuel table))
        rw [hreached _ (Nat.le_max_left _ _)] at hdeep
        exact ⟨hdeep.symm, hend⟩
  · rintro ⟨rfl, hend⟩
    exact ⟨hend, enterFuel table, fun deeper hdeeper => whole_descend_eq hend hdeeper⟩

end Finishing

/-! ### Closed chains -/

/-- The uses that a text leads to: its own, and those in the fields of the names that it leads to. -/
inductive Reachable (table : Table) (text : String) : Use → Prop
  | text {u : Use} (h : Touches (declaredIn table) text u) : Reachable table text u
  | field {u v : Use} (h : Reachable table text u) (hv : Uses table u.name v) :
      Reachable table text v

/-- A use that is read to its end where `known` is known. -/
inductive Complete (table : Table) (known : List String) : Use → Prop
  | plain {name : String} (h : name ∈ known) : Complete table known ⟨name, false⟩
  | generic {name : String} (h : ∀ u, Uses table name u → Complete table known u) :
      Complete table known ⟨name, true⟩

section Chains

open Relation

variable {table : Table} {text : String} {known : List String} {s s' : Entered}

/-- A closed chain is closed at its second member too. -/
theorem transGen_rotate {α : Type} {r : α → α → Prop} {a : α} (h : TransGen r a a) :
    ∃ b, r a b ∧ TransGen r b b := by
  obtain ⟨b, hab, hba⟩ := TransGen.head'_iff.mp h
  exact ⟨b, hab, TransGen.tail' hba hab⟩

/-- A generic use that is read to its end does not lead back to itself. -/
theorem Complete.acyclic {u : Use} (h : Complete table known u) (hgeneric : u.generic = true) :
    ¬TransGen (LeadsTo table) u.name u.name := by
  induction h with
  | plain => cases hgeneric
  | generic _ ih =>
      intro hclosed
      obtain ⟨next, hnext, hclosed⟩ := transGen_rotate hclosed
      exact ih ⟨next, true⟩ hnext rfl hclosed

/-- The names that came to be known have fields that are read to their end. -/
def Learned (table : Table) (known : List String) (s s' : Entered) : Prop :=
  ∀ n ∈ s'.known, n ∈ s.known ∨ ∀ u, Uses table n u → Complete table known u

theorem enterAll_complete {enter : Enter Entered} {uses : List Use}
    (h : enterAll enter uses s = .ok s') (hknown : s'.known ⊆ known)
    (hgrown : ∀ {n g s s'}, enter n g s = .ok s' → s.known ⊆ s'.known)
    (hcomplete : ∀ {n g s s'}, enter n g s = .ok s' → s'.known ⊆ known →
      Complete table known ⟨n, g⟩ ∧ Learned table known s s') :
    (∀ u ∈ uses, Complete table known u) ∧ Learned table known s s' := by
  induction uses generalizing s with
  | nil =>
      cases h
      exact ⟨by simp, fun n hn => .inl hn⟩
  | cons u uses ih =>
      obtain ⟨s₁, hu, huses⟩ := bind_eq_ok.mp h
      obtain ⟨hfirst, hlearned⟩ :=
        hcomplete hu (List.Subset.trans (enterAll_known huses hgrown) hknown)
      obtain ⟨hrest, hlearned'⟩ := ih huses
      refine ⟨fun v hv => ?_, fun n hn => ?_⟩
      · obtain rfl | hv := List.mem_cons.mp hv
        · exact hfirst
        · exact hrest v hv
      · obtain hn | hn := hlearned' n hn
        · exact hlearned n hn
        · exact .inr hn

/-- A name that was entered is read to its end, and so is what came to be known. -/
theorem enter_complete {fuel : Nat} {within : List String} {name : String} {generic : Bool}
    (h : enter table fuel within name generic s = .ok s') (hknown : s'.known ⊆ known) :
    Complete table known ⟨name, generic⟩ ∧ Learned table known s s' := by
  induction fuel generalizing within name generic s s' with
  | zero => cases h
  | succ fuel ih =>
      obtain ⟨rfl, hmem, henter⟩ | ⟨-, -, henter⟩ | ⟨-, -, henter⟩ :=
        enter_cases table fuel within name generic s
      · obtain rfl := Except.ok.inj (henter.symm.trans h)
        exact ⟨.plain (hknown hmem), fun n hn => .inl hn⟩
      · cases henter.symm.trans h
      obtain ⟨reading⟩ := exists_reading table name
      obtain ⟨s₁, x, huses, hout, hs'⟩ := reading.readDeclared_eq_ok (henter.symm.trans h)
      have hsame : s'.known = s₁.known := by rw [hs', Entered.declare]
      obtain ⟨hall, hlearned⟩ := enterAll_complete huses (hsame ▸ hknown) enter_known_subset ih
      have hfields : ∀ u, Uses table name u → Complete table known u := fun u hu =>
        hall u (reading.all x hout u hu)
      cases generic with
      | true => exact ⟨.generic hfields, fun n hn => hlearned n (hsame ▸ hn)⟩
      | false =>
          refine ⟨.plain (hknown (mem_known_of_enter h)), fun n hn => ?_⟩
          obtain hn | hn := hlearned n (hsame ▸ hn)
          · obtain rfl | hn := List.mem_cons.mp hn
            · exact .inr hfields
            · exact .inl hn
          · exact .inr hn

/-- All that a text leads to is read to its end, if the text has a type. -/
theorem Reachable.complete {x : Ty × Entered} (hread : Ty.read table (.str text) .none = .ok x)
    {u : Use} (h : Reachable table text u) : Complete table x.2.known u := by
  obtain ⟨scan⟩ := exists_scan (declaredIn table) text
  rw [Ty.read, declaredText, scan.whole_eq, bind_eq_ok] at hread
  obtain ⟨s, huses, hout⟩ := hread
  obtain rfl : s = x.2 := by
    cases hscan : scan.out with
    | error e =>
        rw [hscan] at hout
        cases hout
    | ok t =>
        rw [hscan] at hout
        cases hout
        rfl
  obtain ⟨hall, hlearned⟩ :=
    enterAll_complete huses (List.Subset.refl _) enter_known_subset enter_complete
  induction h with
  | text h => exact hall _ (scan.touches_iff.mp h)
  | field _ hv ih =>
      cases ih with
      | plain h => exact (hlearned _ h).resolve_left List.not_mem_nil _ hv
      | generic h => exact h _ hv

/-- A text that has a type leads to no closed chain. -/
theorem Reachable.acyclic {x : Ty × Entered} (hread : Ty.read table (.str text) .none = .ok x)
    {u : Use} (h : Reachable table text u) : ¬TransGen (LeadsTo table) u.name u.name := by
  intro hclosed
  obtain ⟨next, hnext, hclosed⟩ := transGen_rotate hclosed
  have hreachable : Reachable table text ⟨next, true⟩ := .field h hnext
  exact (hreachable.complete hread).acyclic rfl hclosed

/-- A text that leads to no closed chain is read to its end. -/
theorem isEndless_read_of_acyclic
    (h : ∀ u, Reachable table text u → ¬TransGen (LeadsTo table) u.name u.name) :
    isEndless (Ty.read table (.str text) .none) = false := by
  obtain ⟨scan⟩ := exists_scan (declaredIn table) text
  have hends : Ends (fun x : Ty × Entered => x.2.Counted table 0)
      (fun e => ∀ n, e ≠ TypeFault.endless n) (Ty.read table (.str text) .none) := by
    refine scan.ends (fun e he => he) (fun u hu s hs => ?_) (Entered.counted_none table)
    exact enter_finite (fun _ _ => .field) h (.text (scan.touches_iff.mpr hu))
      (scan.enterable u hu) ⟨.nil, by simp⟩ (by simp) hs (enterFuel_suffices table)
  exact isEndless_eq_false.mpr fun n hn => hends.of_error hn n rfl

end Chains

/-- **Where the reading of a type ends.**  The fuel of a text is never spent.  What the reader answers
is what the recursion through the declared fields comes to, in a number of steps that the size of the
table bounds, and what it refuses as endless does not come to an end at any depth.  A text that leads
to no closed chain of uses with arguments is read to its end, whatever else its declarations hold, and
a text that has a type leads to none. -/
theorem reading_finishes (table : Table) (text : String) :
    (∀ {σ : Type} (cx : Context σ) (cs : List Char) (fuel : Nat) (s : σ), 3 * cs.length + 2 ≤ fuel →
      type cx fuel cs s = type cx (3 * cs.length + 2) cs s) ∧
    (∀ r, Finishes table text r ↔ Ty.read table (.str text) .none = r ∧ isEndless r = false) ∧
    (∀ r, Finishes table text r → ∀ depth, enterFuel table ≤ depth →
      whole (declaredIn table) (descend table depth) text .none = r) ∧
    ((∀ u, Reachable table text u → ¬Relation.TransGen (LeadsTo table) u.name u.name) →
      ∃ r, Finishes table text r) ∧
    ∀ x, Finishes table text (.ok x) → ∀ u, Reachable table text u →
      ¬Relation.TransGen (LeadsTo table) u.name u.name := by
  refine ⟨fun cx cs fuel s hfuel => type_eq_of_fuel cx hfuel (Nat.le_refl _) s,
    fun r => finishes_iff, fun r h depth hdepth => ?_, fun h => ?_, fun x h u hu => ?_⟩
  · obtain ⟨rfl, hend⟩ := finishes_iff.mp h
    exact whole_descend_eq hend hdepth
  · exact ⟨_, finishes_iff.mpr ⟨rfl, isEndless_read_of_acyclic h⟩⟩
  · exact hu.acyclic (finishes_iff.mp h).1

/-- Nodes that point to nodes and have lists, and lists that start with a node. -/
def nodes : Table :=
  [("Node", .obj [("fields", .obj [("next", .str "*mut Node"), ("tail", .str "List<u8>")])]),
    ("List", .obj [("fields", .obj [("head", .str "Node")])])]

/-- Nodes and lists lead to each other, but only one of the two with arguments. -/
theorem nodes_finish : (∃ x, Finishes nodes "List<Node>" (.ok x)) ∧
    ∀ u, Reachable nodes "List<Node>" u → ¬Relation.TransGen (LeadsTo nodes) u.name u.name := by
  have hok : (Ty.read nodes (.str "List<Node>") .none).isOk = true := by decide +kernel
  cases hread : Ty.read nodes (.str "List<Node>") .none with
  | error e =>
      rw [hread] at hok
      cases hok
  | ok x =>
      have hfinishes := ((reading_finishes nodes "List<Node>").2.1 (.ok x)).mpr ⟨hread, rfl⟩
      exact ⟨⟨x, hfinishes⟩, (reading_finishes nodes "List<Node>").2.2.2.2 x hfinishes⟩

/-- A rope of pieces, each of which has a rope of bytes for its rest. -/
def ropes : Table := [("Rope", .obj [("fields", .obj [("rest", .str "Rope<u8>")])])]

/-- The fields of a rope lead back to it with arguments, and no depth ends that. -/
theorem ropes_never_finish : ¬∃ r, Finishes ropes "Rope" r := by
  rintro ⟨r, h⟩
  obtain ⟨rfl, hend⟩ := finishes_iff.mp h
  have hread : isEndless (Ty.read ropes (.str "Rope") .none) = true := by decide +kernel
  rw [hread] at hend
  cases hend

end Dangling.Ty.Reader
