import Dangling.Mir.Ty.Reader
import Dangling.Proofs.Mir.Outcome
import Mathlib.Data.List.TakeWhile

/-!
# Proofs — Mir — TypeScan

Reading a type text is a scan: the text alone decides which declared names are entered, in which
order, and what comes out in the end.  What entering does to the state, and whether it fails, comes
from outside.  So whatever is done on entering, the reader does it for the same uses, one after the
other, and stops at the first that fails.

* `Use`, `enterAll`: the uses of declared names, and entering them in order.
* `Enterable`: a name that a text can enter.
* `Scans`: a reader does so, whatever its fuel from some amount on; `type_eq_of_fuel`: the fuel of a
  text is never spent.
* `Scan`: the uses and the outcome of a text, for every state and every way of entering.
* `exists_scan`: every text has one.
-/

namespace Dangling.Ty.Reader

/-! ### Uses of declared names -/

/-- A use of a declared name, with arguments or without. -/
structure Use where
  name : String
  generic : Bool
  deriving DecidableEq, Repr

/-- What is done on entering a declared name. -/
abbrev Enter (σ : Type) := String → Bool → σ → Except TypeFault σ

/-- Enters names in order. -/
def enterAll {σ : Type} (enter : Enter σ) (uses : List Use) (s : σ) : Except TypeFault σ :=
  uses.foldlM (fun s u => enter u.name u.generic s) s

section EnterAll

variable {σ : Type} {enter : Enter σ}

@[simp] theorem enterAll_nil (s : σ) : enterAll enter [] s = .ok s := rfl

theorem enterAll_cons (u : Use) (uses : List Use) (s : σ) :
    enterAll enter (u :: uses) s = enter u.name u.generic s >>= enterAll enter uses := rfl

theorem enterAll_append (uses more : List Use) (s : σ) :
    enterAll enter (uses ++ more) s = enterAll enter uses s >>= enterAll enter more :=
  List.foldlM_append

end EnterAll

/-- A name that a text can enter: the last segment of a path that is declared, and is no name of the
language. -/
structure Enterable (declared : String → Bool) (name : String) : Prop where
  declared : declared name = true
  foreign : builtin? name [] = none
  segment : ∃ path : List Char, (∀ c ∈ path, isPath c = true) ∧ lastSegment path = name

/-- Whether a name is one of the language does not depend on its arguments. -/
theorem builtin?_eq_none {name : String} {args : List Ty} :
    builtin? name args = none ↔ builtin? name [] = none := by
  simp only [builtin?]
  repeat' split
  all_goals simp

/-! ### Scans -/

/-- A reader of `size` characters enters fixed uses, in order, and then has a fixed outcome, with
whatever fuel it is given, `least` or more.  What it leaves of the text is shorter. -/
def Scans (declared : String → Bool) (least size : Nat) {β : Type}
    (run : Nat → (σ : Type) → Enter σ → σ → Except TypeFault (β × List Char × σ)) : Prop :=
  ∃ (uses : List Use) (out : Except TypeFault (β × List Char)),
    (∀ u ∈ uses, Enterable declared u.name) ∧ (∀ n, out ≠ .error (.endless n)) ∧
      (∀ b rest, out = .ok (b, rest) → rest.length < size) ∧
      ∀ fuel, least ≤ fuel → ∀ σ enter s, run fuel σ enter s =
        enterAll enter uses s >>= fun s => out.map fun x => (x.1, x.2, s)

namespace Scans

variable {declared : String → Bool} {least size : Nat} {α β : Type}
  {run : Nat → (σ : Type) → Enter σ → σ → Except TypeFault (β × List Char × σ)}

/-- Nothing is entered. -/
theorem decided (out : Except TypeFault (β × List Char)) (hout : ∀ n, out ≠ .error (.endless n))
    (hshort : ∀ b rest, out = .ok (b, rest) → rest.length < size)
    (hrun : ∀ fuel σ enter s, run fuel σ enter s = out.map fun x => (x.1, x.2, s)) :
    Scans declared least size run :=
  ⟨[], out, by simp, hout, hshort, fun fuel _ => hrun fuel⟩

theorem weaken (h : Scans declared least size run) {least' size' : Nat} (hleast : least ≤ least')
    (hsize : size ≤ size') : Scans declared least' size' run := by
  obtain ⟨uses, out, huses, hout, hshort, hrun⟩ := h
  exact ⟨uses, out, huses, hout, fun b rest hb => Nat.lt_of_lt_of_le (hshort b rest hb) hsize,
    fun fuel hfuel => hrun fuel (Nat.le_trans hleast hfuel)⟩

/-- A reader whose calls have one unit of fuel less. -/
theorem succ (h : Scans declared least size fun fuel => run (fuel + 1)) :
    Scans declared (least + 1) size run := by
  obtain ⟨uses, out, huses, hout, hshort, hrun⟩ := h
  refine ⟨uses, out, huses, hout, hshort, fun fuel hfuel => ?_⟩
  obtain ⟨fuel, rfl⟩ : ∃ fuel', fuel = fuel' + 1 := ⟨fuel - 1, by omega⟩
  exact hrun fuel (by omega)

/-- One reader after another; what the second is may depend on what the first finds. -/
theorem bind {within : Nat}
    {first : Nat → (σ : Type) → Enter σ → σ → Except TypeFault (α × List Char × σ)}
    (h : Scans declared least within first)
    (hfail : ∀ fuel σ enter s e, first fuel σ enter s = .error e → run fuel σ enter s = .error e)
    (hnext : ∀ a rest, rest.length < within → ∃ next, Scans declared least size next ∧
      ∀ fuel σ enter s s', first fuel σ enter s = .ok (a, rest, s') →
        run fuel σ enter s = next fuel σ enter s') :
    Scans declared least size run := by
  obtain ⟨uses, out, huses, hout, hshort, hfirst⟩ := h
  cases out with
  | error e =>
      refine ⟨uses, .error e, huses, fun n h => hout n (by cases h; rfl), fun b rest h => ?_,
        fun fuel hfuel σ enter s => ?_⟩
      · cases h
      have hs := hfirst fuel hfuel σ enter s
      cases hall : enterAll enter uses s with
      | error e => exact hfail fuel σ enter s e (by rw [hs, hall]; rfl)
      | ok s' => exact hfail fuel σ enter s e (by rw [hs, hall]; rfl)
  | ok x =>
      obtain ⟨next, ⟨more, out', hmore, hout', hshort', hrun⟩, hnext⟩ :=
        hnext x.1 x.2 (hshort x.1 x.2 rfl)
      refine ⟨uses ++ more, out', ?_, hout', hshort', fun fuel hfuel σ enter s => ?_⟩
      · intro u hu
        exact (List.mem_append.mp hu).elim (huses u) (hmore u)
      · have hs := hfirst fuel hfuel σ enter s
        rw [enterAll_append]
        cases hall : enterAll enter uses s with
        | error e => exact hfail fuel σ enter s e (by rw [hs, hall]; rfl)
        | ok s' =>
            rw [hnext fuel σ enter s s' (by rw [hs, hall]; rfl), hrun fuel hfuel σ enter s']
            rfl

/-- The type of a name: the name is entered if it is declared. -/
theorem ofNamed (text : String) (length : Nat) {path : List Char}
    (hpath : ∀ c ∈ path, isPath c = true) (args : List Ty) {rest : List Char}
    (hrest : rest.length < size)
    {run : Nat → (σ : Type) → Enter σ → σ → Except TypeFault (Ty × List Char × σ)}
    (hrun : ∀ fuel σ enter s, run fuel σ enter s =
      named { text, size := length, declared, enter } (lastSegment path) args s >>= fun x =>
        .ok (x.1, rest, x.2)) : Scans declared least size run := by
  have hshort : ∀ (t b : Ty) (rest' : List Char),
      (.ok (t, rest) : Except TypeFault (Ty × List Char)) = .ok (b, rest') → rest'.length < size := by
    rintro t b rest' h
    cases h
    exact hrest
  cases hb : builtin? (lastSegment path) args with
  | some t =>
      refine decided (.ok (t, rest)) (by simp) (hshort t) fun fuel σ enter s => ?_
      rw [hrun, named, hb]
      rfl
  | none =>
      cases hd : declared (lastSegment path) with
      | false =>
          refine decided (.ok (.nominal (lastSegment path) args, rest)) (by simp) (hshort _)
            fun fuel σ enter s => ?_
          rw [hrun, named, hb]
          simp only [hd]
          rfl
      | true =>
          refine ⟨[⟨lastSegment path, !args.isEmpty⟩],
            .ok (.nominal (lastSegment path) args, rest), ?_, by simp, hshort _,
            fun fuel _ σ enter s => ?_⟩
          · intro u hu
            obtain rfl := List.mem_singleton.mp hu
            exact ⟨hd, builtin?_eq_none.mp hb, path, hpath, rfl⟩
          · rw [hrun, named, hb, enterAll_cons]
            simp only [hd, if_true]
            cases enter (lastSegment path) (!args.isEmpty) s <;> rfl

/-- A refusal of the text itself. -/
theorem fault (e : TypeFault) (he : ∀ n, e ≠ .endless n)
    (hrun : ∀ fuel σ enter s, run fuel σ enter s = .error e) : Scans declared least size run :=
  decided (.error e) (fun n h => he n (Except.error.inj h)) (fun b rest h => by cases h) hrun

/-- A result without another look at the text. -/
theorem result (b : β) {rest : List Char} (hrest : rest.length < size)
    (hrun : ∀ fuel σ enter s, run fuel σ enter s = .ok (b, rest, s)) :
    Scans declared least size run := by
  refine decided (.ok (b, rest)) (by simp) (fun b' rest' h => ?_) hrun
  cases h
  exact hrest

/-- The same reader, written in another way. -/
theorem congr {same : Nat → (σ : Type) → Enter σ → σ → Except TypeFault (β × List Char × σ)}
    (h : Scans declared least size same)
    (hrun : ∀ fuel σ enter s, run fuel σ enter s = same fuel σ enter s) :
    Scans declared least size run :=
  have hsame : run = same := funext fun fuel => funext fun σ => funext fun enter => funext fun s =>
    hrun fuel σ enter s
  hsame ▸ h

/-- What one reader finds, made into something else. -/
theorem map {first : Nat → (σ : Type) → Enter σ → σ → Except TypeFault (α × List Char × σ)}
    (h : Scans declared least size first) (f : α → β)
    (hrun : ∀ fuel σ enter s, run fuel σ enter s =
      first fuel σ enter s >>= fun x => .ok (f x.1, x.2.1, x.2.2)) :
    Scans declared least size run :=
  h.bind (fun fuel σ enter s e he => by rw [hrun, he]; rfl) fun a rest hrest =>
    ⟨_, result (f a) hrest fun _ _ _ _ => rfl, fun fuel σ enter s s' hs => by rw [hrun, hs]; rfl⟩

end Scans

/-! ### Shorter texts -/

section Lengths

theorem length_skip_le (cs : List Char) : (skip cs).length ≤ cs.length :=
  (List.dropWhile_suffix _).length_le

theorem length_of_skip {cs rest : List Char} {c : Char} (h : skip cs = c :: rest) :
    rest.length < cs.length := by
  have hskip := length_skip_le cs
  rw [h, List.length_cons] at hskip
  omega

theorem length_skipLifetime_le (cs : List Char) : (skipLifetime cs).length ≤ cs.length := by
  rw [skipLifetime]
  split
  case h_1 rest h =>
    have hdrop : (rest.dropWhile isIdent).length ≤ rest.length :=
      (List.dropWhile_suffix _).length_le
    have hskip := length_of_skip h
    omega
  case h_2 => exact length_skip_le cs

theorem length_of_afterMut? {cs rest : List Char} (h : afterMut? cs = some rest) :
    rest.length < cs.length := by
  have hskip := length_skip_le cs
  rw [afterMut?] at h
  split at h
  case h_1 after hcs =>
    have hafter : after.length < cs.length := by
      rw [hcs] at hskip
      simp only [List.length_cons] at hskip
      omega
    split at h
    · split at h
      · cases h
      · cases h
        exact hafter
    · cases h
      exact hafter
  case h_2 => cases h

theorem length_of_skipParens {depth : Nat} {cs rest : List Char}
    (h : skipParens depth cs = some rest) : rest.length ≤ cs.length := by
  fun_induction skipParens depth cs with
  | case1 => cases h
  | case4 => cases h; simp
  | _ => simp_all; omega

/-- The text after the length of an array, if one is given. -/
def afterSize (cs : List Char) : List Char :=
  match skip cs with
  | ';' :: rest => rest.dropWhile (· != ']')
  | rest => rest

theorem length_afterSize_le (cs : List Char) : (afterSize cs).length ≤ cs.length := by
  rw [afterSize]
  split
  case h_1 rest h =>
    have hdrop : (rest.dropWhile (· != ']')).length ≤ rest.length :=
      (List.dropWhile_suffix _).length_le
    have hskip := length_of_skip h
    omega
  case h_2 => exact length_skip_le cs

/-- The text after a comma, if one comes next. -/
def afterComma (cs : List Char) : List Char :=
  match skip cs with
  | ',' :: rest => rest
  | rest => rest

theorem length_afterComma_le (cs : List Char) : (afterComma cs).length ≤ cs.length := by
  rw [afterComma]
  split
  case h_1 rest h => exact Nat.le_of_lt (length_of_skip h)
  case h_2 => exact length_skip_le cs

end Lengths

/-! ### The reader -/

section Reader

variable {text : String} {size : Nat} {declared : String → Bool} {cs : List Char}

/-- The end of an array type. -/
theorem type_bracket {σ : Type} {cx : Context σ} {fuel : Nat} {rest after : List Char} {t : Ty}
    {s s' : σ} (hcs : skip cs = '[' :: rest) (hs : type cx fuel rest s = .ok (t, after, s')) :
    type cx (fuel + 1) cs s =
      if (afterSize after).head? = some ']' then .ok (.array t, (afterSize after).tail, s')
      else .error (.expected "]" cx.text (cx.position (afterSize after))) := by
  rw [type, hcs]
  simp only [hs, bind, Except.bind]
  by_cases hclose : (afterSize after).head? = some ']'
  · obtain ⟨close, hafter⟩ := List.head?_eq_some_iff.mp hclose
    rw [if_pos hclose, hafter]
    split
    case h_1 inner heq =>
      have hinner : close = inner := List.tail_eq_of_cons_eq (hafter.symm.trans heq)
      rw [List.tail_cons, hinner]
    case h_2 hother => exact absurd hafter (hother close)
  · rw [if_neg hclose]
    split
    case h_1 inner heq => exact absurd (List.head?_eq_some_iff.mpr ⟨inner, heq⟩) hclose
    case h_2 => rfl

/-- The reader of a type scans, if those it calls do: all texts but that of a path are shorter. -/
theorem scans_type
    (htype : ∀ rest, rest.length < cs.length → Scans declared (3 * rest.length + 2) rest.length
      fun fuel _ enter s => type { text, size, declared, enter } fuel rest s)
    (hpath : ∀ rest, rest.length ≤ cs.length → Scans declared (3 * rest.length + 1) rest.length
      fun fuel _ enter s => path { text, size, declared, enter } fuel rest s)
    (helements : ∀ rest, rest.length < cs.length → Scans declared (3 * rest.length + 3) rest.length
      fun fuel _ enter s => elements { text, size, declared, enter } fuel rest s) :
    Scans declared (3 * cs.length + 2) cs.length
      fun fuel _ enter s => type { text, size, declared, enter } fuel cs s := by
  refine .succ ?_
  cases hcs : skip cs with
  | nil =>
      refine .fault (.ended text) (by simp) fun fuel σ enter s => ?_
      rw [type, hcs]
  | cons c rest =>
      have hrest := length_of_skip hcs
      by_cases hamp : c = '&'
      · subst hamp
        have hlifetime := length_skipLifetime_le rest
        cases hmut : afterMut? (skipLifetime rest) with
        | some inner =>
            have hinner := length_of_afterMut? hmut
            refine ((htype inner (by omega)).weaken (by omega) (by omega)).map (.ref true)
              fun fuel σ enter s => ?_
            rw [type, hcs]
            simp only [hmut]
        | none =>
            refine ((htype (skipLifetime rest) (by omega)).weaken (by omega) (by omega)).map
              (.ref false) fun fuel σ enter s => ?_
            rw [type, hcs]
            simp only [hmut]
      by_cases hstar : c = '*'
      · subst hstar
        cases hmut : afterMut? rest with
        | some inner =>
            have hinner := length_of_afterMut? hmut
            refine ((htype inner (by omega)).weaken (by omega) (by omega)).map (.rawPtr true)
              fun fuel σ enter s => ?_
            rw [type, hcs]
            simp only [hmut]
        | none =>
            by_cases hconst : ∃ inner, skip rest = 'c' :: 'o' :: 'n' :: 's' :: 't' :: inner
            · obtain ⟨inner, hconst⟩ := hconst
              have hinner := length_of_skip hconst
              simp only [List.length_cons] at hinner
              refine ((htype inner (by omega)).weaken (by omega) (by omega)).map (.rawPtr false)
                fun fuel σ enter s => ?_
              rw [type, hcs]
              simp only [hmut, hconst]
            · refine .fault (.expected "const" text (size - (skip rest).length)) (by simp)
                fun fuel σ enter s => ?_
              rw [type, hcs]
              simp only [hmut]
              split
              · exact absurd ⟨_, ‹_›⟩ hconst
              · rfl
      by_cases hparen : c = '('
      · subst hparen
        refine ((helements rest hrest).weaken (by omega) (by omega)).map Ty.product
          fun fuel σ enter s => ?_
        rw [type, hcs]
        rfl
      by_cases hbracket : c = '['
      · subst hbracket
        refine ((htype rest hrest).weaken (by omega) (Nat.le_refl _)).bind
          (fun fuel σ enter s e he => ?_) fun t after hafter => ?_
        · rw [type, hcs]
          simp only [he]
          rfl
        · have hend := length_afterSize_le after
          by_cases hclose : (afterSize after).head? = some ']'
          · have htail : (afterSize after).tail.length < cs.length := by
              rw [List.length_tail]
              omega
            refine ⟨_, .result (.array t) htail fun _ _ _ _ => rfl, fun fuel σ enter s s' hs => ?_⟩
            rw [type_bracket hcs hs, if_pos hclose]
          · refine ⟨_, .fault (.expected "]" text (size - (afterSize after).length)) (by simp)
              fun _ _ _ _ => rfl, fun fuel σ enter s s' hs => ?_⟩
            rw [type_bracket hcs hs, if_neg hclose]
            rfl
      by_cases hnever : c = '!'
      · subst hnever
        refine .result (.bare .never) hrest fun fuel σ enter s => ?_
        rw [type, hcs]
        rfl
      · have hskip : (c :: rest).length ≤ cs.length := hcs ▸ length_skip_le cs
        refine ((hpath (c :: rest) hskip).weaken (by omega) hskip).congr fun fuel σ enter s => ?_
        rw [type, hcs]
        split <;> simp_all

/-- The reader of a path scans, if those it calls do: behind a name the text is shorter. -/
theorem scans_path
    (htype : ∀ rest, rest.length < cs.length → Scans declared (3 * rest.length + 2) rest.length
      fun fuel _ enter s => type { text, size, declared, enter } fuel rest s)
    (hpath : ∀ rest, rest.length < cs.length → Scans declared (3 * rest.length + 1) rest.length
      fun fuel _ enter s => path { text, size, declared, enter } fuel rest s)
    (harguments : ∀ rest, rest.length < cs.length → Scans declared (3 * rest.length + 3) rest.length
      fun fuel _ enter s => arguments { text, size, declared, enter } fuel rest s) :
    Scans declared (3 * cs.length + 1) cs.length
      fun fuel _ enter s => path { text, size, declared, enter } fuel cs s := by
  refine .succ ?_
  have hlength : ((skip cs).takeWhile isPath).length + ((skip cs).dropWhile isPath).length ≤
      cs.length := by
    rw [← List.length_append, List.takeWhile_append_dropWhile]
    exact length_skip_le cs
  generalize hname : (skip cs).takeWhile isPath = name at hlength
  generalize hrest : (skip cs).dropWhile isPath = rest at hlength
  have hchars : ∀ c ∈ name, isPath c = true := fun c hc => List.mem_takeWhile_imp (hname ▸ hc)
  cases hempty : name.isEmpty with
  | true =>
    refine .fault (.nameless text (size - (skip cs).length)) (by simp) fun fuel σ enter s => ?_
    simp only [path, hname, hempty, if_true]
    rfl
  | false =>
  have hne : 0 < name.length := List.length_pos_iff.mpr (by simpa using hempty)
  have hskip := length_skip_le rest
  cases hdyn : name == ['d', 'y', 'n'] || name == ['i', 'm', 'p', 'l'] with
  | true =>
    refine ((hpath rest (by omega)).weaken (by omega) (by omega)).map
      (fun inner => .nominal (String.ofList name ++ " " ++ inner.name?.getD "None") [])
      fun fuel σ enter s => ?_
    simp only [path, hname, hrest, hempty, hdyn, Bool.false_eq_true, if_true, if_false]
  | false =>
  cases hfn : name == ['f', 'n'] && (skip rest).head? == some '(' with
  | true =>
    cases hparens : skipParens 0 (skip rest) with
    | none =>
        refine .fault (.unclosed text) (by simp) fun fuel σ enter s => ?_
        simp only [path, hname, hrest, hempty, hdyn, hfn, hparens, Bool.false_eq_true, if_true,
          if_false]
    | some after =>
        have hafter := length_of_skipParens hparens
        have hskipAfter := length_skip_le after
        by_cases harrow : ∃ result, skip after = '-' :: '>' :: result
        · obtain ⟨result, harrow⟩ := harrow
          have hresult := length_of_skip harrow
          rw [List.length_cons] at hresult
          refine ((htype result (by omega)).weaken (by omega) (by omega)).map
            (fun _ => .scalar .fn "fn") fun fuel σ enter s => ?_
          simp only [path, hname, hrest, hempty, hdyn, hfn, hparens, harrow, Bool.false_eq_true,
            if_true, if_false]
        · have hend : (skip after).length < cs.length := by omega
          refine .result (.scalar .fn "fn") hend fun fuel σ enter s => ?_
          simp only [path, hname, hrest, hempty, hdyn, hfn, hparens, Bool.false_eq_true, if_true,
            if_false]
          split
          · exact absurd ⟨_, ‹_›⟩ harrow
          · rfl
  | false =>
  by_cases hangle : ∃ inner, skip rest = '<' :: inner
  · obtain ⟨inner, hangle⟩ := hangle
    have hinner := length_of_skip hangle
    refine ((harguments inner (by omega)).weaken (by omega) (Nat.le_refl _)).bind
      (fun fuel σ enter s e he => ?_) fun args after hafter => ?_
    · simp only [path, hname, hrest, hempty, hdyn, hfn, Bool.false_eq_true, if_false]
      simp only [hangle, he]
      rfl
    · have hend : after.length < cs.length := by omega
      refine ⟨_, .ofNamed text size hchars args hend fun _ _ _ _ => rfl,
        fun fuel σ enter s s' hs => ?_⟩
      simp only [path, hname, hrest, hempty, hdyn, hfn, Bool.false_eq_true, if_false]
      simp only [hangle, hs]
      rfl
  · have hend : (skip rest).length < cs.length := by omega
    refine .ofNamed text size hchars [] hend fun fuel σ enter s => ?_
    simp only [path, hname, hrest, hempty, hdyn, hfn, Bool.false_eq_true, if_false]
    split
    · exact absurd ⟨_, ‹_›⟩ hangle
    · rfl

/-- The reader of arguments scans, if those it calls do: behind an argument the text is shorter. -/
theorem scans_arguments
    (htype : ∀ rest, rest.length ≤ cs.length → Scans declared (3 * rest.length + 2) rest.length
      fun fuel _ enter s => type { text, size, declared, enter } fuel rest s)
    (harguments : ∀ rest, rest.length < cs.length → Scans declared (3 * rest.length + 3) rest.length
      fun fuel _ enter s => arguments { text, size, declared, enter } fuel rest s) :
    Scans declared (3 * cs.length + 3) cs.length
      fun fuel _ enter s => arguments { text, size, declared, enter } fuel cs s := by
  refine .succ ?_
  have hlength : (skip (skipLifetime cs)).length ≤ cs.length :=
    Nat.le_trans (length_skip_le _) (length_skipLifetime_le cs)
  generalize hcs : skip (skipLifetime cs) = next at hlength
  by_cases hclose : ∃ rest, next = '>' :: rest
  · obtain ⟨rest, rfl⟩ := hclose
    refine .result [] (Nat.lt_of_succ_le hlength) fun fuel σ enter s => ?_
    rw [arguments, hcs]
    rfl
  by_cases hcomma : ∃ rest, next = ',' :: rest
  · obtain ⟨rest, rfl⟩ := hcomma
    rw [List.length_cons] at hlength
    refine ((harguments rest (by omega)).weaken (by omega) (by omega)).congr
      fun fuel σ enter s => ?_
    rw [arguments, hcs]
    rfl
  -- an argument, and then the others
  · have hmore : ∀ {σ : Type} (fuel : Nat) (enter : Enter σ) (s : σ),
        arguments { text, size, declared, enter } (fuel + 1) cs s =
          type { text, size, declared, enter } fuel next s >>= fun x =>
            arguments { text, size, declared, enter } fuel (afterComma x.2.1) x.2.2 >>= fun y =>
              .ok (x.1 :: y.1, y.2.1, y.2.2) := by
      intro σ fuel enter s
      rw [arguments, hcs]
      split
      · exact absurd ⟨_, rfl⟩ hclose
      · exact absurd ⟨_, rfl⟩ hcomma
      · rfl
    refine ((htype next hlength).weaken (by omega) hlength).bind (fun fuel σ enter s e he => ?_)
      fun t rest hrest => ?_
    · rw [hmore, he]
      rfl
    · have hcommaLength := length_afterComma_le rest
      have hargs := harguments (afterComma rest) (by omega)
      refine ⟨_, (hargs.weaken (by omega) (by omega)).map (t :: ·) fun _ _ _ _ => rfl,
        fun fuel σ enter s s' hs => ?_⟩
      rw [hmore, hs]
      rfl

/-- The elements of a tuple after the element `t`. -/
def elementsAfter {σ : Type} (cx : Context σ) (fuel : Nat) (t : Ty) (cs : List Char) (s : σ) :
    Except TypeFault (List Ty × List Char × σ) :=
  match skip cs with
  | ',' :: rest => elements cx fuel rest s >>= fun x => .ok (t :: x.1, x.2.1, x.2.2)
  | ')' :: rest => .ok ([t], rest, s)
  | _ => .error (.unseparated cx.text)

/-- The reader of tuple elements scans, if those it calls do: behind an element the text is
shorter. -/
theorem scans_elements
    (htype : ∀ rest, rest.length ≤ cs.length → Scans declared (3 * rest.length + 2) rest.length
      fun fuel _ enter s => type { text, size, declared, enter } fuel rest s)
    (helements : ∀ rest, rest.length < cs.length → Scans declared (3 * rest.length + 3) rest.length
      fun fuel _ enter s => elements { text, size, declared, enter } fuel rest s) :
    Scans declared (3 * cs.length + 3) cs.length
      fun fuel _ enter s => elements { text, size, declared, enter } fuel cs s := by
  refine .succ ?_
  have hlength := length_skip_le cs
  generalize hcs : skip cs = next at hlength
  by_cases hclose : ∃ rest, next = ')' :: rest
  · obtain ⟨rest, rfl⟩ := hclose
    refine .result [] (Nat.lt_of_succ_le hlength) fun fuel σ enter s => ?_
    rw [elements, hcs]
    rfl
  · have hmore : ∀ {σ : Type} (fuel : Nat) (enter : Enter σ) (s : σ)
        {x : Except TypeFault (Ty × List Char × σ)},
        type { text, size, declared, enter } fuel next s = x →
        elements { text, size, declared, enter } (fuel + 1) cs s =
          x >>= fun x => elementsAfter { text, size, declared, enter } fuel x.1 x.2.1 x.2.2 := by
      rintro σ fuel enter s x rfl
      rw [elements, hcs]
      split
      · exact absurd ⟨_, rfl⟩ hclose
      · rfl
    refine ((htype next hlength).weaken (by omega) hlength).bind
      (fun fuel σ enter s e he => hmore fuel enter s he) fun t rest hrest => ?_
    refine ⟨fun fuel _ enter s => elementsAfter { text, size, declared, enter } fuel t rest s, ?_,
      fun fuel σ enter s s' hs => hmore fuel enter s hs⟩
    generalize hafter : skip rest = after
    by_cases hcomma : ∃ inner, after = ',' :: inner
    · obtain ⟨inner, rfl⟩ := hcomma
      have hinner := length_of_skip hafter
      refine ((helements inner (by omega)).weaken (by omega) (by omega)).map (t :: ·)
        fun fuel σ enter s => ?_
      rw [elementsAfter, hafter]
      rfl
    by_cases hparen : ∃ inner, after = ')' :: inner
    · obtain ⟨inner, rfl⟩ := hparen
      have hinner := length_of_skip hafter
      refine .result [t] (Nat.lt_trans hinner hrest) fun fuel σ enter s => ?_
      rw [elementsAfter, hafter]
      rfl
    · refine .fault (.unseparated text) (by simp) fun fuel σ enter s => ?_
      rw [elementsAfter, hafter]
      split
      · exact absurd ⟨_, rfl⟩ hcomma
      · exact absurd ⟨_, rfl⟩ hparen
      · rfl

variable (text size declared)

/-- **Every reader scans**, by induction on the length of the text. -/
theorem scans (length : Nat) :
    (∀ cs, cs.length < length → Scans declared (3 * cs.length + 2) cs.length
        fun fuel _ enter s => type { text, size, declared, enter } fuel cs s) ∧
      (∀ cs, cs.length < length → Scans declared (3 * cs.length + 1) cs.length
        fun fuel _ enter s => path { text, size, declared, enter } fuel cs s) ∧
      (∀ cs, cs.length < length → Scans declared (3 * cs.length + 3) cs.length
        fun fuel _ enter s => arguments { text, size, declared, enter } fuel cs s) ∧
      ∀ cs, cs.length < length → Scans declared (3 * cs.length + 3) cs.length
        fun fuel _ enter s => elements { text, size, declared, enter } fuel cs s := by
  induction length with
  | zero => simp
  | succ length ih =>
      obtain ⟨htype, hpath, harguments, helements⟩ := ih
      -- texts of one length: paths first, then types, then lists of types
      have hpath' : ∀ cs : List Char, cs.length < length + 1 →
          Scans declared (3 * cs.length + 1) cs.length
            fun fuel _ enter s => path { text, size, declared, enter } fuel cs s := fun cs hcs =>
        scans_path (fun rest h => htype rest (by omega)) (fun rest h => hpath rest (by omega))
          fun rest h => harguments rest (by omega)
      have htype' : ∀ cs : List Char, cs.length < length + 1 →
          Scans declared (3 * cs.length + 2) cs.length
            fun fuel _ enter s => type { text, size, declared, enter } fuel cs s := fun cs hcs =>
        scans_type (fun rest h => htype rest (by omega)) (fun rest h => hpath' rest (by omega))
          fun rest h => helements rest (by omega)
      exact ⟨htype', hpath', fun cs hcs => scans_arguments (fun rest h => htype' rest (by omega))
        fun rest h => harguments rest (by omega), fun cs hcs => scans_elements
        (fun rest h => htype' rest (by omega)) fun rest h => helements rest (by omega)⟩

/-- The reader of a whole text. -/
theorem scans_text (cs : List Char) : Scans declared (3 * cs.length + 2) cs.length
    fun fuel _ enter s => type { text, size, declared, enter } fuel cs s :=
  (scans text size declared (cs.length + 1)).1 cs (Nat.lt_succ_self _)

/-- **The fuel of a text is never spent**: with more of it the reader finds the same. -/
theorem type_eq_of_fuel {σ : Type} (cx : Context σ) {fuel fuel' : Nat} {cs : List Char}
    (hfuel : 3 * cs.length + 2 ≤ fuel) (hfuel' : 3 * cs.length + 2 ≤ fuel') (s : σ) :
    type cx fuel cs s = type cx fuel' cs s := by
  obtain ⟨uses, out, -, -, -, hrun⟩ := scans_text cx.text cx.size cx.declared cs
  exact (hrun fuel hfuel σ cx.enter s).trans (hrun fuel' hfuel' σ cx.enter s).symm

end Reader

/-! ### Texts -/

/-- What a text does when it is read as a type over declared names: which of them it enters, in order,
and what comes out, for every way of entering. -/
structure Scan (declared : String → Bool) (text : String) where
  uses : List Use
  out : Except TypeFault Ty
  enterable : ∀ u ∈ uses, Enterable declared u.name
  finite : ∀ n, out ≠ .error (.endless n)
  whole_eq : ∀ {σ : Type} (enter : Enter σ) (s : σ),
    whole declared enter text s = enterAll enter uses s >>= fun s => out.map fun t => (t, s)

/-- What a type at the front of a text comes to: nothing may follow it. -/
def ending (text : String) (x : Ty × List Char) : Except TypeFault Ty :=
  match skip x.2 with
  | [] => .ok x.1
  | rest => .error (.trailing text (text.length - rest.length))

theorem ending_ne_endless (text : String) (x : Ty × List Char) (n : String) :
    ending text x ≠ .error (.endless n) := by
  rw [ending]
  split <;> simp

/-- Every text has a scan. -/
theorem exists_scan (declared : String → Bool) (text : String) : Nonempty (Scan declared text) := by
  obtain ⟨uses, out, huses, hout, -, hrun⟩ := scans_text text text.length declared text.toList
  refine ⟨uses, out >>= ending text, huses, fun n => ?_, fun {σ} enter s => ?_⟩
  · cases out with
    | error e => exact fun h => hout n (by cases h; rfl)
    | ok x => exact ending_ne_endless text x n
  · have hfuel : 3 * text.toList.length + 2 ≤ 3 * text.length + 3 := by
      rw [String.length_toList]
      omega
    have htype : type { text, size := text.length, declared, enter } (3 * text.length + 3)
        text.toList s = _ := hrun _ hfuel σ enter s
    rw [whole, htype]
    cases enterAll enter uses s with
    | error e => rfl
    | ok s =>
        cases out with
        | error e => rfl
        | ok x =>
            simp only [bind, Except.bind, Except.map, ending]
            cases skip x.2 <;> rfl

end Dangling.Ty.Reader
