import Dangling.Proofs.Mir.TypeNames
import Dangling.Proofs.Text.Blank

/-!
# Proofs — Mir — TypeTexts

The text of a type, read as a type text, is that type again.  The reader goes forward through a text
and takes as much as makes a type, so the argument is about a type text that stands in a longer one:
whatever follows it, if what follows ends a type, the reader finds the type and stops right there.

* `Ty.Written`: the types that texts write out in full.
* `Ty.Reader.Stops`, `Ty.Reader.Starts`: what may follow a type text, and how one begins.
* `Ty.Reader.Lists.read_listed`: a list of types, from its members.
* `Ty.Written.legible`: a type text in a longer one.
* `Ty.read_text`: a type text alone.
-/

namespace Dangling.Ty

/-! ### Types with a text of their own -/

namespace Reader

/-- Words that open a type of their own, or say that a pointer is mutable. -/
def keywords : List String := ["mut", "dyn", "impl", "fn"]

/-- A name that the reader takes as it stands: letters, numbers and underscores, and no keyword. -/
structure IsName (name : String) : Prop where
  nonempty : name ≠ ""
  ident : ∀ c ∈ name.toList, isIdent c = true
  noKeyword : name ∉ keywords

end Reader

/-- The containers of the standard library, with their kinds. -/
def containers : List (String × Kind) :=
  [("Box", .box), ("Vec", .vec), ("String", .string), ("CString", .string), ("OsString", .string),
    ("PathBuf", .string), ("Rc", .rc), ("Arc", .rc), ("ManuallyDrop", .manuallyDrop)]

/-- The names of the language. -/
def builtins : List String :=
  Reader.intNames ++ ["f32", "f64", "bool", "char", "str", "_"] ++ containers.map (·.1)

/-- A type that its text writes out in full, where the names that are `declared` have fields. -/
inductive Written (declared : String → Bool) : Ty → Prop
  | unit : Written declared .unit
  | int {name : String} (h : name ∈ Reader.intNames) : Written declared (.scalar .int name)
  | float {name : String} (h : name ∈ ["f32", "f64"]) : Written declared (.scalar .float name)
  | bool : Written declared .bool
  | char : Written declared (.scalar .char "char")
  | str : Written declared (.scalar .str "str")
  | ref (mutable : Bool) {t : Ty} (h : Written declared t) : Written declared (.ref mutable t)
  | rawPtr (mutable : Bool) {t : Ty} (h : Written declared t) : Written declared (.rawPtr mutable t)
  | tuple {ts : List Ty} (hne : ts ≠ []) (h : ∀ t ∈ ts, Written declared t) :
      Written declared (.tuple ts)
  | container {name : String} {kind : Kind} {ts : List Ty} (hname : (name, kind) ∈ containers)
      (h : ∀ t ∈ ts, Written declared t) : Written declared (.container kind name ts)
  | nominal {name : String} {ts : List Ty} (hname : Reader.IsName name) (hfree : name ∉ builtins)
      (hundeclared : declared name = false) (h : ∀ t ∈ ts, Written declared t) :
      Written declared (.nominal name ts)

/-- The texts of several types, with commas between them. -/
def listed (ts : List Ty) : List Char := (", ".intercalate (texts ts)).toList

@[simp] theorem listed_singleton (t : Ty) : listed [t] = t.text.toList := by
  simp [listed, texts]

@[simp] theorem listed_cons_cons (t u : Ty) (ts : List Ty) :
    listed (t :: u :: ts) = t.text.toList ++ ',' :: ' ' :: listed (u :: ts) := by
  simp [listed, texts, String.intercalate_cons_cons]

/-- A name alone, or with its arguments. -/
theorem toList_applied {name : String} (hname : name ≠ "") (kind : Kind) (ts : List Ty) :
    (applied kind name (texts ts)).toList =
      name.toList ++ if ts = [] then [] else '<' :: (listed ts ++ ['>']) := by
  cases ts with
  | nil => simp [applied, texts, hname]
  | cons t ts => simp [applied, texts, hname, listed]

namespace Reader

/-! ### Names -/

/-- The letters of a name may stand in a path. -/
theorem isPath_of_isIdent {c : Char} (h : isIdent c = true) : isPath c = true := by
  rw [isIdent] at h
  rw [isPath, h, Bool.true_or]

theorem isIdent_of_isAlphanum {c : Char} (h : c.isAlphanum = true) : isIdent c = true := by
  have hrange := Text.toNat_of_isAlphanum h
  have hsmall : c.toNat < 0x80 := by omega
  rw [isIdent, Text.isWord, if_pos hsmall, h, Bool.true_or]

/-- An ASCII word that is no keyword. -/
def isAsciiName (name : String) : Bool :=
  name != "" && name.toList.all (fun c => c.isAlphanum || c == '_') && !keywords.contains name

/-- ASCII letters and digits make a name. -/
theorem isName_of_isAsciiName {name : String} (h : isAsciiName name = true) : IsName name := by
  simp only [isAsciiName, Bool.and_eq_true, bne_iff_ne, List.all_eq_true, Bool.or_eq_true, beq_iff_eq,
    Bool.not_eq_true'] at h
  obtain ⟨⟨hne, hascii⟩, hkey⟩ := h
  refine ⟨hne, fun c hc => ?_, fun hmem => ?_⟩
  · obtain halpha | rfl := hascii c hc
    · exact isIdent_of_isAlphanum halpha
    · rfl
  · rw [List.contains_iff_mem.mpr hmem] at hkey
    cases hkey

/-- The types of the language have names. -/
theorem isName_of_mem_builtins {name : String} (h : name ∈ builtins) : IsName name := by
  have hall : builtins.all isAsciiName = true := rfl
  exact isName_of_isAsciiName (List.all_eq_true.mp hall name h)

/-- A name without a path is its own last segment. -/
theorem lastSegment_of_isIdent {cs : List Char} (h : ∀ c ∈ cs, isIdent c = true) :
    lastSegment cs = String.ofList cs := by
  have hsingle : Single cs := by
    refine List.Pairwise.isChain (List.pairwise_of_forall_mem_list fun a ha b _ hcolons => ?_)
    have hcolon := h a ha
    rw [hcolons.1] at hcolon
    cases hcolon
  rw [lastSegment, lastSegment_go_eq hsingle, List.reverse_nil, List.nil_append]

/-! ### Before and after a type text -/

/-- What may follow a type text: the end, or what divides or closes a list. -/
def Stops (rest : List Char) : Prop := ∀ c, rest.head? = some c → c = ',' ∨ c = '>' ∨ c = ')'

/-- How a type text begins, and that it does not begin with `mut`. -/
structure Starts (cs : List Char) : Prop where
  head : ∃ c rest, cs = c :: rest ∧ (c = '&' ∨ c = '*' ∨ c = '(' ∨ isIdent c = true)
  noMut : afterMut? cs = none

/-- Before a text that does not start with a blank there is nothing to skip. -/
theorem skip_of_head {cs : List Char} (h : ∀ c, cs.head? = some c → Text.isBlank c = false) :
    skip cs = cs := by
  cases cs with
  | nil => rfl
  | cons c cs => exact List.dropWhile_cons_of_neg (by simp [h c rfl])

@[simp] theorem skip_space (cs : List Char) : skip (' ' :: cs) = skip cs := rfl

/-- A type is followed by no blank. -/
theorem Stops.skip_eq {rest : List Char} (h : Stops rest) : skip rest = rest := by
  refine skip_of_head fun c hc => ?_
  obtain rfl | rfl | rfl := h c hc <;> rfl

/-- The end of a type does not go on with its name. -/
theorem Stops.not_isPath {rest : List Char} (h : Stops rest) :
    ∀ c, rest.head? = some c → isPath c = false := by
  intro c hc
  obtain rfl | rfl | rfl := h c hc <;> rfl

theorem Starts.skip_eq {cs : List Char} (h : Starts cs) : skip cs = cs := by
  obtain ⟨c, rest, rfl, rfl | rfl | rfl | hident⟩ := h.head
  · rfl
  · rfl
  · rfl
  · exact skip_of_isPath (isPath_of_isIdent hident)

/-- Neither a lifetime begins a type text, nor what divides or closes a list. -/
theorem Starts.head_ne {cs rest : List Char} (h : Starts cs) {c : Char}
    (hc : c ∈ ['\x27', ',', '>', ')']) : cs ≠ c :: rest := by
  obtain ⟨c', rest', rfl, hopen⟩ := h.head
  intro heq
  obtain rfl : c' = c := (List.cons.inj heq).1
  simp only [List.mem_cons, List.not_mem_nil, or_false] at hc
  obtain rfl | rfl | rfl | rfl := hc <;> obtain h | h | h | h := hopen <;> cases h

/-- A type does not start with a lifetime. -/
theorem Starts.skipLifetime_eq {cs : List Char} (h : Starts cs) : skipLifetime cs = cs := by
  rw [skipLifetime, h.skip_eq]
  split
  · exact absurd rfl (h.head_ne (by decide))
  · rfl

/-- The word in front of what follows `mut` is `mut`. -/
theorem takeWhile_of_afterMut? {cs rest : List Char} (hskip : skip cs = cs)
    (h : afterMut? cs = some rest) : cs.takeWhile isIdent = ['m', 'u', 't'] := by
  rw [afterMut?, hskip] at h
  split at h
  · split at h
    · split at h
      · cases h
      · next hc =>
          have hword : isIdent 'm' = true ∧ isIdent 'u' = true ∧ isIdent 't' = true :=
            ⟨rfl, rfl, rfl⟩
          simp [hc, hword]
    · rfl
  · cases h

theorem IsName.exists_cons {name : String} (h : IsName name) :
    ∃ c cs, name.toList = c :: cs ∧ isIdent c = true := by
  cases hcs : name.toList with
  | nil => exact absurd (String.toList_eq_nil_iff.mp hcs) h.nonempty
  | cons c cs => exact ⟨c, cs, rfl, h.ident c (hcs ▸ .head _)⟩

/-- A name is the start of a type. -/
theorem IsName.starts {name : String} (h : IsName name) {rest : List Char}
    (hrest : ∀ c, rest.head? = some c → isPath c = false) : Starts (name.toList ++ rest) := by
  obtain ⟨c, cs, hcs, hc⟩ := h.exists_cons
  have hskip : skip (name.toList ++ rest) = name.toList ++ rest := by
    rw [hcs]
    exact skip_of_isPath (isPath_of_isIdent hc)
  refine ⟨⟨c, cs ++ rest, by rw [hcs]; rfl, .inr (.inr (.inr hc))⟩, ?_⟩
  cases hmut : afterMut? (name.toList ++ rest) with
  | none => rfl
  | some after =>
      have hword := takeWhile_of_afterMut? hskip hmut
      rw [(Text.takeWhile_append h.ident fun c hc => ?_).1] at hword
      · have hname : name = "mut" := String.toList_injective hword
        exact absurd (hname ▸ by decide) h.noKeyword
      · cases hident : isIdent c with
        | false => rfl
        | true => rw [← hrest c hc, isPath_of_isIdent hident]

/-! ### Reading names -/

section Reading

variable {σ : Type} (cx : Context σ)

/-- What the reader does behind a name: it takes arguments, or goes on. -/
def behindName (fuel : Nat) (name : String) (s : σ) : List Char → Except TypeFault (Ty × List Char × σ)
  | '<' :: rest =>
    arguments cx fuel rest s >>= fun x =>
      named cx name x.1 x.2.2 >>= fun y => .ok (y.1, x.2.1, y.2)
  | rest => named cx name [] s >>= fun y => .ok (y.1, rest, y.2)

/-- A name that is not followed by an argument list has no arguments. -/
theorem Stops.behindName_eq {rest : List Char} (h : Stops rest) (fuel : Nat) (name : String) (s : σ) :
    behindName cx fuel name s rest = named cx name [] s >>= fun y => .ok (y.1, rest, y.2) := by
  rw [behindName.eq_def]
  split
  · obtain h | h | h := h '<' rfl <;> cases h
  · rfl

/-- A name in front of what belongs to no name is a word without a reading of its own. -/
theorem IsName.path_eq {name : String} (h : IsName name) {rest : List Char}
    (hpath : ∀ c, rest.head? = some c → isPath c = false) (hskip : skip rest = rest)
    (fuel : Nat) (s : σ) :
    path cx (fuel + 1) (name.toList ++ rest) s = behindName cx fuel name s rest := by
  obtain ⟨c, cs, hcs, hc⟩ := h.exists_cons
  obtain ⟨htake, hdrop⟩ :=
    Text.takeWhile_append (fun c hc => isPath_of_isIdent (h.ident c hc)) hpath
  have hword : ∀ w ∈ keywords, name.toList ≠ w.toList := fun w hw heq =>
    h.noKeyword (String.toList_injective heq ▸ hw)
  have hdyn : name.toList ≠ ['d', 'y', 'n'] := hword "dyn" (by decide)
  have himpl : name.toList ≠ ['i', 'm', 'p', 'l'] := hword "impl" (by decide)
  have hfn : name.toList ≠ ['f', 'n'] := hword "fn" (by decide)
  rw [path, (h.starts hpath).skip_eq]
  simp only [htake, hdrop, hskip, lastSegment_of_isIdent h.ident, String.ofList_toList]
  rw [if_neg (by simp [hcs]), if_neg (by simp [hdyn, himpl]), if_neg (by simp [hfn])]
  refine Eq.trans ?_ (behindName.eq_def cx fuel name s rest).symm
  rfl

/-- A text that starts with a name is read as that name and what follows. -/
theorem IsName.type_eq {name : String} (h : IsName name) {rest : List Char}
    (hpath : ∀ c, rest.head? = some c → isPath c = false) (hskip : skip rest = rest)
    (fuel : Nat) (s : σ) :
    type cx (fuel + 2) (name.toList ++ rest) s = behindName cx fuel name s rest := by
  rw [← h.path_eq cx hpath hskip]
  obtain ⟨c, cs, hcs, hc⟩ := h.exists_cons
  rw [hcs]
  exact type_of_isPath cx (fuel + 1) (isPath_of_isIdent hc) (cs ++ rest) s

/-! ### Lists of types -/

/-- The text of a type, in front of what ends a type, is read as that type. -/
def ReadsBack (t : Ty) : Prop :=
  ∀ (fuel : Nat) (rest : List Char) (s : σ), Stops rest → 3 * t.text.toList.length ≤ fuel →
    type cx fuel (t.text.toList ++ rest) s = .ok (t, rest, s)

/-- A blank before a type is skipped. -/
theorem type_space (fuel : Nat) (cs : List Char) (s : σ) :
    type cx fuel (' ' :: cs) s = type cx fuel cs s := by
  cases fuel with
  | zero => rfl
  | succ fuel => rw [type, type, skip_space]

/-- The text of a type begins one, and is read as that type. -/
structure Legible (t : Ty) : Prop where
  starts : ∀ rest, Stops rest → Starts (t.text.toList ++ rest)
  readsBack : ReadsBack cx t

/-- A reader of lists up to `close`: it reads one type after the other, with a comma between them. -/
structure Lists (close : Char) (run : Nat → List Char → σ → Except TypeFault (List Ty × List Char × σ)) :
    Prop where
  stops : close = '>' ∨ close = ')'
  space : ∀ fuel cs s, run fuel (' ' :: cs) s = run fuel cs s
  step : ∀ {fuel cs more t s}, Starts cs → type cx fuel cs s = .ok (t, ',' :: more, s) →
    run (fuel + 1) cs s = run fuel more s >>= fun x => .ok (t :: x.1, x.2)
  last : ∀ {fuel cs more t s}, Starts cs → type cx (fuel + 1) cs s = .ok (t, close :: more, s) →
    run (fuel + 2) cs s = .ok ([t], more, s)

/-- The arguments of a type end with an angle. -/
theorem lists_arguments : Lists cx '>' (arguments cx) where
  stops := .inl rfl
  space := by
    intro fuel cs s
    cases fuel with
    | zero => rfl
    | succ fuel => rw [arguments, arguments, skipLifetime, skipLifetime, skip_space]
  step := by
    intro fuel cs more t s hstart ht
    rw [arguments, hstart.skipLifetime_eq, hstart.skip_eq]
    split
    · exact absurd rfl (hstart.head_ne (by decide))
    · exact absurd rfl (hstart.head_ne (by decide))
    · rw [ht]
      rfl
  last := by
    intro fuel cs more t s hstart ht
    rw [arguments, hstart.skipLifetime_eq, hstart.skip_eq]
    split
    · exact absurd rfl (hstart.head_ne (by decide))
    · exact absurd rfl (hstart.head_ne (by decide))
    · rw [ht]
      rfl

/-- The elements of a tuple end with a bracket. -/
theorem lists_elements : Lists cx ')' (elements cx) where
  stops := .inr rfl
  space := by
    intro fuel cs s
    cases fuel with
    | zero => rfl
    | succ fuel => rw [elements, elements, skip_space]
  step := by
    intro fuel cs more t s hstart ht
    rw [elements, hstart.skip_eq]
    split
    · exact absurd rfl (hstart.head_ne (by decide))
    · rw [ht]
      rfl
  last := by
    intro fuel cs more t s hstart ht
    rw [elements, hstart.skip_eq]
    split
    · exact absurd rfl (hstart.head_ne (by decide))
    · rw [ht]
      rfl

variable {cx}

/-- **A list of types is read back** if its members are, up to what closes it. -/
theorem Lists.read_listed {close : Char}
    {run : Nat → List Char → σ → Except TypeFault (List Ty × List Char × σ)}
    (hrun : Lists cx close run) {ts : List Ty} (hne : ts ≠ []) (h : ∀ t ∈ ts, Legible cx t)
    {fuel : Nat} (hfuel : 3 * (listed ts).length + 3 ≤ fuel) (rest : List Char) (s : σ) :
    run fuel (listed ts ++ close :: rest) s = .ok (ts, rest, s) := by
  -- The induction is on the types that are left; the calls that are left go with their texts.
  induction ts generalizing fuel with
  | nil => exact absurd rfl hne
  | cons t ts ih =>
      obtain ⟨fuel, rfl⟩ : ∃ n, fuel = n + 2 := ⟨fuel - 2, by omega⟩
      obtain ⟨hstart, hread⟩ := h t (.head _)
      cases ts with
      | nil =>
          rw [listed_singleton] at hfuel ⊢
          have hstop : Stops (close :: rest) := by
            rintro c ⟨⟩
            exact .inr hrun.stops
          exact hrun.last (hstart _ hstop) (hread (fuel + 1) _ s hstop (by omega))
      | cons u us =>
          rw [listed_cons_cons, List.append_assoc, List.cons_append, List.cons_append]
          rw [listed_cons_cons, List.length_append, List.length_cons, List.length_cons] at hfuel
          have hstop : Stops (',' :: ' ' :: (listed (u :: us) ++ close :: rest)) := by
            rintro c ⟨⟩
            exact .inl rfl
          rw [hrun.step (hstart _ hstop) (hread (fuel + 1) _ s hstop (by omega)), hrun.space,
            ih (by simp) (fun v hv => h v (.tail _ hv)) (by omega), ok_bind]

/-! ### One kind of type at a time -/

/-- A text that opens with a mark begins a type. -/
theorem starts_of_mark {c : Char} (hc : c = '&' ∨ c = '*' ∨ c = '(') (cs : List Char) :
    Starts (c :: cs) := by
  refine ⟨⟨c, cs, rfl, by tauto⟩, ?_⟩
  obtain rfl | rfl | rfl := hc <;> rfl

/-- The empty tuple is read back. -/
theorem Legible.unit : Legible cx Ty.unit := by
  have htext : Ty.unit.text.toList = ['(', ')'] := rfl
  refine ⟨fun rest _ => htext ▸ starts_of_mark (by simp) _, fun fuel rest s _ hfuel => ?_⟩
  rw [htext] at hfuel ⊢
  obtain ⟨fuel, rfl⟩ : ∃ n, fuel = n + 2 := ⟨fuel - 2, by simp at hfuel; omega⟩
  rfl

/-- A mark in front of a type text makes a pointer to the type. -/
theorem Legible.pointer {t : Ty} (h : Legible cx t) (make : Ty → Ty) (mark : Char)
    (marks : List Char) (hmark : mark = '&' ∨ mark = '*')
    (htext : (make t).text.toList = mark :: (marks ++ t.text.toList))
    (hstep : ∀ fuel cs s, Starts cs → type cx (fuel + 1) (mark :: (marks ++ cs)) s =
      type cx fuel cs s >>= fun x => .ok (make x.1, x.2)) : Legible cx (make t) := by
  refine ⟨fun rest _ => htext ▸ starts_of_mark (by tauto) _, fun fuel rest s hstop hfuel => ?_⟩
  rw [htext, List.length_cons, List.length_append] at hfuel
  obtain ⟨fuel, rfl⟩ : ∃ n, fuel = n + 1 := ⟨fuel - 1, by omega⟩
  rw [htext, List.cons_append, List.append_assoc, hstep fuel _ s (h.starts rest hstop),
    h.readsBack fuel rest s hstop (by omega), ok_bind]

/-- A reference is read back if its target is. -/
theorem Legible.ref {t : Ty} (h : Legible cx t) (mutable : Bool) : Legible cx (.ref mutable t) := by
  cases mutable with
  | false =>
      refine h.pointer (.ref false) '&' [] (.inl rfl) (by simp [text]) fun fuel cs s hcs => ?_
      rw [List.nil_append, type]
      simp only [show skip ('&' :: cs) = '&' :: cs from rfl, hcs.skipLifetime_eq, hcs.noMut]
  | true =>
      refine h.pointer (.ref true) '&' ['m', 'u', 't', ' '] (.inl rfl) (by simp [text])
        fun fuel cs s _ => ?_
      rw [← type_space cx fuel cs s]
      rfl

theorem Legible.rawPtr {t : Ty} (h : Legible cx t) (mutable : Bool) :
    Legible cx (.rawPtr mutable t) := by
  cases mutable with
  | false =>
      refine h.pointer (.rawPtr false) '*' ['c', 'o', 'n', 's', 't', ' '] (.inr rfl)
        (by simp [text]) fun fuel cs s _ => ?_
      rw [← type_space cx fuel cs s]
      rfl
  | true =>
      refine h.pointer (.rawPtr true) '*' ['m', 'u', 't', ' '] (.inr rfl) (by simp [text])
        fun fuel cs s _ => ?_
      rw [← type_space cx fuel cs s]
      rfl

/-- A tuple is read back if its elements are; one element takes a comma. -/
theorem Legible.tuple {ts : List Ty} (hne : ts ≠ []) (h : ∀ t ∈ ts, Legible cx t) :
    Legible cx (.tuple ts) := by
  have htext : (Ty.tuple ts).text.toList = '(' :: (listed ts ++ [')']) := by simp [text, listed]
  refine ⟨fun rest _ => htext ▸ starts_of_mark (by simp) _, fun fuel rest s _ hfuel => ?_⟩
  rw [htext, List.length_cons, List.length_append, List.length_singleton] at hfuel
  obtain ⟨fuel, rfl⟩ : ∃ n, fuel = n + 1 := ⟨fuel - 1, by omega⟩
  have hread : elements cx fuel (listed ts ++ ')' :: rest) s = .ok (ts, rest, s) :=
    (lists_elements cx).read_listed hne h (by omega) rest s
  have hproduct : product ts = .tuple ts := by simp [product, hne]
  rw [htext, List.cons_append, List.append_assoc, List.singleton_append, type]
  simp only [show ∀ cs, skip ('(' :: cs) = '(' :: cs from fun _ => rfl, hread, ok_bind, hproduct]

/-- A name, with its arguments if it has any. -/
theorem Legible.applied {t : Ty} {kind : Kind} {name : String} {ts : List Ty} (hname : IsName name)
    (htext : t.text = Ty.applied kind name (texts ts)) (h : ∀ t ∈ ts, Legible cx t)
    (hnamed : ∀ s, named cx name ts s = .ok (t, s)) : Legible cx t := by
  have hlist : t.text.toList = name.toList ++ if ts = [] then [] else '<' :: (listed ts ++ ['>']) :=
    htext ▸ toList_applied hname.nonempty kind ts
  have hlength : 0 < name.toList.length := by
    obtain ⟨c, cs, hcs, -⟩ := hname.exists_cons
    simp [hcs]
  by_cases hts : ts = []
  · subst hts
    rw [if_pos rfl, List.append_nil] at hlist
    refine ⟨fun rest hstop => hlist ▸ hname.starts hstop.not_isPath, fun fuel rest s hstop hfuel => ?_⟩
    rw [hlist] at hfuel ⊢
    obtain ⟨fuel, rfl⟩ : ∃ n, fuel = n + 2 := ⟨fuel - 2, by omega⟩
    rw [hname.type_eq cx hstop.not_isPath hstop.skip_eq, hstop.behindName_eq, hnamed, ok_bind]
  · rw [if_neg hts] at hlist
    have hangle : ∀ (cs : List Char) c, ('<' :: cs).head? = some c → isPath c = false := by
      intro cs c hc
      obtain rfl := Option.some.inj hc
      rfl
    refine ⟨fun rest _ => ?_, fun fuel rest s _ hfuel => ?_⟩
    · rw [hlist, List.append_assoc, List.cons_append]
      exact hname.starts (hangle _)
    · rw [hlist, List.length_append, List.length_cons, List.length_append] at hfuel
      obtain ⟨fuel, rfl⟩ : ∃ n, fuel = n + 2 := ⟨fuel - 2, by omega⟩
      rw [hlist, List.append_assoc, List.cons_append, List.append_assoc, List.singleton_append,
        hname.type_eq cx (hangle _) rfl, behindName, (lists_arguments cx).read_listed hts h (by omega),
        ok_bind, hnamed, ok_bind]

end Reading

end Reader

open Reader

/-! ### Every type -/

/-- The names of the integer types are taken, whatever their arguments. -/
theorem builtin?_of_mem_intNames {name : String} (h : name ∈ intNames) (ts : List Ty) :
    builtin? name ts = some (.scalar .int name) := by
  rw [builtin?, if_pos (List.contains_iff_mem.mpr h)]

/-- So are those of the containers, which keep their arguments. -/
theorem builtin?_of_mem_containers {name : String} {kind : Kind} (h : (name, kind) ∈ containers)
    (ts : List Ty) : builtin? name ts = some (.container kind name ts) := by
  simp only [containers, List.mem_cons, Prod.mk.injEq, List.not_mem_nil, or_false] at h
  obtain ⟨rfl, rfl⟩ | ⟨rfl, rfl⟩ | ⟨rfl, rfl⟩ | ⟨rfl, rfl⟩ | ⟨rfl, rfl⟩ | ⟨rfl, rfl⟩ | ⟨rfl, rfl⟩ |
    ⟨rfl, rfl⟩ | ⟨rfl, rfl⟩ := h <;> rfl

/-- No other name is. -/
theorem builtin?_eq_none_of_not_mem {name : String} (h : name ∉ builtins) (ts : List Ty) :
    builtin? name ts = none := by
  simp only [builtins, containers, List.mem_append, List.map_cons, List.map_nil, List.mem_cons,
    List.not_mem_nil, not_or] at h
  simp [builtin?, h, containerKind?]

section Whole

variable {σ : Type} {cx : Context σ} {t : Ty}

/-- A type of the language needs no declaration. -/
theorem named_of_builtin? {name : String} {ts : List Ty} (h : builtin? name ts = some t)
    (s : σ) : named cx name ts s = .ok (t, s) := by
  rw [named, h]

/-- A name that nobody declares is a type of its own. -/
theorem named_of_undeclared {name : String} {ts : List Ty} (h : builtin? name ts = none)
    (hundeclared : cx.declared name = false) (s : σ) :
    named cx name ts s = .ok (.nominal name ts, s) := by
  rw [named, h]
  simp only [hundeclared]
  rfl

/-- A name of the language that stands alone. -/
theorem legible_scalar {kind : Kind} {name : String} (hname : name ∈ builtins)
    (hbuiltin : builtin? name [] = some (.scalar kind name)) : Legible cx (.scalar kind name) :=
  .applied (isName_of_mem_builtins hname) rfl (List.forall_mem_nil _) (named_of_builtin? hbuiltin)

/-- **A type text in a longer one**: whatever follows, if it ends a type, the type is found and what
follows is left. -/
theorem Written.legible (h : Written cx.declared t) : Legible cx t := by
  -- The induction is on how the type is built; each case has its own reading step above.
  induction h with
  | unit => exact .unit
  | int h => exact legible_scalar (by simp [builtins, h]) (builtin?_of_mem_intNames h [])
  | float h =>
      simp only [List.mem_cons, List.not_mem_nil, or_false] at h
      obtain rfl | rfl := h
      · exact legible_scalar (by decide) rfl
      · exact legible_scalar (by decide) rfl
  | bool => exact legible_scalar (by decide) rfl
  | char => exact legible_scalar (by decide) rfl
  | str => exact legible_scalar (by decide) rfl
  | ref mutable _ ih => exact ih.ref mutable
  | rawPtr mutable _ ih => exact ih.rawPtr mutable
  | tuple hne _ ih => exact .tuple hne ih
  | @container name kind ts hname _ ih =>
      have hmem : name ∈ builtins := List.mem_append_right _ (List.mem_map_of_mem hname)
      exact .applied (isName_of_mem_builtins hmem) rfl ih
        (named_of_builtin? (builtin?_of_mem_containers hname _))
  | nominal hname hfree hundeclared _ ih =>
      exact .applied hname rfl ih
        (named_of_undeclared (builtin?_eq_none_of_not_mem hfree _) hundeclared)

/-- **A type text alone** is read to its end. -/
theorem Written.whole_text {declared : String → Bool} (h : t.Written declared) (enter : Enter σ)
    (s : σ) : whole declared enter t.text s = .ok (t, s) := by
  let cx : Context σ := { text := t.text, size := t.text.length, declared, enter }
  have hlegible : Legible cx t := Written.legible h
  have hread := hlegible.readsBack (3 * t.text.length + 3) [] s (by simp [Stops])
    (by rw [String.length_toList]; omega)
  rw [List.append_nil] at hread
  change type cx (3 * t.text.length + 3) t.text.toList s >>= _ = _
  rw [hread]
  rfl

end Whole

/-- **A type is what its text is read as**, over a declaration table that declares none of its names;
nothing is entered on the way. -/
theorem read_text (table : Table) {t : Ty} (h : t.Written (declaredIn table)) (s : Entered) :
    Ty.read table (.str t.text) s = .ok (t, s) :=
  h.whole_text _ s

/-- A type with a name that begins like a keyword, a tuple of one, and brackets that close together. -/
def guarded : Ty :=
  .ref false (.ref true (.tuple [.container .box "Box"
    [.nominal "mutex" [.scalar .int "u8", .tuple [.unit]]], .rawPtr false (.container .vec "Vec" [])]))

/-- References, tuples and arguments inside one another. -/
theorem guarded_read_back :
    guarded.Written (declaredIn []) ∧ guarded.text = "&&mut (Box<mutex<u8, (())>>, *const Vec)" ∧
      Ty.read [] (.str guarded.text) .none = .ok (guarded, .none) := by
  have hname : IsName "mutex" := isName_of_isAsciiName rfl
  have hmutex : Written (declaredIn []) (.nominal "mutex" [.scalar .int "u8", .tuple [.unit]]) := by
    refine .nominal hname (by decide) rfl (List.forall_mem_cons.mpr ⟨.int (by decide), ?_⟩)
    exact List.forall_mem_singleton.mpr (.tuple (by simp) (List.forall_mem_singleton.mpr .unit))
  have hguarded : guarded.Written (declaredIn []) := by
    refine .ref false (.ref true (.tuple (by simp) (List.forall_mem_cons.mpr ⟨?_, ?_⟩)))
    · exact .container (by decide) (List.forall_mem_singleton.mpr hmutex)
    · exact List.forall_mem_singleton.mpr (.rawPtr false (.container (by decide) (by simp)))
  exact ⟨hguarded, rfl, read_text [] hguarded .none⟩

end Dangling.Ty
