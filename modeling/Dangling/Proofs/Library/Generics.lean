import Dangling.Library.Standard
import Dangling.Mir.Program
import Dangling.Proofs.Text.Blank

/-!
# Proofs — Library — Generics

A callee path with generic arguments, against the path without them.  Generic arguments are erased by
counting angle brackets, and the brackets of a type pair up, except for the `>` of an arrow.  Every
arrow closes a bracket too early, and leaves one `>` in the path; without arrows nothing is left.

* `Generics`: the texts of generic arguments, by their brackets and arrows.
* `Segment`, `instantiated`, `plain`: paths with such arguments, and without.
* `normalizeChars_instantiated`: without arrows, the plain path is what remains.
* `count_le_eraseGenerics`: brackets that close nothing remain.
* `generics_do_not_decide`: what a callee with generic arguments names.
-/

namespace Dangling.Callee

/-! ### Paths with generic arguments -/

/-- An angle bracket. -/
def isAngle (c : Char) : Bool := c == '<' || c == '>'

/-- The text between the brackets of generic arguments: words without angle brackets, the arrows of
function types, and texts in brackets of their own.  Every type is such a text. -/
inductive Generics where
  | done
  | word (cs : List Char) (plain : cs.all (fun c => !isAngle c) = true) (rest : Generics)
  | arrow (rest : Generics)
  | group (inner rest : Generics)

namespace Generics

def text : Generics → List Char
  | .done => []
  | .word cs _ rest => cs ++ rest.text
  | .arrow rest => '-' :: '>' :: rest.text
  | .group inner rest => '<' :: (inner.text ++ '>' :: rest.text)

/-- How many arrows the text has. -/
def arrows : Generics → Nat
  | .done => 0
  | .word _ _ rest => rest.arrows
  | .arrow rest => rest.arrows + 1
  | .group inner rest => inner.arrows + rest.arrows

end Generics

/-- A segment of a path, with generic arguments or without. -/
structure Segment where
  name : List Char
  args : Option Generics
  nonempty : name.isEmpty = false
  plain : name.all (fun c => !isAngle c && c != ':' && !Text.isBlank c) = true

namespace Segment

/-- The segment as it is written, with its arguments. -/
def text (s : Segment) : List Char :=
  s.name ++ s.args.elim [] fun g => ':' :: ':' :: '<' :: (g.text ++ ['>'])

/-- How many arrows the arguments have. -/
def arrows (s : Segment) : Nat := s.args.elim 0 Generics.arrows

/-- The segment without its arguments. -/
def bare (s : Segment) : Segment := { s with args := none }

/-- What is left of a segment when its arguments are erased: the separator before them stays. -/
def erased (s : Segment) : List Char := s.name ++ s.args.elim [] fun _ => [':', ':']

theorem name_ne_nil (s : Segment) : s.name ≠ [] := by simpa using s.nonempty

/-- The name of a segment has no angles, colons or blanks. -/
theorem plain_of_mem {s : Segment} {c : Char} (hc : c ∈ s.name) :
    isAngle c = false ∧ c ≠ ':' ∧ Text.isBlank c = false := by
  have hplain := List.all_eq_true.mp s.plain c hc
  simp only [Bool.and_eq_true, Bool.not_eq_true', bne_iff_ne, ne_eq] at hplain
  exact ⟨hplain.1.1, hplain.1.2, hplain.2⟩

end Segment

/-- A path with the generic arguments of its segments. -/
def instantiated (ss : List Segment) : String := join (ss.map Segment.text)

/-- The path of the segments alone. -/
def plain (ss : List Segment) : String := join (ss.map Segment.name)

/-! ### Joined segments -/

section Join

variable (f : Segment → List Char) (s t : Segment) (ss : List Segment)

theorem toList_join_singleton : (join ([s].map f)).toList = f s := by
  simp [join]

/-- Segments are written with two colons between them. -/
theorem toList_join_cons : (join ((s :: t :: ss).map f)).toList =
    f s ++ ':' :: ':' :: (join ((t :: ss).map f)).toList := by
  simp [join, String.intercalate_cons_cons]

/-- A letter of a path is a colon or stands in a segment. -/
theorem mem_join {f : Segment → List Char} {ss : List Segment} {c : Char}
    (hc : c ∈ (join (ss.map f)).toList) : c = ':' ∨ ∃ s ∈ ss, c ∈ f s := by
  induction ss with
  | nil => exact absurd hc List.not_mem_nil
  | cons s ss ih =>
      cases ss with
      | nil =>
          rw [toList_join_singleton] at hc
          exact .inr ⟨s, .head _, hc⟩
      | cons t ss =>
          rw [toList_join_cons, List.mem_append, List.mem_cons, List.mem_cons] at hc
          rcases hc with hc | hc | hc | hc
          · exact .inr ⟨s, .head _, hc⟩
          · exact .inl hc
          · exact .inl hc
          · refine (ih hc).imp_right ?_
            rintro ⟨u, hu, hcu⟩
            exact ⟨u, .tail _ hu, hcu⟩

end Join

/-! ### Erasing brackets -/

section Erase

/-- A character outside every bracket stays, a bracket that closes nothing too. -/
theorem eraseGenerics_outside {c : Char} (hc : c ≠ '<') (rest : List Char) :
    eraseGenerics 0 (c :: rest) = c :: eraseGenerics 0 rest := by
  rw [eraseGenerics.eq_def]
  split <;> simp_all

theorem eraseGenerics_cons {c : Char} (hc : isAngle c = false) (rest : List Char) :
    eraseGenerics 0 (c :: rest) = c :: eraseGenerics 0 rest :=
  eraseGenerics_outside (by rintro rfl; cases hc) rest

/-- Outside of angles every letter is kept. -/
theorem eraseGenerics_append {cs : List Char} (hcs : ∀ c ∈ cs, isAngle c = false)
    (rest : List Char) : eraseGenerics 0 (cs ++ rest) = cs ++ eraseGenerics 0 rest := by
  induction cs with
  | nil => rfl
  | cons c cs ih =>
      rw [List.cons_append, eraseGenerics_cons (hcs c (.head _)), ih fun d hd => hcs d (.tail _ hd)]
      rfl

/-- A character inside a bracket goes. -/
theorem eraseGenerics_inside {c : Char} (hc : isAngle c = false) (depth : Nat) (rest : List Char) :
    eraseGenerics (depth + 1) (c :: rest) = eraseGenerics (depth + 1) rest := by
  rw [eraseGenerics.eq_def]
  split <;> simp_all [isAngle]

/-- Inside of angles no letter is kept. -/
theorem eraseGenerics_word {cs : List Char} (hcs : ∀ c ∈ cs, isAngle c = false) (depth : Nat)
    (rest : List Char) : eraseGenerics (depth + 1) (cs ++ rest) = eraseGenerics (depth + 1) rest := by
  induction cs with
  | nil => rfl
  | cons c cs ih =>
      rw [List.cons_append, eraseGenerics_inside (hcs c (.head _)), ih fun d hd => hcs d (.tail _ hd)]

/-- Arguments without arrows go, at any depth. -/
theorem eraseGenerics_text {g : Generics} (hg : g.arrows = 0) (depth : Nat) (rest : List Char) :
    eraseGenerics (depth + 1) (g.text ++ rest) = eraseGenerics (depth + 1) rest := by
  induction g generalizing depth rest with
  | done => rfl
  | word cs hcs more ih =>
      have hplain : ∀ c ∈ cs, isAngle c = false := by simpa using hcs
      rw [Generics.text, List.append_assoc, eraseGenerics_word hplain, ih hg]
  | arrow more => cases hg
  | group inner more ihinner ihmore =>
      obtain ⟨hinner, hmore⟩ := Nat.add_eq_zero_iff.mp hg
      have hopen : ∀ cs, eraseGenerics (depth + 1) ('<' :: cs) = eraseGenerics (depth + 2) cs :=
        fun _ => by rw [eraseGenerics]
      have hclose : ∀ cs, eraseGenerics (depth + 2) ('>' :: cs) = eraseGenerics (depth + 1) cs :=
        fun _ => by rw [eraseGenerics]
      rw [Generics.text, List.cons_append, List.append_assoc, hopen, ihinner hinner, List.cons_append,
        hclose, ihmore hmore]

/-- From a segment without arrows exactly its arguments go. -/
theorem Segment.eraseGenerics_text {s : Segment} (hs : s.arrows = 0) (rest : List Char) :
    eraseGenerics 0 (s.text ++ rest) = s.erased ++ eraseGenerics 0 rest := by
  rw [Segment.text, Segment.erased, List.append_assoc, List.append_assoc,
    eraseGenerics_append fun c hc => (s.plain_of_mem hc).1]
  cases hargs : s.args with
  | none => rfl
  | some g =>
      have hg : g.arrows = 0 := by simpa [arrows, hargs] using hs
      have hopen : ∀ cs, eraseGenerics 0 ('<' :: cs) = eraseGenerics 1 cs :=
        fun _ => by rw [eraseGenerics]
      have hclose : ∀ cs, eraseGenerics 1 ('>' :: cs) = eraseGenerics 0 cs :=
        fun _ => by rw [eraseGenerics]
      simp only [Option.elim_some, List.cons_append, List.append_assoc, List.nil_append]
      rw [eraseGenerics_cons rfl, eraseGenerics_cons rfl, hopen, Callee.eraseGenerics_text hg, hclose]

/-- By induction on the segments: from a path the arguments of each go. -/
theorem eraseGenerics_instantiated {ss : List Segment} (hss : ∀ s ∈ ss, s.arrows = 0) :
    eraseGenerics 0 (instantiated ss).toList = (join (ss.map Segment.erased)).toList := by
  rw [instantiated]
  induction ss with
  | nil => rfl
  | cons s ss ih =>
      have hs := hss s (.head _)
      cases ss with
      | nil =>
          have htext := Segment.eraseGenerics_text hs []
          rw [List.append_nil] at htext
          rw [toList_join_singleton, toList_join_singleton, htext]
          exact List.append_nil _
      | cons t ss =>
          rw [toList_join_cons, toList_join_cons, Segment.eraseGenerics_text hs,
            eraseGenerics_cons rfl, eraseGenerics_cons rfl, ih fun s hs => hss s (.tail _ hs)]

end Erase

/-! ### Separators -/

section Separators

/-- A letter that is no colon ends a run of colons. -/
theorem collapse_cons {c : Char} (hc : c ≠ ':') (inRun : Bool) (rest : List Char) :
    collapse inRun (c :: rest) = c :: collapse false rest := by
  rw [collapse.eq_def]
  split <;> simp_all

/-- The name of a segment ends a run of separators. -/
theorem Segment.collapse_name (s : Segment) (inRun : Bool) (rest : List Char) :
    collapse inRun (s.name ++ rest) = s.name ++ collapse false rest := by
  have hname : ∀ (cs : List Char) (inRun : Bool), cs ≠ [] → (∀ c ∈ cs, c ≠ ':') →
      collapse inRun (cs ++ rest) = cs ++ collapse false rest := by
    intro cs
    induction cs with
    | nil => exact fun _ hne => absurd rfl hne
    | cons c cs ih =>
        intro inRun _ hcolon
        rw [List.cons_append, collapse_cons (hcolon c (.head _))]
        cases cs with
        | nil => rfl
        | cons d cs => rw [ih false (by simp) fun e he => hcolon e (.tail _ he)]; rfl
  exact hname s.name inRun s.name_ne_nil fun c hc => (s.plain_of_mem hc).2.1

/-- The separator that the arguments of the last segment leave. -/
def danglingSeparator (ss : List Segment) : List Char :=
  (ss.getLast?.bind Segment.args).elim [] fun _ => [':', ':']

/-- Each run of separators becomes one. -/
theorem collapse_erased (inRun : Bool) {ss : List Segment} (hss : ss ≠ []) :
    collapse inRun (join (ss.map Segment.erased)).toList =
      (plain ss).toList ++ danglingSeparator ss := by
  rw [plain]
  induction ss generalizing inRun with
  | nil => exact absurd rfl hss
  | cons s ss ih =>
      cases ss with
      | nil =>
          rw [toList_join_singleton, toList_join_singleton, Segment.erased, s.collapse_name,
            danglingSeparator]
          cases hargs : s.args with
          | none => simp [hargs, collapse]
          | some g => simp [hargs, collapse]
      | cons t ss =>
          have hrun : ∀ rest, collapse false ((s.args.elim [] fun _ => [':', ':']) ++
              ':' :: ':' :: rest) = ':' :: ':' :: collapse true rest := by
            cases s.args with
            | none => simp [collapse]
            | some g => simp [collapse]
          rw [toList_join_cons, toList_join_cons, Segment.erased, List.append_assoc, s.collapse_name,
            hrun, ih true (by simp)]
          simp [danglingSeparator]

end Separators

/-! ### Paths without arrows -/

section Plain

@[simp] theorem Segment.text_bare (s : Segment) : s.bare.text = s.name := List.append_nil s.name

/-- A path without arguments is a path whose segments have none. -/
theorem plain_eq (ss : List Segment) : plain ss = instantiated (ss.map Segment.bare) := by
  simp [plain, instantiated, Function.comp_def]

/-- A path starts with the name of its first segment. -/
theorem exists_toList_instantiated (s : Segment) (ss : List Segment) :
    ∃ rest, (instantiated (s :: ss)).toList = s.name ++ rest := by
  rw [instantiated]
  cases ss with
  | nil => exact ⟨_, toList_join_singleton Segment.text s⟩
  | cons t ss =>
      rw [toList_join_cons, Segment.text, List.append_assoc]
      exact ⟨_, rfl⟩

/-- A path starts with the first letter of a name. -/
theorem head_instantiated {ss : List Segment} {c : Char}
    (hc : (instantiated ss).toList.head? = some c) :
    isAngle c = false ∧ c ≠ ':' ∧ Text.isBlank c = false := by
  cases ss with
  | nil => cases hc
  | cons s ss =>
      obtain ⟨rest, hrest⟩ := exists_toList_instantiated s ss
      rw [hrest, List.head?_append_of_ne_nil _ s.name_ne_nil] at hc
      exact s.plain_of_mem (List.mem_of_head? hc)

/-- A segment ends with a letter of its name or an angle. -/
theorem Segment.last_text {s : Segment} {c : Char} (hc : s.text.getLast? = some c) :
    c ≠ ':' ∧ Text.isBlank c = false := by
  rw [Segment.text] at hc
  cases hargs : s.args with
  | none =>
      rw [hargs, Option.elim_none, List.append_nil] at hc
      exact (s.plain_of_mem (List.mem_of_getLast? hc)).2
  | some g =>
      rw [hargs, Option.elim_some, List.getLast?_append_of_ne_nil _ (by simp),
        ← List.cons_append, ← List.cons_append, ← List.cons_append, List.getLast?_concat] at hc
      obtain rfl := Option.some.inj hc
      exact ⟨by decide, rfl⟩

/-- A path ends with a name or a bracket. -/
theorem last_instantiated {ss : List Segment} {c : Char}
    (hc : (instantiated ss).toList.getLast? = some c) : c ≠ ':' ∧ Text.isBlank c = false := by
  induction ss with
  | nil => cases hc
  | cons s ss ih =>
      rw [instantiated] at hc
      cases ss with
      | nil => exact s.last_text (toList_join_singleton Segment.text s ▸ hc)
      | cons t ss =>
          obtain ⟨rest, hrest⟩ := exists_toList_instantiated t ss
          have hne : (instantiated (t :: ss)).toList ≠ [] := by
            rw [hrest]
            exact List.append_ne_nil_of_left_ne_nil t.name_ne_nil rest
          rw [toList_join_cons, ← instantiated, List.append_cons, List.append_cons,
            List.getLast?_append_of_ne_nil _ hne] at hc
          exact ih hc

/-- So there is nothing to strip. -/
theorem strip_instantiated (ss : List Segment) :
    strip (instantiated ss).toList = (instantiated ss).toList :=
  Text.Tight.trim_eq
    ⟨fun _ hc => (head_instantiated hc).2.2, fun _ hc => (last_instantiated hc).2⟩

/-- A path that does not start with a bracket has no qualification. -/
theorem resolveQualified_eq_self {cs : List Char} (h : cs.head? ≠ some '<') :
    resolveQualified cs = cs := by
  rw [resolveQualified.eq_def]
  split
  · exact absurd rfl h
  · rfl

/-- A path does not start with an angle, so it is not a qualified one. -/
theorem resolveQualified_instantiated (ss : List Segment) :
    resolveQualified (instantiated ss).toList = (instantiated ss).toList :=
  resolveQualified_eq_self fun hc => by cases (head_instantiated hc).1

/-- Blanks stand in arguments only. -/
theorem not_blank_of_mem_erased {ss : List Segment} {c : Char}
    (hc : c ∈ (join (ss.map Segment.erased)).toList) : Text.isBlank c = false := by
  rcases mem_join hc with rfl | ⟨s, -, hcs⟩
  · rfl
  · rcases List.mem_append.mp hcs with hname | hseparator
    · exact (s.plain_of_mem hname).2.2
    · cases hargs : s.args with
      | none => simp [hargs] at hseparator
      | some g =>
          obtain rfl : c = ':' := by simpa [hargs] using hseparator
          rfl

/-- **Without arrows, the plain path is what remains.** -/
theorem normalizeChars_instantiated {ss : List Segment} (hss : ∀ s ∈ ss, s.arrows = 0) :
    normalizeChars (instantiated ss).toList = (plain ss).toList := by
  cases hcases : ss with
  | nil => rfl
  | cons s rest =>
      rw [← hcases]
      have hfilter : (join (ss.map Segment.erased)).toList.filter (· != ' ') =
          (join (ss.map Segment.erased)).toList := by
        refine List.filter_eq_self.mpr fun c hc => ?_
        have hblank := not_blank_of_mem_erased hc
        rw [bne_iff_ne]
        rintro rfl
        cases hblank
      rw [normalizeChars, strip_instantiated, resolveQualified_instantiated,
        eraseGenerics_instantiated hss, hfilter, collapse_erased false (by simp [hcases])]
      refine Text.trim_append (fun c hc => ?_) (fun c hc => ?_) fun c hc => ?_
      · rw [plain_eq] at hc
        simpa using (head_instantiated hc).2.1
      · rw [plain_eq] at hc
        simpa using (last_instantiated hc).1
      · rw [danglingSeparator] at hc
        cases hargs : ss.getLast?.bind Segment.args with
        | none => simp [hargs] at hc
        | some g => simpa [hargs] using hc

end Plain

/-! ### Paths with arrows -/

section Arrows

/-- Brackets that close nothing stay. -/
theorem count_le_eraseGenerics (depth : Nat) (cs : List Char) :
    cs.count '>' ≤ (eraseGenerics depth cs).count '>' + depth + cs.count '<' := by
  fun_induction eraseGenerics depth cs with
  | case1 => simp
  | case2 depth rest ih => simp; omega
  | case3 depth rest ih => simp; omega
  | case4 c rest hopen ih =>
      rw [List.count_cons, List.count_cons, List.count_cons]
      omega
  | case5 depth c rest hopen hclose ih =>
      have hne : c ≠ '>' := hclose
      rw [List.count_cons_of_ne hne, List.count_cons]
      omega

/-- Of the closing angles of an argument list, those of arrows have no partner. -/
theorem Generics.count_text (g : Generics) : g.text.count '>' = g.text.count '<' + g.arrows := by
  induction g with
  | done => rfl
  | word cs hcs rest ih =>
      have hplain : ∀ c ∈ cs, isAngle c = false := by simpa using hcs
      have hopen : cs.count '<' = 0 := List.count_eq_zero.mpr fun h => by cases hplain _ h
      have hclose : cs.count '>' = 0 := List.count_eq_zero.mpr fun h => by cases hplain _ h
      rw [text, arrows, List.count_append, List.count_append, ih, hopen, hclose]
      omega
  | arrow rest ih =>
      simp only [text, arrows]
      simp [ih]
      omega
  | group inner rest ihinner ihrest =>
      simp only [text, arrows]
      simp [ihinner, ihrest]
      omega

/-- The same for a segment. -/
theorem Segment.count_text (s : Segment) : s.text.count '>' = s.text.count '<' + s.arrows := by
  have hopen : s.name.count '<' = 0 :=
    List.count_eq_zero.mpr fun h => by cases (s.plain_of_mem h).1
  have hclose : s.name.count '>' = 0 :=
    List.count_eq_zero.mpr fun h => by cases (s.plain_of_mem h).1
  rw [text, arrows, List.count_append, List.count_append, hopen, hclose]
  cases s.args with
  | none => rfl
  | some g =>
      simp [g.count_text]
      omega

/-- Arrows close what nothing opened. -/
theorem count_instantiated (ss : List Segment) :
    (instantiated ss).toList.count '<' ≤ (instantiated ss).toList.count '>' ∧
      ((∃ s ∈ ss, s.arrows ≠ 0) →
        (instantiated ss).toList.count '<' < (instantiated ss).toList.count '>') := by
  rw [instantiated]
  induction ss with
  | nil => exact ⟨Nat.le_refl 0, by simp⟩
  | cons s ss ih =>
      have hs := s.count_text
      cases ss with
      | nil =>
          rw [toList_join_singleton, hs]
          refine ⟨by omega, ?_⟩
          rintro ⟨u, hu, harrows⟩
          obtain rfl := List.mem_singleton.mp hu
          omega
      | cons t ss =>
          obtain ⟨hle, hlt⟩ := ih
          have hcount : ∀ c rest, c ≠ ':' →
              (s.text ++ ':' :: ':' :: rest).count c = s.text.count c + rest.count c := by
            intro c rest hc
            rw [List.count_append, List.count_cons_of_ne hc.symm, List.count_cons_of_ne hc.symm]
          rw [toList_join_cons, hcount '<' _ (by decide), hcount '>' _ (by decide), hs]
          refine ⟨by omega, ?_⟩
          rintro ⟨u, hu, harrows⟩
          obtain rfl | hu := List.mem_cons.mp hu
          · omega
          · have := hlt ⟨u, hu, harrows⟩
            omega

/-- Only colons are lost in a run. -/
theorem mem_collapse {c : Char} (hc : c ≠ ':') {inRun : Bool} {cs : List Char} (hcs : c ∈ cs) :
    c ∈ collapse inRun cs := by
  fun_induction collapse inRun cs with
  | case1 rest ih => simp_all
  | case2 rest ih => simp_all
  | case3 inRun d rest h₁ h₂ ih =>
      obtain rfl | hcs := List.mem_cons.mp hcs
      · exact .head _
      · exact .tail _ (ih hcs)
  | case4 => exact hcs

/-- Only what is trimmed is lost at the ends. -/
theorem mem_trim {p : Char → Bool} {c : Char} (hc : p c = false) {cs : List Char} (hcs : c ∈ cs) :
    c ∈ Text.trim p cs := by
  have hdrop : ∀ {ds : List Char}, c ∈ ds → c ∈ ds.dropWhile p := by
    intro ds hds
    rw [← List.takeWhile_append_dropWhile (p := p) (l := ds), List.mem_append] at hds
    rcases hds with hds | hds
    · have := List.mem_takeWhile_imp hds
      simp_all
    · exact hds
  rw [Text.trim, Text.trimEnd, List.mem_reverse]
  exact hdrop (List.mem_reverse.mpr (hdrop hcs))

/-- **An arrow leaves a bracket in the path.** -/
theorem mem_normalizeChars_of_arrow {ss : List Segment} (hss : ∃ s ∈ ss, s.arrows ≠ 0) :
    '>' ∈ normalizeChars (instantiated ss).toList := by
  have hcount := count_le_eraseGenerics 0 (instantiated ss).toList
  have hlt := (count_instantiated ss).2 hss
  have hmem : '>' ∈ eraseGenerics 0 (instantiated ss).toList := by
    rw [← List.count_pos_iff]
    omega
  rw [normalizeChars, strip_instantiated, resolveQualified_instantiated]
  refine mem_trim rfl (mem_collapse (by decide) ?_)
  exact List.mem_filter.mpr ⟨hmem, rfl⟩

/-- A path without arguments has no closing angle. -/
theorem not_mem_plain (ss : List Segment) : '>' ∉ (plain ss).toList := by
  intro hmem
  rcases mem_join hmem with hcolon | ⟨s, -, hs⟩
  · cases hcolon
  · cases (s.plain_of_mem hs).1

end Arrows

/-! ### What a callee names -/

section Callees

/-- It is in normal form. -/
theorem normalizeChars_plain (ss : List Segment) :
    normalizeChars (plain ss).toList = (plain ss).toList := by
  have hbare : ∀ s ∈ ss.map Segment.bare, s.arrows = 0 := by
    intro s hs
    obtain ⟨s, -, rfl⟩ := List.mem_map.mp hs
    rfl
  have hplain : plain (ss.map Segment.bare) = plain ss := by
    simp [plain, Function.comp_def, Segment.bare]
  rw [plain_eq, normalizeChars_instantiated hbare, hplain, plain_eq]

theorem normalize_plain (ss : List Segment) : normalize (plain ss) = plain ss := by
  rw [normalize, normalizeChars_plain, String.ofList_toList]

/-- **Arguments are erased exactly where no arrow stands among them.** -/
theorem normalize_instantiated_iff (ss : List Segment) :
    normalize (instantiated ss) = plain ss ↔ ∀ s ∈ ss, s.arrows = 0 := by
  constructor
  · intro h s hs
    by_contra harrows
    refine not_mem_plain ss ?_
    rw [← h, normalize, String.toList_ofList]
    exact mem_normalizeChars_of_arrow ⟨s, hs, harrows⟩
  · intro h
    rw [normalize, normalizeChars_instantiated h, String.ofList_toList]

/-- So a model is found for every choice of arguments. -/
theorem lookup_instantiated {ss : List Segment} (hss : ∀ s ∈ ss, s.arrows = 0) (lib : Library) :
    lib.lookup (instantiated ss) = lib.lookup (plain ss) := by
  rw [Library.lookup, normalizeChars_instantiated hss, Library.lookup, normalizeChars_plain]

/-- A plain path names a function of the program by itself. -/
theorem resolve_plain (p : Program) (ss : List Segment) : p.resolve (plain ss) = p.body? (plain ss) := by
  rw [Program.resolve, normalize_plain]
  cases p.body? (plain ss) <;> rfl

/-- A function that is named by the path with its arguments comes first; there is none else that
the arguments decide about. -/
theorem resolve_instantiated {ss : List Segment} (hss : ∀ s ∈ ss, s.arrows = 0) (p : Program) :
    p.resolve (instantiated ss) = (p.body? (instantiated ss)).or (p.resolve (plain ss)) := by
  rw [Program.resolve, (normalize_instantiated_iff ss).mpr hss, resolve_plain]
  cases p.body? (instantiated ss) <;> rfl

/-- **Generic arguments do not decide which callee is meant, but for arrows.**  A path with generic
arguments is reduced to the plain path exactly if no argument has an arrow.  Then

* it has the same library model as the plain path;
* it names the same function of a program, exactly if none is named by the very text of the path
  with its arguments (or the path has none), and then it has the same model there. -/
theorem generics_do_not_decide (ss : List Segment) :
    (normalize (instantiated ss) = plain ss ↔ ∀ s ∈ ss, s.arrows = 0) ∧
    ((∀ s ∈ ss, s.arrows = 0) →
      (∀ lib : Library, lib.lookup (instantiated ss) = lib.lookup (plain ss)) ∧
      ∀ p : Program,
        (p.resolve (instantiated ss) = p.resolve (plain ss) ↔
          p.hasBody (instantiated ss) = false ∨ instantiated ss = plain ss) ∧
        (p.hasBody (instantiated ss) = false →
          p.model? (instantiated ss) = p.model? (plain ss))) := by
  refine ⟨normalize_instantiated_iff ss, fun hss => ⟨lookup_instantiated hss, fun p => ?_⟩⟩
  have hresolve := resolve_instantiated hss p
  cases hbody : p.body? (instantiated ss) with
  | none =>
      have hnone : p.hasBody (instantiated ss) = false := by rw [Program.hasBody, hbody]; rfl
      have hsame : p.resolve (instantiated ss) = p.resolve (plain ss) := by
        rw [hresolve, hbody]
        rfl
      refine ⟨iff_of_true hsame (.inl hnone), fun _ => ?_⟩
      rw [Program.model?, Program.model?, hsame, lookup_instantiated hss]
  | some b =>
      have hsome : p.hasBody (instantiated ss) = true := by rw [Program.hasBody, hbody]; rfl
      refine ⟨⟨fun hsame => .inr ?_, fun h => ?_⟩, fun h => by rw [hsome] at h; cases h⟩
      · -- the two functions are one, so their names are
        have hplain : p.body? (plain ss) = some b := by
          rw [← resolve_plain, ← hsame, hresolve, hbody]
          rfl
        have hname := List.find?_some hbody
        have hname' := List.find?_some hplain
        exact (beq_iff_eq.mp hname).symm.trans (beq_iff_eq.mp hname')
      · rcases h with h | h
        · rw [hsome] at h
          cases h
        · rw [h]

/-- The path `Vec::from_raw_parts` of the standard library, with arguments for `Vec`. -/
def rebuilt (args : Option Generics) : List Segment :=
  [⟨"std".toList, none, rfl, rfl⟩, ⟨"vec".toList, none, rfl, rfl⟩, ⟨"Vec".toList, args, rfl, rfl⟩,
    ⟨"from_raw_parts".toList, none, rfl, rfl⟩]

/-- `Box<[u8; 4]>` -/
def boxedBytes : Generics :=
  .word "Box".toList rfl (.group (.word "[u8; 4]".toList rfl .done) .done)

/-- `fn(u8) -> u8` -/
def byteFunction : Generics :=
  .word "fn(u8) ".toList rfl (.arrow (.word " u8".toList rfl .done))

/-- Nested arguments cost a callee nothing: it keeps the model that rebuilds a vector. -/
theorem boxedBytes_keeps_model :
    instantiated (rebuilt (some boxedBytes)) = "std::vec::Vec::<Box<[u8; 4]>>::from_raw_parts" ∧
      (∀ s ∈ rebuilt (some boxedBytes), s.arrows = 0) ∧
      (Library.standard.lookup (instantiated (rebuilt (some boxedBytes)))).isSome = true := by
  have harrows : ∀ s ∈ rebuilt (some boxedBytes), s.arrows = 0 := by
    simp [rebuilt, Segment.arrows, boxedBytes, Generics.arrows]
  refine ⟨by decide +kernel, harrows, ?_⟩
  rw [((generics_do_not_decide _).2 harrows).1]
  decide +kernel

/-- The arrow of a function type costs a callee its model: a piece of the type stays in its path. -/
theorem byteFunction_loses_model :
    instantiated (rebuilt (some byteFunction)) = "std::vec::Vec::<fn(u8) -> u8>::from_raw_parts" ∧
      plain (rebuilt (some byteFunction)) = "std::vec::Vec::from_raw_parts" ∧
      normalize "std::vec::Vec::<fn(u8) -> u8>::from_raw_parts" =
        "std::vec::Vec::u8>::from_raw_parts" ∧
      Library.standard.lookup "std::vec::Vec::<fn(u8) -> u8>::from_raw_parts" = none ∧
      (Library.standard.lookup "std::vec::Vec::from_raw_parts").isSome = true := by
  decide +kernel

end Callees

end Dangling.Callee
