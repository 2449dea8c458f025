import Dangling.Proofs.Analysis.Nesting
import Dangling.Proofs.Analysis.WalkedCalls

/-!
# Proofs — Analysis — Stack

The functions that are being analysed, as a stack, and what a session keeps meanwhile.  If the depth
of calls is not limited, the stack and the session are in order (`Orderly`): each function on the
stack was entered from the one below it by walked calls, the head of its call cycle is on the stack
or has a report already, and a function that has a report has asked for reports on all its walked
calls.

* `Tidy`: what a session keeps in any case, with or without such a limit.
* `steady`: an analysis leaves things in order and keeps a report on its function.
* `Steady.request`: so does a request inside an analysis, which may enter a cycle at its head.
-/

namespace Dangling

/-- The session keeps a report on the function. -/
def Session.Kept (s : Session) (f : String) : Prop := ∃ r, s.cache.report? f = some r

/-- Two sessions keep the same reports and summaries. -/
structure Session.Like (s s' : Session) : Prop where
  report : ∀ f, s'.cache.report? f = s.cache.report? f
  summary : ∀ f, s'.cache.summary? f = s.cache.summary? f

theorem Session.Like.refl (s : Session) : s.Like s := ⟨fun _ => rfl, fun _ => rfl⟩

/-- A line in the log makes no difference. -/
theorem Session.like_note (s : Session) (line : String) : s.Like (s.note line) :=
  ⟨fun _ => rfl, fun _ => rfl⟩

theorem Session.Like.kept {s s' : Session} (h : s.Like s') {f : String} : s'.Kept f ↔ s.Kept f := by
  rw [Kept, Kept, h.report]

/-- Calls lead from `f` to `g`, and walked calls do if calls also lead back. -/
def Program.Enters (p : Program) (cfg : Config) (f g : String) : Prop :=
  p.Reaches f g ∧ (p.Reaches g f → p.Leads cfg f g)

/-- A call that is walked to is one step. -/
theorem Program.Walks.enters {p : Program} {cfg : Config} {f g : String} (h : p.Walks cfg f g) :
    p.Enters cfg f g :=
  ⟨.single h.calls, fun _ => .single h⟩

/-- One more step. -/
theorem Program.Enters.walks {p : Program} {cfg : Config} {f g k : String} (h : p.Enters cfg f g)
    (hw : p.Walks cfg g k) : p.Enters cfg f k :=
  ⟨h.1.tail hw.calls, fun hk => (h.2 (.head hw.calls hk)).tail hw⟩

namespace Analyzer

/-- The nesting of a stack of functions, each called by the one below it. -/
def nest (S : List String) : Nesting := ⟨S, S.length⟩

/-- The analysis of a function with all its fuel. -/
@[irreducible] def step (a : Analyzer) : Step Session := a.analyze a.fuel

/-- The report of a function, which is analysed from the head of its cycle if there is none. -/
@[irreducible] def request (a : Analyzer) : Step Session := reported (a.fromHead a.step)

variable {p : Program} {cfg : Config} {S : List String} {s s' : Session} {f g : String} {r : Report}
  {b : Body}

/-- Nor do the counts of the cache. -/
theorem like_asked (s : Session) (f : String) : s.Like (asked s f) :=
  ⟨report?_asked s f, summary?_asked s f⟩

/-- A function that is analysed comes on top of the stack. -/
theorem push_nest (S : List String) (f : String) : (nest S).push f = nest (f :: S) := by
  simp [nest, Nesting.push]

/-- A request from outside is one at the empty stack. -/
theorem function_eq_request (a : Analyzer) (hf : a.program.hasBody f = true) (s : Session) :
    a.function f s = a.request (nest []) f s := by
  rw [function, session_self, request, reported_eq, step]
  cases s.cache.report? f with
  | some r => rfl
  | none => exact if_pos hf

/-! ### One step -/

/-- Different functions of the program on the stack leave enough fuel. -/
theorem fits_nest (p : Program) (cfg : Config) (hn : S.Nodup) (hb : ∀ g ∈ S, p.hasBody g = true) :
    (nest S).Fits p (Analyzer.new p cfg).fuel :=
  ⟨hn, hb, Nat.lt_add_right _ (Nat.lt_succ_self _)⟩

/-- An analysis inside an analysis has all the fuel that the outer one has. -/
theorem step_eq (cfg : Config) (hn : S.Nodup) (hbodies : ∀ g ∈ S, p.hasBody g = true) (hf : f ∉ S)
    (hb : p.body? f = some b) (s : Session) :
    (Analyzer.new p cfg).step (nest S) f s =
      match FunctionGraph.ofBody p.decls b with
      | .error cause =>
        (.ok (keep (.refused f cause.message) (s.note s!"skipping {f}: {cause.message}")).1,
          (keep (.refused f cause.message) (s.note s!"skipping {f}: {cause.message}")).2)
      | .ok g =>
        match Walk.run g cfg
          ((Analyzer.new p cfg).resolver (Analyzer.new p cfg).step (nest (f :: S)) f) s with
        | (.error fault, s) => (.error fault, s)
        | (.ok o, s) =>
          (.ok ((Analyzer.new p cfg).conclude f o s).1, ((Analyzer.new p cfg).conclude f o s).2) := by
  have hbody : p.hasBody f = true := Program.hasBody_iff.mpr ⟨b, hb⟩
  have hfits := fits_nest p cfg hn hbodies
  obtain ⟨k, hk, hin⟩ := hfits.push hbody hf
  have hout : ((nest S).push f).Fits p (Analyzer.new p cfg).fuel := by
    refine ⟨hin.nodup, hin.bodies, ?_⟩
    have := hin.enough
    omega
  have hres : (Analyzer.new p cfg).resolver ((Analyzer.new p cfg).analyze k) ((nest S).push f) f =
      (Analyzer.new p cfg).resolver (Analyzer.new p cfg).step ((nest S).push f) f :=
    resolver_congr fun g hg s => by
      rw [step]
      exact analyze_eq_of_fits _ _ hg hin hout
  rw [← push_nest, ← hres, step, hk]
  exact analyze_succ hb

section Request

variable {A : Step Session} {n : Nesting}

/-- A report that is kept is the answer. -/
theorem request_of_kept (a : Analyzer) (h : s.cache.report? f = some r) :
    a.request n f s = (.ok r, s) := by
  rw [request, reported_eq, h]

/-- Where the head is being analysed, or is the function itself, the function is analysed at once. -/
theorem request_of_headed (cfg : Config) (h : s.cache.report? f = none) (hh : p.head f ∈ f :: S) :
    (Analyzer.new p cfg).request (nest S) f s = (Analyzer.new p cfg).step (nest S) f s := by
  rw [request, reported_eq, h, fromHead_eq, head_new]
  refine if_neg fun hc => ?_
  rcases List.mem_cons.mp hh with e | hm
  · exact hc.1 e
  · exact hc.2 hm

/-- Where the head has a report, the function is analysed at once. -/
theorem request_of_kept_head (cfg : Config) (h : s.cache.report? f = none) (hh : s.Kept (p.head f)) :
    (Analyzer.new p cfg).request (nest S) f s = (Analyzer.new p cfg).step (nest S) f s := by
  obtain ⟨r, hr⟩ := hh
  have hrep : reported (Analyzer.new p cfg).step (nest S) f s =
      (Analyzer.new p cfg).step (nest S) f s := by
    rw [reported_eq, h]
  rw [request, reported_eq, h]
  dsimp only
  rw [fromHead_eq, head_new, hr]
  dsimp only
  rw [hrep, ite_self]

/-- A cycle without reports is entered at its head. -/
theorem request_of_unkept_head (cfg : Config) (h : s.cache.report? f = none)
    (hh : p.head f ∉ f :: S) (hu : s.cache.report? (p.head f) = none) :
    (Analyzer.new p cfg).request (nest S) f s =
      match (Analyzer.new p cfg).step (nest S) (p.head f)
        (s.note s!"{f} is recursive, entering its cycle at {p.head f}") with
      | (.ok _, s) => reported (Analyzer.new p cfg).step (nest S) f s
      | (.error fault, s) => (.error fault, s) := by
  rw [request, reported_eq, h, fromHead_eq, head_new, hu]
  exact if_pos ⟨fun e => hh (List.mem_cons.mpr (.inl e)), fun hm => hh (List.mem_cons_of_mem _ hm)⟩

/-- Of a function outside the program the library tells what is known. -/
theorem resolver_of_library (cfg : Config) {callee : String} (h : p.resolve callee = none) :
    ∃ e, ∀ (A : Step Session) n f s, (Analyzer.new p cfg).resolver A n f callee s = (.ok e, s) := by
  have hnew : (Analyzer.new p cfg).program.resolve callee = none := h
  simp only [resolver, hnew]
  cases (Analyzer.new p cfg).program.library.lookup callee with
  | none => exact ⟨_, fun _ _ _ _ => rfl⟩
  | some m => exact ⟨_, fun _ _ _ _ => rfl⟩

/-- Of a function of the program its summary tells what is known, if there is one. -/
theorem resolver_of_body (cfg : Config) {callee : String} (h : p.resolve callee = some b) :
    (Analyzer.new p cfg).resolver A n f callee s =
      match (Analyzer.new p cfg).summaryWith A n b.name s with
      | (.ok (some summary), s) => (.ok (.summarised summary), s)
      | (.ok none, s) =>
        (.ok .unknown, s.note s!"{f}: no summary for {b.name}, treating call as unknown")
      | (.error fault, s) => (.error fault, s) := by
  have hnew : (Analyzer.new p cfg).program.resolve callee = some b := h
  cases hsum : (Analyzer.new p cfg).summaryWith A n b.name s with
  | mk answer t =>
      cases answer with
      | error fault => simp only [resolver, hnew, hsum]
      | ok found => cases found <;> simp only [resolver, hnew, hsum, note_self]

end Request

/-! ### Order -/

/-- The stack and the session are in order. -/
structure Orderly (p : Program) (cfg : Config) (S : List String) (s : Session) : Prop where
  /-- Summaries are those of the reports. -/
  coherent : ∀ f, s.cache.summary? f = (s.cache.report? f).bind (·.summary)
  nodup : S.Nodup
  bodies : ∀ f ∈ S, p.hasBody f = true
  unkept : ∀ f ∈ S, s.cache.report? f = none
  headed : ∀ f ∈ S, p.head f ∈ S ∨ s.Kept (p.head f)
  chained : S.Pairwise fun above below => p.Enters cfg below above
  /-- A head has had its cycle analysed as far as walked calls lead. -/
  whole : ∀ f g, s.Kept f → p.head f = f → p.Leads cfg f g → p.Linked f g → s.Kept g
  covered : ∀ f, s.Kept f → s.Kept (p.head f) ∨ p.head f ∈ S
  closed : ∀ f g, s.Kept f → p.Walks cfg f g → s.Kept g ∨ g ∈ S

/-- A function that may be asked for from the stack. -/
structure Callable (p : Program) (cfg : Config) (S : List String) (f : String) : Prop where
  body : p.hasBody f = true
  idle : f ∉ S
  entered : ∀ g ∈ S, p.Enters cfg g f

/-- A function that may be analysed: the head of its cycle comes first. -/
structure Enterable (p : Program) (cfg : Config) (S : List String) (s : Session) (f : String) : Prop
    extends Callable p cfg S f where
  unkept : s.cache.report? f = none
  headed : p.head f ∈ f :: S ∨ s.Kept (p.head f)

/-- What an analysis of `f` adds to a session: reports on functions that calls lead to; if the head of
such a function is in `L`, the function is led to. -/
structure Grown (p : Program) (cfg : Config) (L : List String) (f : String) (s s' : Session) :
    Prop where
  old : ∀ g r, s.cache.report? g = some r → s'.cache.report? g = some r
  new : ∀ g, s'.Kept g → s.Kept g ∨ p.Reaches f g ∧ (p.head g ∈ L → p.Led cfg g)

/-- What came of an analysis of `f`. -/
structure Analysed (p : Program) (cfg : Config) (S L : List String) (f : String) (s : Session)
    (r : Report) (s' : Session) : Prop where
  orderly : Orderly p cfg S s'
  report : s'.cache.report? f = some r
  grown : Grown p cfg L f s s'

/-- Nothing has been analysed yet. -/
theorem orderly_empty (p : Program) (cfg : Config) : Orderly p cfg [] {} where
  coherent _ := rfl
  nodup := .nil
  bodies _ h := nomatch h
  unkept _ h := nomatch h
  headed _ h := nomatch h
  chained := .nil
  whole _ _ h := nomatch h.choose_spec
  covered _ h := nomatch h.choose_spec
  closed _ _ h := nomatch h.choose_spec

/-- Order depends only on what is kept. -/
theorem Orderly.like (h : Orderly p cfg S s) (hl : s.Like s') : Orderly p cfg S s' where
  coherent f := by rw [hl.summary, hl.report, h.coherent]
  nodup := h.nodup
  bodies := h.bodies
  unkept f hf := by rw [hl.report, h.unkept f hf]
  headed f hf := (h.headed f hf).imp_right hl.kept.mpr
  chained := h.chained
  whole f g hf hh hg hlink := hl.kept.mpr (h.whole f g (hl.kept.mp hf) hh hg hlink)
  covered f hf := (h.covered f (hl.kept.mp hf)).imp_left hl.kept.mpr
  closed f g hf hw := (h.closed f g (hl.kept.mp hf) hw).imp_left hl.kept.mpr

/-- Where nothing is added there is nothing to tell. -/
theorem Grown.of_like {L : List String} (h : s.Like s') : Grown p cfg L f s s' :=
  ⟨fun g r hr => by rw [h.report, hr], fun g hg => .inl (h.kept.mp hg)⟩

theorem Grown.refl (L : List String) (f : String) (s : Session) : Grown p cfg L f s s :=
  .of_like (.refl s)

/-- One growth after another. -/
theorem Grown.trans {L : List String} {s₁ s₂ s₃ : Session} (h : Grown p cfg L f s₁ s₂)
    (h' : Grown p cfg L f s₂ s₃) : Grown p cfg L f s₁ s₃ := by
  refine ⟨fun g r hr => h'.old g r (h.old g r hr), fun g hg => ?_⟩
  rcases h'.new g hg with hg | hg
  · exact h.new g hg
  · exact .inr hg

/-- What is added for a function that `f` leads to is added for `f`. -/
theorem Grown.widen {L L' : List String} (h : Grown p cfg L g s s') (hr : p.Reaches f g)
    (hL : L' ⊆ L) : Grown p cfg L' f s s' := by
  refine ⟨h.old, fun k hk => (h.new k hk).imp_right fun ⟨hg, hled⟩ => ⟨hr.trans hg, fun hm => ?_⟩⟩
  exact hled (hL hm)

/-- Reports stay. -/
theorem Grown.kept {L : List String} (h : Grown p cfg L f s s') (hg : s.Kept g) : s'.Kept g :=
  hg.imp fun r hr => h.old g r hr

/-- The functions of the stack leave the depth of calls free. -/
theorem Orderly.length_le (h : Orderly p cfg S s) : S.length ≤ p.bodies.length :=
  length_le_of_bodies h.nodup h.bodies

/-- A function that may be called is one more than those on the stack. -/
theorem Callable.length_lt (hf : Callable p cfg S f) (h : Orderly p cfg S s) :
    S.length < p.bodies.length := by
  refine length_le_of_bodies (List.nodup_cons.mpr ⟨hf.idle, h.nodup⟩) fun g hg => ?_
  rcases List.mem_cons.mp hg with rfl | hg
  · exact hf.body
  · exact h.bodies g hg

/-- Between analyses, every function may be asked for. -/
theorem callable_nil (cfg : Config) (hf : p.hasBody f = true) : Callable p cfg [] f :=
  ⟨hf, List.not_mem_nil, fun _ hg => absurd hg List.not_mem_nil⟩

/-- A walked call may be asked for, if it is not being analysed. -/
theorem Callable.walks (hf : Callable p cfg S f) (hw : p.Walks cfg f g) (hg : g ∉ f :: S) :
    Callable p cfg (f :: S) g := by
  refine ⟨hw.calls.hasBody_right, hg, fun k hk => ?_⟩
  rcases List.mem_cons.mp hk with rfl | hk
  · exact hw.enters
  · exact (hf.entered k hk).walks hw

/-- The head of a cycle may be asked for, if it was not analysed before. -/
theorem Callable.head (hf : Callable p cfg S f) (h : Orderly p cfg S s) (hn : p.head f ∉ S)
    (hu : s.cache.report? (p.head f) = none) : Enterable p cfg S s (p.head f) := by
  have hlink := p.linked_head f
  refine ⟨⟨Program.Reaches.hasBody hlink.1 hf.body, hn, fun g hg => ?_⟩, hu, ?_⟩
  · refine ⟨(hf.entered g hg).1.trans hlink.1, fun hback => ?_⟩
    -- a function of the cycle on the stack would have its head there, or a report on it
    have hcycle : p.Linked g f := ⟨(hf.entered g hg).1, hlink.1.trans hback⟩
    have hsame : p.head g = p.head f := Program.head_eq_of_linked hcycle
    rcases h.headed g hg with hm | ⟨r, hr⟩
    · exact absurd (hsame ▸ hm) hn
    · rw [hsame, hu] at hr
      exact nomatch hr
  · rw [Program.head_head]
    exact .inl List.mem_cons_self

/-- A function whose head is on the stack, or is the function itself, is led to. -/
theorem Callable.led (hf : Callable p cfg S f) (hh : p.head f ∈ f :: S) : p.Led cfg f := by
  rcases List.mem_cons.mp hh with e | hm
  · exact Program.led_of_head_eq e
  · exact (hf.entered _ hm).2 (p.linked_head f).1

/-! ### Pushing and popping -/

/-- The function that is entered goes on top of the stack. -/
theorem Orderly.push (h : Orderly p cfg S s) (hf : Enterable p cfg S s f) :
    Orderly p cfg (f :: S) s where
  coherent := h.coherent
  nodup := List.nodup_cons.mpr ⟨hf.idle, h.nodup⟩
  bodies g hg := by
    rcases List.mem_cons.mp hg with rfl | hg
    · exact hf.body
    · exact h.bodies g hg
  unkept g hg := by
    rcases List.mem_cons.mp hg with rfl | hg
    · exact hf.unkept
    · exact h.unkept g hg
  headed g hg := by
    rcases List.mem_cons.mp hg with rfl | hg
    · exact hf.headed
    · exact (h.headed g hg).imp_left (List.mem_cons_of_mem _)
  chained := List.pairwise_cons.mpr ⟨hf.entered, h.chained⟩
  whole := h.whole
  covered g hg := (h.covered g hg).imp_right (List.mem_cons_of_mem _)
  closed g k hg hw := (h.closed g k hg hw).imp_right (List.mem_cons_of_mem _)

/-- The function on top of the stack gets its report `r`, and its summary. -/
structure Concluded (f : String) (r : Report) (s s' : Session) : Prop where
  report : ∀ g, s'.cache.report? g = if g = f then some r else s.cache.report? g
  summary : ∀ g, s'.cache.summary? g = if g = f then r.summary else s.cache.summary? g

/-- One more report is kept, and no other goes. -/
theorem Concluded.kept (h : Concluded f r s s') : s'.Kept g ↔ g = f ∨ s.Kept g := by
  rw [Session.Kept, h.report]
  split
  case isTrue e => exact ⟨fun _ => .inl e, fun _ => ⟨r, rfl⟩⟩
  case isFalse e => exact ⟨.inr, fun h => h.resolve_left e⟩

/-- The analysis of `f` ends: all its walked calls are kept by now, or are being analysed. -/
theorem Orderly.pop {s₁ s₂ : Session} (h : Orderly p cfg S s) (hf : Enterable p cfg S s f)
    (h₁ : Orderly p cfg (f :: S) s₁) (hasked : ∀ g, p.Walks cfg f g → s₁.Kept g ∨ g ∈ f :: S)
    (hc : Concluded f r s₁ s₂) : Orderly p cfg S s₂ := by
  have hkept : ∀ {g}, s₁.Kept g ∨ g ∈ f :: S → s₂.Kept g ∨ g ∈ S := fun {g} hg => by
    rw [hc.kept]
    rcases hg with hg | hg
    · exact .inl (.inr hg)
    · exact (List.mem_cons.mp hg).imp_left .inl
  have hclosed : ∀ g k, s₂.Kept g → p.Walks cfg g k → s₂.Kept k ∨ k ∈ S := fun g k hg hw => by
    rcases hc.kept.mp hg with rfl | hg
    · exact hkept (hasked k hw)
    · exact hkept (h₁.closed g k hg hw)
  refine ⟨fun g => ?_, h.nodup, h.bodies, fun g hg => ?_, fun g hg => ?_, h.chained,
    fun g k hg hh hk hlink => ?_, fun g hg => ?_, hclosed⟩
  · rw [hc.summary, hc.report]
    split
    · rfl
    · exact h₁.coherent g
  · have hne : g ≠ f := fun e => hf.idle (e ▸ hg)
    rw [hc.report, if_neg hne]
    exact h₁.unkept g (List.mem_cons_of_mem _ hg)
  · exact (hkept (h₁.headed g (List.mem_cons_of_mem _ hg)).symm).symm
  · rcases hc.kept.mp hg with rfl | hg
    · -- the cycle was untouched when its head was entered, so nothing of it is left on the stack
      induction hk with
      | refl => exact hc.kept.mpr (.inl rfl)
      | @tail k k' hk hw ih =>
          have hlink' : p.Linked g k := ⟨Program.Leads.reaches hk, .head hw.calls hlink.2⟩
          refine (hclosed k k' (ih hlink') hw).resolve_right fun hm => ?_
          have hsame : p.head k' = g := (Program.head_eq_of_linked hlink).symm.trans hh
          rcases h.headed k' hm with hm | ⟨r', hr'⟩
          · exact hf.idle (hsame ▸ hm)
          · rw [hsame, hf.unkept] at hr'
            exact nomatch hr'
    · exact hc.kept.mpr (.inr (h₁.whole g k hg hh hk hlink))
  · rcases hc.kept.mp hg with rfl | hg
    · exact hkept (h₁.headed g List.mem_cons_self).symm
    · exact hkept (h₁.covered g hg)

/-- A refused body ends with its report and without a summary. -/
theorem concluded_keep {r : Report} (hr : r.function = f) (hsum : r.summary = none)
    (h : s.cache.report? f = none) (hs : s.cache.summary? f = none) :
    Concluded f r s (keep r s).2 := by
  refine ⟨fun g => ?_, fun g => ?_⟩
  · rw [report?_keep, hr, h]
    rfl
  · rw [summary?_keep, hsum]
    split
    case isTrue e => rw [e, hs]
    case isFalse => rfl

/-- A walk ends with a report and its summary. -/
theorem concluded_conclude (a : Analyzer) (o : Walk.Outcome) (h : s.cache.report? f = none)
    (hs : s.cache.summary? f = none) : Concluded f (reportOf f o) s (a.conclude f o s).2 := by
  refine ⟨fun g => ?_, fun g => ?_⟩
  · rw [report?_conclude, h]
    rfl
  · rw [summary?_conclude, hs]
    rfl

/-- What a session keeps while the functions of `S` are being analysed, whatever the calls are. -/
structure Tidy (p : Program) (S : List String) (s : Session) : Prop where
  /-- Summaries are those of the reports. -/
  coherent : ∀ f, s.cache.summary? f = (s.cache.report? f).bind (·.summary)
  unkept : ∀ f ∈ S, s.cache.report? f = none
  known : ∀ f r, s.cache.report? f = some r → r.function = f ∧ p.hasBody f = true

theorem tidy_empty (p : Program) : Tidy p [] {} where
  coherent _ := rfl
  unkept _ h := absurd h List.not_mem_nil
  known _ _ h := by cases h

namespace Tidy

/-- What is tidy depends only on what is kept. -/
theorem like (h : Tidy p S s) (hl : s.Like s') : Tidy p S s' where
  coherent f := by rw [hl.summary, hl.report, h.coherent]
  unkept f hf := by rw [hl.report, h.unkept f hf]
  known f r hr := h.known f r (hl.report f ▸ hr)

/-- A function without a report may go on the stack. -/
theorem push (h : Tidy p S s) (hu : s.cache.report? f = none) : Tidy p (f :: S) s :=
  { h with unkept := List.forall_mem_cons.mpr ⟨hu, h.unkept⟩ }

/-- A function may be taken off. -/
theorem pop (h : Tidy p (f :: S) s) : Tidy p S s :=
  { h with unkept := fun g hg => h.unkept g (List.mem_cons_of_mem _ hg) }

/-- Without a report there is no summary. -/
theorem summary?_eq_none (h : Tidy p S s) (hu : s.cache.report? f = none) :
    s.cache.summary? f = none := by
  rw [h.coherent, hu]
  rfl

/-- The function on top of the stack gets its report. -/
theorem concluded (h : Tidy p (f :: S) s) (hf : f ∉ S) (hb : p.hasBody f = true)
    (hr : r.function = f) (hc : Concluded f r s s') : Tidy p S s' where
  coherent g := by
    rw [hc.summary, hc.report]
    split
    · rfl
    · exact h.coherent g
  unkept g hg := by
    have hne : g ≠ f := fun e => hf (e ▸ hg)
    rw [hc.report, if_neg hne]
    exact h.unkept g (List.mem_cons_of_mem _ hg)
  known g q hq := by
    rw [hc.report] at hq
    split at hq
    case isTrue e =>
      obtain rfl := Option.some.inj hq
      exact e ▸ ⟨hr, hb⟩
    case isFalse => exact h.known g q hq

/-- A function whose body is not supported is refused. -/
theorem concluded_refused (h : Tidy p S s) (hu : s.cache.report? f = none) (message : String) :
    (keep (.refused f message) s).1 = .refused f message ∧
      Concluded f (.refused f message) s (keep (.refused f message) s).2 := by
  have hname : (Report.refused f message).function = f := rfl
  refine ⟨?_, concluded_keep hname rfl hu (h.summary?_eq_none hu)⟩
  rw [keep_fst, hname, hu]
  rfl

/-- The report of any other is that of its walk. -/
theorem concluded_walked (h : Tidy p S s) (hu : s.cache.report? f = none) (a : Analyzer)
    (o : Walk.Outcome) : (a.conclude f o s).1 = reportOf f o ∧
      Concluded f (reportOf f o) s (a.conclude f o s).2 := by
  refine ⟨?_, concluded_conclude a o hu (h.summary?_eq_none hu)⟩
  rw [conclude_fst, hu]
  rfl

end Tidy

/-- No summary is kept of a function that is being analysed. -/
theorem Orderly.summary?_eq_none (h : Orderly p cfg S s) (hf : s.cache.report? f = none) :
    s.cache.summary? f = none := by
  rw [h.coherent, hf]
  rfl

/-! ### How an analysis ends -/

section Ends

variable {t : Session} {gr : FunctionGraph}

/-- A body that is not supported is reported as such, and nothing is walked. -/
theorem Orderly.step_refused (h : Orderly p cfg S s) (hf : Enterable p cfg S s f)
    (hb : p.body? f = some b) {cause : Unsupported}
    (hg : FunctionGraph.ofBody p.decls b = .error cause) :
    ∃ u, (Analyzer.new p cfg).step (nest S) f s = (.ok (.refused f cause.message), u) ∧
      Concluded f (.refused f cause.message) (s.note s!"skipping {f}: {cause.message}") u := by
  have hu : (s.note s!"skipping {f}: {cause.message}").cache.report? f = none := hf.unkept
  have hname : (Report.refused f cause.message).function = f := rfl
  refine ⟨_, ?_, concluded_keep hname rfl hu (h.summary?_eq_none hf.unkept)⟩
  rw [step_eq cfg h.nodup h.bodies hf.idle hb, hg]
  dsimp only
  rw [keep_fst, hname, hu]
  rfl

/-- A walk that fails leaves what its calls have left. -/
theorem Orderly.step_failed (h : Orderly p cfg S s) (hf : Enterable p cfg S s f)
    (hb : p.body? f = some b) (hg : FunctionGraph.ofBody p.decls b = .ok gr) {fault : AnalysisFault}
    (hrun : Walk.run gr cfg
      ((Analyzer.new p cfg).resolver (Analyzer.new p cfg).step (nest (f :: S)) f) s =
        (.error fault, t)) :
    (Analyzer.new p cfg).step (nest S) f s = (.error fault, t) := by
  rw [step_eq cfg h.nodup h.bodies hf.idle hb, hg]
  dsimp only
  rw [hrun]

/-- A walk that comes to its end is concluded. -/
theorem Orderly.step_walked (h : Orderly p cfg S s) (hf : Enterable p cfg S s f)
    (hb : p.body? f = some b) (hg : FunctionGraph.ofBody p.decls b = .ok gr) {o : Walk.Outcome}
    (hrun : Walk.run gr cfg
      ((Analyzer.new p cfg).resolver (Analyzer.new p cfg).step (nest (f :: S)) f) s = (.ok o, t))
    (ht : Orderly p cfg (f :: S) t) :
    ∃ u, (Analyzer.new p cfg).step (nest S) f s = (.ok (reportOf f o), u) ∧
      Concluded f (reportOf f o) t u := by
  have hu := ht.unkept f List.mem_cons_self
  refine ⟨_, ?_, concluded_conclude (Analyzer.new p cfg) o hu (ht.summary?_eq_none hu)⟩
  rw [step_eq cfg h.nodup h.bodies hf.idle hb, hg]
  dsimp only
  rw [hrun]
  dsimp only
  rw [conclude_fst, hu]
  rfl

end Ends

/-! ### Answers -/

/-- A function that is being analysed is taken to have no effect. -/
theorem summaryWith_active {a : Analyzer} {A : Step Session} (h : Orderly p cfg S s) (hf : f ∈ S)
    (hb : a.program.body? f = some b) :
    a.summaryWith A (nest S) f s =
      (.ok (some (.unknown f b.argCount)),
        (asked s f).note s!"recursive call to {f}, assuming no effect") := by
  rw [summaryWith_eq, h.summary?_eq_none (h.unkept f hf), hb]
  exact if_pos hf

/-- The summary of another function is that of its report. -/
theorem summaryWith_request (h : Orderly p cfg S s)
    (hdepth : (p.bodies.length : Int) ≤ cfg.maxCallDepth) (hf : f ∉ S) (hb : p.body? f = some b) :
    (Analyzer.new p cfg).summaryWith (Analyzer.new p cfg).step (nest S) f s =
      match (Analyzer.new p cfg).request (nest S) f (asked s f) with
      | (.ok r, s) => (.ok r.summary, s)
      | (.error fault, s) => (.error fault, s) := by
  have hbody : (Analyzer.new p cfg).program.body? f = some b := hb
  have hlimit : ¬ (Analyzer.new p cfg).config.maxCallDepth < (nest S).depth := by
    have hle := h.length_le
    change ¬ cfg.maxCallDepth < (S.length : Int)
    omega
  have hidle : f ∉ (nest S).active := hf
  rw [summaryWith_eq, request, reported_eq, report?_asked, h.coherent, hbody]
  cases s.cache.report? f with
  | none =>
      cases (Analyzer.new p cfg).fromHead (Analyzer.new p cfg).step (nest S) f (asked s f) with
      | mk answer t => cases answer <;> simp [hidle, hlimit]
  | some r =>
      cases hr : r.summary with
      | none => simp only [Option.bind_some, hr, if_neg hidle, if_neg hlimit]
      | some sum => simp only [Option.bind_some, hr]

/-- What is promised of analyses above a stack. -/
def Steady (p : Program) (cfg : Config) (S : List String) : Prop :=
  ∀ ⦃f s r s'⦄, Orderly p cfg S s → Enterable p cfg S s f →
    (Analyzer.new p cfg).step (nest S) f s = (.ok r, s') → Analysed p cfg S (f :: S) f s r s'

/-- A request leaves things in order: either there is a report, or the function is analysed after the
head of its cycle. -/
theorem Steady.request (hS : Steady p cfg S) (h : Orderly p cfg S s) (hf : Callable p cfg S f)
    (hr : (Analyzer.new p cfg).request (nest S) f s = (.ok r, s')) :
    Analysed p cfg S S f s r s' := by
  have hstep : ∀ {t}, Orderly p cfg S t → (p.head f ∈ f :: S ∨ t.Kept (p.head f)) →
      t.cache.report? f = none → (Analyzer.new p cfg).step (nest S) f t = (.ok r, s') →
      Analysed p cfg S S f t r s' := by
    intro t ht hhead hu hrep
    have hA := hS ht ⟨hf, hu, hhead⟩ hrep
    exact ⟨hA.orderly, hA.report, hA.grown.widen .refl (List.subset_cons_self _ _)⟩
  have hreported : ∀ {t}, Orderly p cfg S t → (p.head f ∈ f :: S ∨ t.Kept (p.head f)) →
      reported (Analyzer.new p cfg).step (nest S) f t = (.ok r, s') →
      Analysed p cfg S S f t r s' := by
    intro t ht hhead hrep
    rw [reported_eq] at hrep
    split at hrep
    case h_1 r' hr' =>
      cases hrep
      exact ⟨ht, hr', .refl S f _⟩
    case h_2 hu => exact hstep ht hhead hu hrep
  cases hu : s.cache.report? f with
  | some r' =>
      rw [request_of_kept _ hu] at hr
      cases hr
      exact ⟨h, hu, .refl S f s⟩
  | none =>
      by_cases hhead : p.head f ∈ f :: S
      · rw [request_of_headed cfg hu hhead] at hr
        exact hstep h (.inl hhead) hu hr
      · cases hk : s.cache.report? (p.head f) with
        | some r' =>
            rw [request_of_kept_head cfg hu ⟨r', hk⟩] at hr
            exact hstep h (.inr ⟨r', hk⟩) hu hr
        | none =>
            rw [request_of_unkept_head cfg hu hhead hk] at hr
            split at hr
            case h_2 => cases hr
            case h_1 r' t ht =>
              have hnote := s.like_note s!"{f} is recursive, entering its cycle at {p.head f}"
              have h' := h.like hnote
              have hn : p.head f ∉ S := fun hm => hhead (List.mem_cons_of_mem _ hm)
              have hA := hS h' (hf.head h' hn hk) ht
              have hB := hreported hA.orderly (.inr ⟨r', hA.report⟩) hr
              have hgrown := hA.grown.widen (p.linked_head f).1 (List.subset_cons_self _ _)
              exact ⟨hB.orderly, hB.report, (Grown.of_like hnote).trans (hgrown.trans hB.grown)⟩

/-- What the walk of `f` leaves behind once it has had answers on the functions `gs`. -/
structure Answered (p : Program) (cfg : Config) (S : List String) (f : String) (gs : List String)
    (s s' : Session) : Prop where
  orderly : Orderly p cfg (f :: S) s'
  grown : Grown p cfg (f :: S) f s s'
  kept : ∀ g ∈ gs, s'.Kept g ∨ g ∈ f :: S

section Answers

variable {t t' : Session} {gs gs' : List String}

/-- Before the first question. -/
theorem Answered.nil (h : Orderly p cfg (f :: S) s) : Answered p cfg S f [] s s :=
  ⟨h, .refl _ f s, fun _ hg => absurd hg List.not_mem_nil⟩

theorem Answered.like (h : Answered p cfg S f gs s t) (hl : t.Like t') :
    Answered p cfg S f gs s t' :=
  ⟨h.orderly.like hl, h.grown.trans (.of_like hl), fun g hg => (h.kept g hg).imp_left hl.kept.mpr⟩

/-- Questions after questions. -/
theorem Answered.append (h : Answered p cfg S f gs s t) (h' : Answered p cfg S f gs' t t') :
    Answered p cfg S f (gs ++ gs') s t' := by
  refine ⟨h'.orderly, h.grown.trans h'.grown, fun g hg => ?_⟩
  rcases List.mem_append.mp hg with hg | hg
  · exact (h.kept g hg).imp_left h'.grown.kept
  · exact h'.kept g hg

variable (hS : Steady p cfg (f :: S)) (hdepth : (p.bodies.length : Int) ≤ cfg.maxCallDepth)
  (hf : Callable p cfg S f) (h : Orderly p cfg (f :: S) s)

include hS hdepth hf h

/-- A callee that is asked for is on the stack or has a report afterwards. -/
theorem Steady.summarised (hw : p.Walks cfg f g) (hb : p.body? g = some b) {x : Option Summary}
    (hr : (Analyzer.new p cfg).summaryWith (Analyzer.new p cfg).step (nest (f :: S)) g s =
      (.ok x, t)) : Answered p cfg S f [g] s t := by
  have hasked := like_asked s g
  by_cases hm : g ∈ f :: S
  · rw [summaryWith_active (a := Analyzer.new p cfg) h hm hb] at hr
    cases hr
    have hall : ∀ k ∈ [g], s.Kept k ∨ k ∈ f :: S := fun k hk =>
      .inr (List.mem_singleton.mp hk ▸ hm)
    exact (Answered.like ⟨h, .refl _ f s, hall⟩ hasked).like (Session.like_note _ _)
  · rw [summaryWith_request h hdepth hm hb] at hr
    split at hr
    case h_2 => cases hr
    case h_1 r t' hreq =>
      cases hr
      have hA := hS.request (h.like hasked) (hf.walks hw hm) hreq
      have hgrown := hA.grown.widen (.single hw.calls) (List.Subset.refl _)
      refine ⟨hA.orderly, (Grown.of_like hasked).trans hgrown, fun k hk => .inl ?_⟩
      rw [List.mem_singleton.mp hk]
      exact ⟨r, hA.report⟩

/-- The same for a question of the walk, which may concern the library. -/
theorem Steady.answered {callee : String} {e : CalleeEffect}
    (hw : ∀ b, p.resolve callee = some b → p.Walks cfg f b.name)
    (hr : (Analyzer.new p cfg).resolver (Analyzer.new p cfg).step (nest (f :: S)) f callee s =
      (.ok e, t)) :
    Answered p cfg S f ([callee].filterMap fun c => (p.resolve c).map (·.name)) s t := by
  rw [List.filterMap_cons, List.filterMap_nil]
  cases hc : p.resolve callee with
  | none =>
      obtain ⟨e', he'⟩ := resolver_of_library cfg hc
      rw [he'] at hr
      cases hr
      exact .nil h
  | some b =>
      have hsum := fun {x t} => hS.summarised hdepth hf h (hw b hc) (Program.body?_of_resolve hc)
        (x := x) (t := t)
      rw [resolver_of_body cfg hc] at hr
      split at hr
      case h_1 sum t ht =>
        cases hr
        exact hsum ht
      case h_2 t ht =>
        cases hr
        exact (hsum ht).like (t.like_note _)
      case h_3 => cases hr

/-- The walk of `f` inside its analysis asks for all its walked calls. -/
theorem Steady.walked (hb : p.body? f = some b) {gr : FunctionGraph}
    (hg : FunctionGraph.ofBody p.decls b = .ok gr) {o : Walk.Outcome}
    (hr : Walk.run gr cfg
      ((Analyzer.new p cfg).resolver (Analyzer.new p cfg).step (nest (f :: S)) f) s = (.ok o, t)) :
    Answered p cfg S f (p.walkedCalls cfg f) s t := by
  rw [Walk.run_eq] at hr
  rw [Program.walkedCalls_of_ofBody hb hg]
  refine (Walk.dialogue_follows gr cfg).run_ok (I := fun asked t =>
    Answered p cfg S f (asked.filterMap fun c => (p.resolve c).map (·.name)) s t) ?_ [] (.nil h) hr
  intro asked c u e u' hc hu hanswer
  rw [List.filterMap_append]
  exact hu.append
    (hS.answered hdepth hf hu.orderly (fun _ => Program.walks_of_mem_asked hb hg hc) hanswer)

end Answers

/-- The analysis of `f` ends with its report, the one new report that no walked call brings. -/
theorem Orderly.analysed {t : Session} (h : Orderly p cfg S s) (hf : Enterable p cfg S s f)
    (ht : Answered p cfg S f (p.walkedCalls cfg f) s t) (hc : Concluded f r t s') :
    Analysed p cfg S (f :: S) f s r s' := by
  refine ⟨h.pop hf ht.orderly ht.kept hc, ?_, fun g r' hg => ?_, fun g hg => ?_⟩
  · rw [hc.report, if_pos rfl]
  · have hne : g ≠ f := fun e => by
      rw [e, hf.unkept] at hg
      exact nomatch hg
    rw [hc.report, if_neg hne]
    exact ht.grown.old g r' hg
  · rcases hc.kept.mp hg with rfl | hg
    · exact .inr ⟨.refl, hf.toCallable.led⟩
    · exact ht.grown.new g hg

/-- The induction is on how many functions are not on the stack. -/
theorem steady_of_room (hdepth : (p.bodies.length : Int) ≤ cfg.maxCallDepth) (room : Nat) :
    ∀ S : List String, p.bodies.length ≤ room + S.length → Steady p cfg S := by
  induction room with
  | zero =>
      intro S hroom f s r s' h hf _
      have hlt := hf.length_lt h
      omega
  | succ room ih =>
      intro S hroom f s r s' h hf hr
      obtain ⟨b, hb⟩ := Program.hasBody_iff.mp hf.body
      have hpush := h.push hf
      cases hg : FunctionGraph.ofBody p.decls b with
      | error cause =>
          have hnone : p.walkedCalls cfg f = [] := by simp only [Program.walkedCalls, hb, hg]
          have hnil : Answered p cfg S f (p.walkedCalls cfg f) s s := hnone ▸ .nil hpush
          obtain ⟨u, hu, hc⟩ := h.step_refused hf hb hg
          rw [hu] at hr
          cases hr
          exact h.analysed hf (hnil.like (Session.like_note _ _)) hc
      | ok gr =>
          cases hrun : Walk.run gr cfg
              ((Analyzer.new p cfg).resolver (Analyzer.new p cfg).step (nest (f :: S)) f) s with
          | mk x t =>
              cases x with
              | error fault =>
                  rw [h.step_failed hf hb hg hrun] at hr
                  cases hr
              | ok o =>
                  have hS : Steady p cfg (f :: S) := ih (f :: S) (by rw [List.length_cons]; omega)
                  have ht := hS.walked hdepth hf.toCallable hpush hb hg hrun
                  obtain ⟨u, hu, hc⟩ := h.step_walked hf hb hg hrun ht.orderly
                  rw [hu] at hr
                  cases hr
                  exact h.analysed hf ht hc

/-- **Analyses leave things in order.** -/
theorem steady (hdepth : (p.bodies.length : Int) ≤ cfg.maxCallDepth) (S : List String) :
    Steady p cfg S :=
  steady_of_room hdepth p.bodies.length S (Nat.le_add_right _ _)

end Analyzer

end Dangling
