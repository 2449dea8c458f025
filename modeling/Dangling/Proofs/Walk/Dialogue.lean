import Dangling.Proofs.Walk.Explore

/-!
# Proofs — Walk — Dialogue

A walk as a dialogue with its resolver.  The walk hands its store on from one question to the next
and never looks into it, so it is a tree: at each question it has one continuation for every answer.
Statements about all resolvers are statements about the tree, and follow its constructors.

* `Walk.run_eq`: a walk is the run of its dialogue.
* `Dialogue.Keeps`: as long as answers are as promised, so is the result; `Dialogue.Keeps.run` takes
  this to runs.
-/

namespace Dangling

/-- A computation that asks what is known of callees. -/
inductive Dialogue (α : Type) where
  | done (a : α)
  | fail (fault : AnalysisFault)
  | ask (callee : String) (next : CalleeEffect → Dialogue α)

/-- What is said of a result and of a fault. -/
inductive Promised {α : Type} (result : α → Prop) (fault : AnalysisFault → Prop) :
    Except AnalysisFault α → Prop where
  | ok {a : α} (h : result a) : Promised result fault (.ok a)
  | error {e : AnalysisFault} (h : fault e) : Promised result fault (.error e)

namespace Promised

variable {α : Type} {result : α → Prop} {fault fault' : AnalysisFault → Prop}

theorem of_ok {a : α} : Promised result fault (.ok a) → result a
  | .ok h => h

theorem of_error {e : AnalysisFault} : Promised result fault (.error e) → fault e
  | .error h => h

/-- Less may be promised of faults. -/
theorem imp {x : Except AnalysisFault α} (h : Promised result fault x)
    (hf : ∀ e, fault e → fault' e) : Promised result fault' x := by
  cases h with
  | ok h => exact .ok h
  | error h => exact .error (hf _ h)

theorem anything (x : Except AnalysisFault α) : Promised (fun _ => True) (fun _ => True) x := by
  cases x with
  | ok a => exact .ok trivial
  | error e => exact .error trivial

end Promised

namespace Dialogue

variable {α β σ : Type}

/-- A dialogue without questions. -/
def ofExcept : Except AnalysisFault α → Dialogue α
  | .ok a => done a
  | .error e => fail e

/-- One dialogue after another. -/
def bind : Dialogue α → (α → Dialogue β) → Dialogue β
  | done a, f => f a
  | fail e, _ => fail e
  | ask c k, f => ask c fun e => (k e).bind f

/-- The course of a dialogue with a resolver. -/
def run (resolve : Resolver σ) : Dialogue α → σ → Except AnalysisFault α × σ
  | done a, s => (.ok a, s)
  | fail e, s => (.error e, s)
  | ask c k, s =>
    match resolve c s with
    | (.ok e, s) => (k e).run resolve s
    | (.error e, s) => (.error e, s)

variable {resolve : Resolver σ} {s s' : σ}

/-- A result that is at hand asks nothing. -/
theorem run_ofExcept (x : Except AnalysisFault α) : (ofExcept x).run resolve s = (x, s) := by
  cases x <;> rfl

/-- The dialogue goes on with the result. -/
theorem run_bind_of_ok {d : Dialogue α} {a : α} (h : d.run resolve s = (.ok a, s'))
    (f : α → Dialogue β) : (d.bind f).run resolve s = (f a).run resolve s' := by
  induction d generalizing s with
  | done b =>
      cases h
      rfl
  | fail e => cases h
  | ask c k ih =>
      rw [run] at h
      rw [bind, run]
      cases hc : resolve c s with
      | mk answer t =>
          rw [hc] at h
          cases answer with
          | ok e => exact ih e h
          | error e => cases h

/-- A fault ends it. -/
theorem run_bind_of_error {d : Dialogue α} {e : AnalysisFault}
    (h : d.run resolve s = (.error e, s')) (f : α → Dialogue β) :
    (d.bind f).run resolve s = (.error e, s') := by
  induction d generalizing s with
  | done b => cases h
  | fail e' =>
      cases h
      rfl
  | ask c k ih =>
      rw [run] at h
      rw [bind, run]
      cases hc : resolve c s with
      | mk answer t =>
          rw [hc] at h
          cases answer with
          | ok e => exact ih e h
          | error e =>
              cases h
              rfl

/-! ### Promises -/

/-- All questions are as promised, and as long as the answers are, so is the result. -/
inductive Keeps (question : String → Prop) (answer : String → CalleeEffect → Prop)
    (result : α → Prop) (fault : AnalysisFault → Prop) : Dialogue α → Prop where
  | done {a : α} (h : result a) : Keeps question answer result fault (done a)
  | fail {e : AnalysisFault} (h : fault e) : Keeps question answer result fault (fail e)
  | ask {c : String} {k : CalleeEffect → Dialogue α} (hc : question c)
      (hk : ∀ e, answer c e → Keeps question answer result fault (k e)) :
      Keeps question answer result fault (ask c k)

variable {question : String → Prop} {answer : String → CalleeEffect → Prop} {result : α → Prop}
  {after : β → Prop} {fault : AnalysisFault → Prop}

/-- Every dialogue keeps promises that say nothing. -/
theorem keeps_anything (d : Dialogue α) :
    d.Keeps (fun _ => True) (fun _ _ => True) (fun _ => True) fun _ => True := by
  induction d with
  | done a => exact .done trivial
  | fail e => exact .fail trivial
  | ask c k ih => exact .ask trivial fun e _ => ih e

/-- What holds of a result is kept. -/
theorem Keeps.ofExcept {x : Except AnalysisFault α} (h : Promised result fault x) :
    Keeps question answer result fault (ofExcept x) := by
  cases h with
  | ok h => exact .done h
  | error h => exact .fail h

/-- More questions may be allowed. -/
theorem Keeps.mono {d : Dialogue α} {wider : String → Prop}
    (h : Keeps question answer result fault d) (hq : ∀ c, question c → wider c) :
    Keeps wider answer result fault d := by
  induction h with
  | done h => exact .done h
  | fail h => exact .fail h
  | ask hc _ ih => exact .ask (hq _ hc) ih

/-- By induction on the first dialogue. -/
theorem Keeps.bind {d : Dialogue α} {f : α → Dialogue β}
    (h : Keeps question answer result fault d)
    (hf : ∀ a, result a → Keeps question answer after fault (f a)) :
    Keeps question answer after fault (d.bind f) := by
  induction h with
  | done h => exact hf _ h
  | fail h => exact .fail h
  | ask hc _ ih => exact .ask hc ih

/-- A resolver that answers as promised, and keeps its store as it should be, brings the promised
result. -/
theorem Keeps.run {d : Dialogue α} (h : Keeps question answer result fault d) {store : σ → Prop}
    (hresolve : ∀ c s, question c → store s →
      Promised (answer c) fault (resolve c s).1 ∧ store (resolve c s).2)
    (hs : store s) :
    Promised result fault (d.run resolve s).1 ∧ store (d.run resolve s).2 := by
  induction h generalizing s with
  | done h => exact ⟨.ok h, hs⟩
  | fail h => exact ⟨.error h, hs⟩
  | @ask c k hc _ ih =>
      have hr := hresolve c s hc hs
      rw [Dialogue.run]
      cases he : resolve c s with
      | mk x t =>
          rw [he] at hr
          cases x with
          | ok e => exact ih e hr.1.of_ok hr.2
          | error e => exact ⟨.error hr.1.of_error, hr.2⟩

end Dialogue

/-! ### The dialogue of a visit -/

namespace Visit

variable {σ : Type} {g : FunctionGraph} {cfg : Config} {resolve : Resolver σ}

/-- The blocks to follow on a panic. -/
def unwindsOf (cfg : Config) (b : GraphBlock) : List BlockId :=
  if cfg.followUnwind then b.unwinds else []

/-- The visit of a call with what is known of its callee. -/
def called (g : FunctionGraph) (cfg : Config) (b : GraphBlock) (p : Progress) (site : CallSite)
    (destination : Place) (target : Option BlockId) : Except AnalysisFault Visit :=
  if site.isMisplaced g.nodes destination then .error (.noArgument g.name site.callee)
  else named g ⟨site.apply g.nodes destination p, andAlso target.toList (unwindsOf cfg b), false⟩

/-- The visit of a block as a dialogue: only a call asks. -/
def dialogue (g : FunctionGraph) (cfg : Config) (b : GraphBlock) (state : PathState) :
    Dialogue Visit :=
  let p := b.statements.foldl (Progress.statement g.nodes) { state }
  match unnamed? g.nodes p.alarms with
  | some node => .fail (.unnamedNode g.name node)
  | none =>
    match b.terminator.kind with
    | .call callee args destination target _ =>
      .ask callee fun effect =>
        .ofExcept (called g cfg b p { loc := b.terminator.loc, callee, effect, args } destination target)
    | _ => .ofExcept (named g (plain g.nodes b (unwindsOf cfg b) p))

/-- The visit of a block asks at most one question, about the callee. -/
theorem block_eq (b : GraphBlock) (state : PathState) (s : σ) :
    block g cfg resolve b state s = (dialogue g cfg b state).run resolve s := by
  simp only [block, dialogue, terminator]
  cases unnamed? g.nodes (b.statements.foldl (Progress.statement g.nodes) { state }).alarms with
  | some node => rfl
  | none =>
      cases b.terminator.kind with
      | call callee args destination target unwind =>
          simp only [Dialogue.run]
          cases resolve callee s with
          | mk answer t =>
              cases answer with
              | error e => rfl
              | ok effect =>
                  simp only [Dialogue.run_ofExcept, called]
                  by_cases hm : CallSite.isMisplaced g.nodes
                      { loc := b.terminator.loc, callee, effect, args } destination = true
                  · simp only [if_pos hm]
                  · simp only [if_neg hm]
                    rfl
      | _ => rw [Dialogue.run_ofExcept]; rfl

end Visit

/-! ### The dialogue of a walk -/

namespace Walk

variable {σ : Type} {g : FunctionGraph} {cfg : Config} {resolve : Resolver σ}

/-- The visit of the block that an item has entered. -/
def enter (g : FunctionGraph) (cfg : Config) (j : Item) : Dialogue Visit :=
  Visit.dialogue g cfg ((g.block? j.block).getD default) j.state

/-- The walk of some items as a dialogue, item by item. -/
def conversation (g : FunctionGraph) (cfg : Config) :
    (budget : Nat) → List Item → Tally → Dialogue (Tally × Bool)
  | _, [], t => .done (t, true)
  | budget, i :: rest, t =>
    match enter? g cfg i with
    | none => conversation g cfg budget rest (t.cut 1)
    | some j =>
      match budget with
      | 0 => .done (t, false)
      | budget + 1 =>
        (enter g cfg j).bind fun v =>
          conversation g cfg budget (continuations g j v ++ rest) (t.add g v)
termination_by budget items => (budget, items.length)

/-- The walk of all paths as a dialogue. -/
def dialogue (g : FunctionGraph) (cfg : Config) : Dialogue Outcome :=
  (conversation g cfg cfg.visitBudget.toNat [start g] { ledger := { function := g.name } }).bind
    fun (t, complete) => .done (.ofTally g t complete)

theorem conversation_nil (budget : Nat) (t : Tally) :
    conversation g cfg budget [] t = .done (t, true) := by
  rw [conversation]

/-- An item that is cut asks nothing. -/
theorem conversation_cut {i : Item} (h : enter? g cfg i = none) (budget : Nat) (rest : List Item)
    (t : Tally) :
    conversation g cfg budget (i :: rest) t = conversation g cfg budget rest (t.cut 1) := by
  rw [conversation, h]

/-- Nor does one for which there is no budget. -/
theorem conversation_stop {i j : Item} (h : enter? g cfg i = some j) (rest : List Item)
    (t : Tally) : conversation g cfg 0 (i :: rest) t = .done (t, false) := by
  rw [conversation, h]

/-- An item that enters its block asks what the visit asks. -/
theorem conversation_visit {i j : Item} (h : enter? g cfg i = some j) (budget : Nat)
    (rest : List Item) (t : Tally) :
    conversation g cfg (budget + 1) (i :: rest) t =
      (enter g cfg j).bind fun v =>
        conversation g cfg budget (continuations g j v ++ rest) (t.add g v) := by
  rw [conversation, h]

/-- **A walk is a dialogue with its resolver.** -/
theorem explore_eq (budget : Nat) (items : List Item) (t : Tally) (s : σ) :
    explore g cfg resolve budget items t s =
      (conversation g cfg budget items t).run resolve s := by
  induction budget, items, t, s using explore_induct g cfg resolve with
  | nil budget t s =>
      rw [explore_nil, conversation_nil]
      rfl
  | cut budget i rest t s he ih => rw [explore_cut he, conversation_cut he, ih]
  | stop i j rest t s he =>
      rw [explore_stop he, conversation_stop he]
      rfl
  | fault budget i j rest t s e s' he hv =>
      rw [explore_fault he hv, conversation_visit he]
      rw [Visit.block_eq] at hv
      rw [enter, Dialogue.run_bind_of_error hv]
  | visit budget i j rest t s v s' he hv ih =>
      rw [explore_visit he hv, conversation_visit he, ih]
      rw [Visit.block_eq] at hv
      rw [enter, Dialogue.run_bind_of_ok hv]

/-- **A walk is the run of its dialogue.** -/
theorem run_eq (g : FunctionGraph) (cfg : Config) (resolve : Resolver σ) (s : σ) :
    run g cfg resolve s = (dialogue g cfg).run resolve s := by
  rw [run, dialogue, explore_eq]
  split
  case h_1 h =>
    rw [Dialogue.run_bind_of_ok h]
    rfl
  case h_2 h => rw [Dialogue.run_bind_of_error h]

end Walk

end Dangling
