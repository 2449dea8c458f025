import Dangling.Proofs.Path.Footprint

/-!
# Proofs — Path — Alarms

The alarms that a step raises.  No step looks at the alarms raised before it, so what it raises
depends on the state alone; and of all steps only a release raises a double free.

* `Progress.Blind`: a step that does not look back; statements and calls are such
  (`Progress.blind_statement`, `CallSite.blind_apply`).
* `Progress.doubleFrees`, `CallSite.doubleFrees_apply`: the double frees of a call are those of its
  releases.
-/

namespace Dangling

/-! ### Alarms of the past -/

namespace Progress

/-- Puts alarms before those raised. -/
def withPast (earlier : List Alarm) (p : Progress) : Progress :=
  { p with alarms := earlier ++ p.alarms }

@[simp] theorem state_withPast (earlier : List Alarm) (p : Progress) :
    (p.withPast earlier).state = p.state := rfl

/-- The step does not look at the alarms raised before it. -/
def Blind (f : Progress → Progress) : Prop :=
  ∀ earlier p, f (p.withPast earlier) = (f p).withPast earlier

variable {t : NodeTable}

/-- What a blind step raises comes after what was raised before. -/
theorem Blind.eq {f : Progress → Progress} (hf : Blind f) (p : Progress) :
    f p = (f { state := p.state }).withPast p.alarms := by
  rw [← hf]
  simp [withPast]

/-- The state after does not depend on the alarms before. -/
theorem Blind.state_eq {f : Progress → Progress} (hf : Blind f) (p : Progress) :
    (f p).state = (f { state := p.state }).state := by
  rw [hf.eq, state_withPast]

/-- One blind step after another. -/
theorem Blind.comp {f f' : Progress → Progress} (hf : Blind f) (hf' : Blind f') :
    Blind fun p => f' (f p) :=
  fun earlier p => (congrArg f' (hf earlier p)).trans (hf' earlier (f p))

/-- By the list. -/
theorem Blind.foldl {α : Type} {step : Progress → α → Progress}
    (h : ∀ x, Blind fun p => step p x) (xs : List α) : Blind fun p => xs.foldl step p := by
  induction xs with
  | nil => exact fun _ _ => rfl
  | cons x xs ih => exact (h x).comp ih

theorem blind_on (f : PathState → PathState) : Blind fun p => p.on f := fun _ _ => rfl

/-- An alarm is put behind the others, unseen. -/
theorem blind_raise (kind : Misuse) (id : NodeId) (loc : Location) (context : String) :
    Blind fun p => p.raise kind id loc context := fun earlier p => by
  simp [raise, withPast]

/-- A check looks at the state only. -/
theorem blind_checkUse (id : NodeId) (loc : Location) (context : String) :
    Blind (checkUse t id loc context) := fun earlier p => by
  rw [checkUse, checkUse, state_withPast]
  split
  · exact blind_raise _ _ _ _ earlier p
  · rfl

/-- So does the use of an operand. -/
theorem blind_useOperand (loc : Location) (context : String) (o : Operand) :
    Blind (useOperand t loc context o) := fun earlier p => by
  rw [useOperand, useOperand]
  split
  · rfl
  dsimp only
  split
  · exact blind_checkUse _ _ _ earlier p
  split
  · exact blind_checkUse _ _ _ earlier p
  split
  · rfl
  · exact blind_checkUse _ _ _ earlier p

/-- So does a release, whether it marks or raises. -/
theorem blind_release (id : NodeId) (loc : Location) (manual : Bool) (context : String) :
    Blind (release t id loc manual context) := fun earlier p => by
  rw [release, release, state_withPast]
  split
  · split
    · exact blind_raise _ _ _ _ earlier p
    · rfl
  · rfl

theorem blind_releaseOwned (id : NodeId) (loc : Location) (context : String) :
    Blind (releaseOwned t id loc context) := fun earlier p => by
  rw [releaseOwned, releaseOwned, state_withPast]
  split
  · exact blind_release _ _ _ _ earlier p
  · rfl

/-- One case for each right-hand side. -/
theorem blind_assignTo (loc : Location) (dest : NodeId) (r : Rvalue) :
    Blind fun p => assignTo t loc dest r p := by
  cases r <;> simp only [assignTo]
  case use o => exact (blind_useOperand loc _ o).comp (blind_on _)
  case ref mutable target => exact (blind_checkUse _ loc _).comp (blind_on _)
  case addressOf mutable target => exact blind_on _
  case aggregate items name =>
      exact (Blind.foldl (fun o => blind_useOperand loc _ o) items).comp (blind_on _)
  case binary op l r =>
      exact ((blind_useOperand loc _ l).comp (blind_useOperand loc _ r)).comp (blind_on _)
  case unary op o => exact (blind_useOperand loc _ o).comp (blind_on _)
  case cast o ty => exact (blind_useOperand loc _ o).comp (blind_on _)
  case inspect what target => exact (blind_checkUse _ loc _).comp (blind_on _)

/-- **Statements do not look back at alarms.** -/
theorem blind_statement (st : Statement) : Blind fun p => Progress.statement t p st := by
  intro earlier p
  dsimp only
  rw [Progress.statement, Progress.statement]
  cases st.kind with
  | storageLive _ | storageDead _ | nop => rfl
  | assign place r =>
    dsimp only
    rw [assign, assign]
    dsimp only
    split
    · exact (blind_checkUse _ _ _).comp (Blind.foldl
        (fun o => (blind_useOperand _ _ o).comp (blind_on _)) r.operands) earlier p
    · exact blind_assignTo _ _ _ earlier p

end Progress

namespace CallSite

variable {t : NodeTable} (c : CallSite)

theorem blind_use : Progress.Blind (c.use t) := by
  refine Progress.Blind.foldl (fun x earlier p => ?_) c.args.zipIdx
  dsimp only
  rw [useArg, useArg]
  split
  · rfl
  split
  · exact Progress.blind_checkUse _ _ _ earlier p
  · exact Progress.blind_useOperand _ _ _ earlier p

/-- Nor do the releases of a call. -/
theorem blind_drop : Progress.Blind (c.drop t) := by
  intro earlier p
  rw [drop_eq, drop_eq]
  exact Progress.Blind.foldl (fun x => Progress.blind_release x.1 c.loc x.2 _) (c.released t)
    earlier p

/-- **Nor does a call as a whole.** -/
theorem blind_apply (destination : Place) : Progress.Blind (c.apply t destination) := by
  intro earlier p
  have hdrop : Progress.Blind fun p => c.drop t (c.use t p) := c.blind_use.comp c.blind_drop
  have hmove := hdrop.comp (Progress.blind_on (c.move t)) earlier p
  rw [apply, apply]
  dsimp only at hmove ⊢
  rw [hmove]
  split
  · exact Progress.blind_checkUse _ _ _ earlier _
  · rfl

end CallSite

/-! ### Double frees -/

namespace Progress

/-- The number of double frees among the alarms. -/
def doubleFrees (p : Progress) : Nat := p.alarms.countP fun a => a.kind = .doubleFree

variable {t : NodeTable}

/-- A use is no release, so it raises no alarm about two. -/
theorem doubleFrees_checkUse (id : NodeId) (loc : Location) (context : String) (p : Progress) :
    (p.checkUse t id loc context).doubleFrees = p.doubleFrees := by
  rw [checkUse]
  split
  · simp [raise, doubleFrees]
  · rfl

theorem doubleFrees_useOperand (loc : Location) (context : String) (o : Operand) (p : Progress) :
    (p.useOperand t loc context o).doubleFrees = p.doubleFrees := by
  rw [useOperand]
  split
  · rfl
  dsimp only
  split
  · exact doubleFrees_checkUse _ _ _ p
  split
  · exact doubleFrees_checkUse _ _ _ p
  split
  · rfl
  · exact doubleFrees_checkUse _ _ _ p

/-- A release raises a double free exactly if the node is released already, and one of the two
releases is by hand. -/
theorem doubleFrees_release (id : NodeId) (loc : Location) (manual : Bool) (context : String)
    (p : Progress) :
    (p.release t id loc manual context).doubleFrees =
      p.doubleFrees + if p.state.isDropped id ∧ (manual ∨ p.state.isTainted id) then 1 else 0 := by
  rw [release]
  by_cases hd : p.state.isDropped id = true
  · by_cases hm : (manual || p.state.isTainted id) = true
    · rw [if_pos hd, if_pos hm, if_pos ⟨hd, by simpa using hm⟩]
      simp [raise, doubleFrees]
    · rw [if_pos hd, if_neg hm, if_neg fun h => hm (by simpa using h.2)]
      rfl
  · rw [if_neg hd, if_neg fun h => hd h.1]
    rfl

end Progress

namespace CallSite

variable {t : NodeTable}

/-- By the arguments one after the other. -/
theorem doubleFrees_use (c : CallSite) (p : Progress) :
    (c.use t p).doubleFrees = p.doubleFrees := by
  refine List.foldlRecOn (motive := fun q : Progress => q.doubleFrees = p.doubleFrees) _ _ rfl
    fun q hq x _ => ?_
  rw [← hq, useArg]
  split
  · rfl
  split
  · exact Progress.doubleFrees_checkUse _ _ _ q
  · exact Progress.doubleFrees_useOperand _ _ _ q

/-- The double frees of a call are those of its releases. -/
theorem doubleFrees_apply (c : CallSite) (destination : Place) (p : Progress) :
    (c.apply t destination p).doubleFrees = (c.drop t (c.use t p)).doubleFrees := by
  rw [apply]
  dsimp only
  split
  · exact Progress.doubleFrees_checkUse _ _ _ _
  · rfl

end CallSite

end Dangling
