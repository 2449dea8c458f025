import Dangling.Path.Call

/-!
# Proofs — Path — Values

What is known of values on a path depends on values alone.  Ownership, fates, taint and alias classes
change from call to call with what is known of callees, but no value comes from them: two states with
the same values have the same values after every statement, and after every call, whatever is known
of the callee.  So where a path goes does not depend on its callees.

* `Progress.values_statement`, `CallSite.values_apply`: the same values lead to the same values.
-/

namespace Dangling

/-! ### States -/

namespace PathState

variable {s s' : PathState} {t : NodeTable}

/-- Steps that keep the values keep them together. -/
theorem values_foldl {α : Type} {step : PathState → α → PathState}
    (hstep : ∀ s a, (step s a).values = s.values) (xs : List α) (s : PathState) :
    (xs.foldl step s).values = s.values :=
  List.foldlRecOn (motive := fun u : PathState => u.values = s.values) xs _ rfl
    fun u hu a _ => (hstep u a).trans hu

@[simp] theorem values_update (s : PathState) (id : NodeId) (f : NodeState → NodeState) :
    (s.update id f).values = s.values := rfl

@[simp] theorem values_updateAll (s : PathState) (ids : List NodeId) (f : NodeState → NodeState) :
    (s.updateAll ids f).values = s.values :=
  values_foldl (fun u id => values_update u id f) ids s

@[simp] theorem values_setOwned (s : PathState) (id : NodeId) (owned : Bool) :
    (s.setOwned id owned).values = s.values := rfl

/-- Classes and values are told apart: a join touches no value. -/
@[simp] theorem values_join (s : PathState) (a b : NodeId) : (s.join a b).values = s.values := by
  simp [join]

@[simp] theorem values_taint (s : PathState) (id : NodeId) : (s.taint id).values = s.values := by
  simp [taint]

/-- A drop leaves the values of what it releases. -/
@[simp] theorem values_markDropped (s : PathState) (ids : List NodeId) (origin : NodeId)
    (loc : Option Location) (manual : Bool) :
    (s.markDropped ids origin loc manual).values = s.values := by
  simp [markDropped]

/-- Nor is a value forgotten when it is moved out. -/
@[simp] theorem values_loseOwnership (s : PathState) (id : NodeId) :
    (s.loseOwnership t id).values = s.values := by
  simp [loseOwnership]

@[simp] theorem values_ownByType (s : PathState) (id : NodeId) :
    (s.ownByType t id).values = s.values :=
  values_foldl (fun u n => values_setOwned u n _) _ s

/-- To choose an owner changes no value. -/
@[simp] theorem values_ownAs (s : PathState) (id : NodeId) (owned : Option Bool) :
    (s.ownAs t id owned).values = s.values := by
  cases owned with
  | none => exact values_ownByType s id
  | some b => exact values_foldl (fun u n => values_setOwned u n _) _ s

/-- What is known of a node is read off the values. -/
theorem known_congr (h : s.values = s'.values) (id : NodeId) : s.known id = s'.known id := by
  rw [known, known, h]

/-- A node that is forgotten has no value, and the others keep theirs. -/
theorem known_forget (s : PathState) (id n : NodeId) :
    (s.forget id).known n = if n = id then none else s.known n := by
  have hvalues : (s.forget id).values = s.values.filter fun x => x.1 ≠ id := by
    simp [forget, forgetValue]
  rw [known, hvalues, known]
  induction s.values with
  | nil => simp
  | cons x xs ih =>
      obtain ⟨m, v⟩ := x
      by_cases e : m = id
      · rw [List.filter_cons_of_neg (by simp [e]), ih, List.lookup_cons, e]
        by_cases hn : n = id
        · rw [if_pos hn, if_pos hn]
        · rw [if_neg hn, if_neg hn, beq_false_of_ne hn]
      · rw [List.filter_cons_of_pos (by simp [e]), List.lookup_cons, List.lookup_cons, ih]
        by_cases hn : n = id
        · rw [if_pos hn, if_pos hn, beq_false_of_ne fun h => e (h.symm.trans hn)]
        · rw [if_neg hn, if_neg hn]

/-- An overwritten subtree has no values. -/
theorem known_kill (s : PathState) (ids : List NodeId) (n : NodeId) :
    (s.kill ids).known n = if n ∈ ids then none else s.known n := by
  induction ids generalizing s with
  | nil => rfl
  | cons id ids ih =>
      have hstep : s.kill (id :: ids) = (s.forget id).kill ids := rfl
      rw [hstep, ih, known_forget]
      by_cases hn : n = id <;> by_cases hmem : n ∈ ids <;> simp [hn, hmem]

/-- The last value that was set is the one known. -/
theorem known_setKnown (s : PathState) (id : NodeId) (v : Scalar) (n : NodeId) :
    (s.setKnown id v).known n = if n = id then some v else s.known n := by
  by_cases hn : n = id
  · simp [known, setKnown, hn]
  · have hne : (n == id) = false := by simpa using hn
    have hforget := known_forget s id n
    have hvalues : (s.forget id).values = (s.forgetValue id).values := by simp [forget, forgetValue]
    rw [known, hvalues, if_neg hn] at hforget
    rw [known, setKnown, List.lookup_cons, hne, if_neg hn]
    exact hforget

/-- Operands are evaluated by the values alone. -/
theorem valueOf_congr (h : s.values = s'.values) (o : Operand) : s.valueOf t o = s'.valueOf t o := by
  simp only [valueOf, known_congr h]

/-- A value is set in the same way whatever else the states hold. -/
theorem values_setKnown?_congr (h : s.values = s'.values) (id : NodeId) (v : Option Scalar) :
    (s.setKnown? id v).values = (s'.setKnown? id v).values := by
  cases v with
  | none => exact h
  | some v => simp only [setKnown?, setKnown, forgetValue, h]

/-- What a fold of steps makes of two states with the same values. -/
theorem values_foldl_congr {α : Type} {step step' : PathState → α → PathState}
    (hstep : ∀ u u' a, u.values = u'.values → (step u a).values = (step' u' a).values)
    (xs : List α) (h : s.values = s'.values) :
    (xs.foldl step s).values = (xs.foldl step' s').values := by
  induction xs generalizing s s' with
  | nil => exact h
  | cons a xs ih => exact ih (hstep s s' a h)

/-- What an overwriting forgets depends on the table only. -/
theorem values_overwrite_congr (h : s.values = s'.values) (id : NodeId) :
    (s.overwrite t id).values = (s'.overwrite t id).values := by
  refine values_foldl_congr (fun u u' n hu => ?_) _ h
  simp only [forget, forgetValue, values_update, values_updateAll, hu]

/-- A moved node takes its value along. -/
theorem values_moveNode_congr (h : s.values = s'.values) (dest src : NodeId) :
    (s.moveNode dest src).values = (s'.moveNode dest src).values := by
  have hsame : ∀ f f' : NodeState → NodeState,
      ((s.update dest f).join dest src).values = ((s'.update dest f').join dest src).values :=
    fun f f' => by simpa using h
  rw [moveNode, moveNode, values_update, values_update, known_congr (hsame _ _)]
  exact values_setKnown?_congr (hsame _ _) dest _

/-- By induction on the depth: so do the fields below it. -/
theorem values_moveWithin_congr (depth : Nat) (h : s.values = s'.values) (dest src : NodeId) :
    (s.moveWithin t depth dest src).values = (s'.moveWithin t depth dest src).values := by
  induction depth generalizing s s' dest src with
  | zero => exact values_moveNode_congr h dest src
  | succ depth ih =>
      refine values_foldl_congr (fun u u' x hu => ?_) _ (values_moveNode_congr h dest src)
      dsimp only
      cases t.child? src x.1 with
      | none => exact hu
      | some c => exact ih hu x.2 c

/-- The case of all fields. -/
theorem values_moveInto_congr (h : s.values = s'.values) (dest src : NodeId) :
    (s.moveInto t dest src).values = (s'.moveInto t dest src).values :=
  values_moveWithin_congr maxFieldDepth h dest src

/-- Which branch a stored operand takes is told by the table and the operand. -/
theorem values_storeOperand_congr (h : s.values = s'.values) (dest : NodeId) (o : Operand) :
    (s.storeOperand t dest o).values = (s'.storeOperand t dest o).values := by
  have hover := values_overwrite_congr (t := t) h dest
  simp only [storeOperand]
  split
  · exact values_setKnown?_congr hover dest _
  · split
    · split
      · simpa using hover
      · simpa using hover
    · split
      · exact h
      · split
        · exact values_moveInto_congr hover dest _
        · split
          · simpa using hover
          · rw [known_congr h]
            exact values_setKnown?_congr hover dest _

/-- The same for an operand that fills a field of an aggregate. -/
theorem values_fillField_congr (h : s.values = s'.values) (child : NodeId) (o : Operand) :
    (s.fillField t child o).values = (s'.fillField t child o).values := by
  simp only [fillField]
  split
  · exact values_setKnown?_congr h child _
  · split
    · simpa using h
    · split
      · exact values_moveInto_congr h child _
      · split
        · simpa using h
        · exact h

/-- An aggregate without a node for the field learns no value. -/
@[simp] theorem values_fillWhole (s : PathState) (dest : NodeId) (o : Operand) :
    (s.fillWhole t dest o).values = s.values := by
  simp only [fillWhole]
  split
  · rfl
  · split
    · rfl
    · split
      · rw [values_loseOwnership, values_join]
        split <;> rfl
      · split
        · simp
        · rfl

/-- By induction on the operands. -/
theorem values_fill_congr (h : s.values = s'.values) (dest : NodeId) (items : List Operand)
    (children : List NodeId) :
    (s.fill t dest items children).values = (s'.fill t dest items children).values := by
  induction items generalizing s s' children with
  | nil => exact h
  | cons o os ih =>
      cases children with
      | nil => exact ih (by simpa using h) []
      | cons child children => exact ih (values_fillField_congr h child o) children

/-- A cast keeps a value if its type has values at all. -/
theorem values_storeCast_congr (h : s.values = s'.values) (dest : NodeId) (o : Operand) (ty : Ty) :
    (s.storeCast t dest o ty).values = (s'.storeCast t dest o ty).values := by
  have hover := values_overwrite_congr (t := t) h dest
  simp only [storeCast, valueOf_congr h]
  split
  · exact values_setKnown?_congr hover dest _
  · split
    · exact hover
    · split
      · -- whether the source owns its memory decides who owns it now, and no value
        have hown : ∀ (u : PathState) (c : Bool) (src : NodeId),
            (if c then (u.setOwned dest true).loseOwnership t src else u).values = u.values :=
          fun u c src => by cases c <;> simp
        rw [hown, hown, values_join, values_join]
        exact hover
      · exact values_setKnown?_congr hover dest _

/-- The term of an operand is made from its value, or else from its node. -/
theorem termOf_congr (h : s.values = s'.values) (side : String) (o : Operand) :
    s.termOf t side o = s'.termOf t side o := by
  simp only [termOf, valueOf_congr h]

/-- A computed value is stored in what was overwritten. -/
theorem values_storeValue_congr (h : s.values = s'.values) (dest : NodeId) (v : Option Scalar) :
    (s.storeValue t dest v).values = (s'.storeValue t dest v).values :=
  values_setKnown?_congr (values_overwrite_congr h dest) dest v

/-- An address has no value. -/
theorem values_storeAddress_congr (h : s.values = s'.values) (dest : NodeId) (target : Place) :
    (s.storeAddress t dest target).values = (s'.storeAddress t dest target).values := by
  simpa [storeAddress] using values_overwrite_congr (t := t) h dest

@[simp] theorem values_takeMoved (s : PathState) (o : Operand) :
    (s.takeMoved t o).values = s.values := by
  cases o with
  | move place =>
      simp only [takeMoved]
      split
      · rfl
      · simp
  | _ => rfl

end PathState

/-! ### Statements -/

namespace Progress

variable {t : NodeTable} {p p' : Progress}

/-- A check raises alarms and leaves the state. -/
@[simp] theorem values_checkUse (p : Progress) (id : NodeId) (loc : Location) (context : String) :
    (p.checkUse t id loc context).state.values = p.state.values := by
  rw [checkUse]
  split <;> rfl

@[simp] theorem values_useOperand (p : Progress) (loc : Location) (context : String) (o : Operand) :
    (p.useOperand t loc context o).state.values = p.state.values := by
  rw [useOperand]
  split
  · rfl
  · dsimp only
    split
    · simp
    · split
      · simp
      · split
        · rfl
        · simp

/-- Neither does a release change values, whichever of its branches is taken. -/
@[simp] theorem values_release (p : Progress) (id : NodeId) (loc : Location) (manual : Bool)
    (context : String) : (p.release t id loc manual context).state.values = p.state.values := by
  rw [release]
  split
  · split <;> rfl
  · exact PathState.values_markDropped ..

@[simp] theorem values_releaseOwned (p : Progress) (id : NodeId) (loc : Location)
    (context : String) : (p.releaseOwned t id loc context).state.values = p.state.values := by
  rw [releaseOwned]
  split
  · simp
  · rfl

/-- Steps that keep the values keep them together. -/
theorem values_foldl {α : Type} {step : Progress → α → Progress}
    (hstep : ∀ p a, (step p a).state.values = p.state.values) (xs : List α) (p : Progress) :
    (xs.foldl step p).state.values = p.state.values :=
  List.foldlRecOn (motive := fun q : Progress => q.state.values = p.state.values) xs _ rfl
    fun q hq a _ => (hstep q a).trans hq

/-- Through a pointer no value is written: constants behind it stay as they are. -/
theorem values_assignThrough (loc : Location) (dest : NodeId) (r : Rvalue) (p : Progress) :
    (p.assignThrough t loc dest r).state.values = p.state.values := by
  rw [assignThrough, values_foldl fun q o => by simp [on], values_checkUse]

/-- One case for each right-hand side: the values before decide the values after. -/
theorem values_assignTo_congr (h : p.state.values = p'.state.values) (loc : Location)
    (dest : NodeId) (r : Rvalue) :
    (p.assignTo t loc dest r).state.values = (p'.assignTo t loc dest r).state.values := by
  have hused : ∀ context o, (p.useOperand t loc context o).state.values =
      (p'.useOperand t loc context o).state.values := fun context o => by
    rw [values_useOperand, values_useOperand, h]
  have hchecked : ∀ id context, (p.checkUse t id loc context).state.values =
      (p'.checkUse t id loc context).state.values := fun id context => by
    rw [values_checkUse, values_checkUse, h]
  cases r with
  | use o =>
      simp only [assignTo, on]
      exact PathState.values_storeOperand_congr (hused _ o) dest o
  | ref _ target =>
      simp only [assignTo, on]
      exact PathState.values_storeAddress_congr (hchecked _ _) dest target
  | addressOf _ target =>
      simp only [assignTo, on]
      exact PathState.values_storeAddress_congr h dest target
  | aggregate items _ =>
      have hitems : ∀ q : Progress, (items.foldl (fun q o =>
          q.useOperand t loc "aggregate field" o) q).state.values = q.state.values :=
        values_foldl (fun q o => values_useOperand q loc _ o) items
      have hover := PathState.values_overwrite_congr (t := t)
        ((hitems p).trans (h.trans (hitems p').symm)) dest
      simp only [assignTo, on]
      exact PathState.values_fill_congr hover dest items _
  | cast o ty =>
      simp only [assignTo, on]
      exact PathState.values_storeCast_congr (hused _ o) dest o ty
  | binary op l r =>
      have hboth : ((p.useOperand t loc "operand" l).useOperand t loc "operand" r).state.values =
          ((p'.useOperand t loc "operand" l).useOperand t loc "operand" r).state.values := by
        simpa using h
      simp only [assignTo, on]
      split
      · split
        · exact PathState.values_storeAddress_congr hboth dest _
        · exact PathState.values_overwrite_congr hboth dest
      · simp only [PathState.foldBinary, PathState.termOf_congr hboth]
        exact PathState.values_storeValue_congr hboth dest _
  | unary op o =>
      simp only [assignTo, on, PathState.foldUnary, PathState.termOf_congr (hused _ o)]
      exact PathState.values_storeValue_congr (hused _ o) dest _
  | inspect what target =>
      simp only [assignTo, on]
      exact PathState.values_overwrite_congr (hchecked _ _) dest

/-- So they do for a statement. -/
theorem values_statement (h : p.state.values = p'.state.values) (st : Statement) :
    (p.statement t st).state.values = (p'.statement t st).state.values := by
  simp only [statement]
  split
  · simp only [assign]
    split
    · rw [values_assignThrough, values_assignThrough, h]
    · exact values_assignTo_congr h _ _ _
  · exact h

/-- **The same values before some statements are the same values after them.** -/
theorem values_statements (h : p.state.values = p'.state.values) (sts : List Statement) :
    (sts.foldl (statement t) p).state.values = (sts.foldl (statement t) p').state.values := by
  induction sts generalizing p p' with
  | nil => exact h
  | cons st sts ih => exact ih (values_statement h st)

end Progress

/-! ### Calls -/

namespace CallSite

variable {t : NodeTable}

/-- Arguments are used without a change of values. -/
theorem values_use (c : CallSite) (p : Progress) :
    (c.use t p).state.values = p.state.values := by
  refine Progress.values_foldl (fun q arg => ?_) _ p
  rw [useArg]
  split
  · rfl
  · split <;> simp

/-- They are released without one. -/
theorem values_drop (c : CallSite) (p : Progress) :
    (c.drop t p).state.values = p.state.values := by
  rw [drop]
  split
  · rfl
  · exact Progress.values_foldl (fun q x => Progress.values_release q ..) _ p
  · refine Progress.values_foldl (fun q d => ?_) _ p
    rw [dropSlot]
    split
    · rfl
    · split
      · simp
      · rfl

/-- And moved without one. -/
theorem values_move (c : CallSite) (s : PathState) : (c.move t s).values = s.values := by
  refine PathState.values_foldl (fun u x => ?_) _ s
  dsimp only
  split
  · split
    · exact PathState.values_loseOwnership u _
    · rfl
  · rfl

/-- The classes that a call joins leave the values. -/
theorem values_link (c : CallSite) (dest : NodeId) (s : PathState) :
    (c.link t dest s).values = s.values := by
  rw [link]
  split
  · rfl
  · have hjoin : ∀ (u : PathState) (i : Int), (c.joinArg t dest u i).values = u.values :=
      fun u i => by
        rw [joinArg]
        split <;> simp
    have hown : ∀ (u : PathState) (i : Int), (c.reconstruct t dest u i).values = u.values :=
      fun u i => by
        rw [reconstruct]
        split <;> simp
    rw [PathState.values_foldl hown, PathState.values_foldl hjoin]
  · refine PathState.values_foldl (fun u pair => ?_) _ s
    rw [joinSlots]
    split
    · split <;> simp
    · rfl

/-- **The values after a call are the same, whatever is known of the callee.** -/
theorem values_apply {p p' : Progress} (h : p.state.values = p'.state.values) (c c' : CallSite)
    (destination : Place) :
    (c.apply t destination p).state.values = (c'.apply t destination p').state.values := by
  have hmoved : ∀ (c : CallSite) (p : Progress),
      (c.move t (c.drop t (c.use t p)).state).values = p.state.values := fun c p => by
    rw [values_move, values_drop, values_use]
  have hsame := (hmoved c p).trans (h.trans (hmoved c' p').symm)
  simp only [apply]
  split
  · rw [Progress.values_checkUse, Progress.values_checkUse]
    exact hsame
  · simp only [Progress.on, values_link, store, PathState.values_ownAs]
    exact PathState.values_overwrite_congr hsame _

end CallSite

end Dangling
