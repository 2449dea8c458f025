import Dangling.Path.Call

/-!
# Proofs — Path — Untainted

Memory that is never handled by hand raises no alarm.  Taint has two sources, a release by hand and a
new owner for old memory, and both are effects of callees: statements, joins and moves hand taint on,
but make none.  So a path on which all callees are harmless (`CalleeEffect.Harmless`) stays untainted,
and an untainted path is silent, since only tainted memory raises alarms.

* `PathState.Untainted`, kept by every operation on states.
* `Progress.Quiet`: untainted and without alarms; kept by statements.
* `CallSite.quiet_apply`: kept by calls of harmless callees.
-/

namespace Dangling

/-! ### States -/

namespace PathState

/-- No memory was handled by hand. -/
def Untainted (s : PathState) : Prop := ∀ n ∈ s.nodes, n.tainted = false

variable {s : PathState} {t : NodeTable}

theorem Untainted.node (h : s.Untainted) (id : NodeId) : (s.node id).tainted = false := by
  rw [PathState.node, Array.getD]
  split
  · exact h _ (Array.getElem_mem _)
  · rfl

/-- Neither the node nor the one that released it was handled by hand. -/
theorem Untainted.isTainted (h : s.Untainted) (id : NodeId) : s.isTainted id = false := by
  rw [PathState.isTainted, h.node, Bool.false_or]
  split
  · exact h.node _
  · rfl

/-- At the entry nothing was handled by hand. -/
theorem untainted_initial (n : Nat) : Untainted (.initial n) := by
  intro m hm
  obtain ⟨i, -, rfl⟩ := List.mem_map.mp (List.mem_toArray.mp hm)
  rfl

/-- A change of nodes that taints none. -/
theorem Untainted.update (h : s.Untainted) {f : NodeState → NodeState}
    (hf : ∀ n, n.tainted = false → (f n).tainted = false) (id : NodeId) :
    (s.update id f).Untainted := by
  intro n hn
  obtain ⟨i, hi, rfl⟩ := Array.mem_iff_getElem.mp hn
  simp only [PathState.update, Array.size_modify] at hi
  simp only [PathState.update, Array.getElem_modify]
  split
  · exact hf _ (h _ (Array.getElem_mem _))
  · exact h _ (Array.getElem_mem _)

/-- A change that taints no node taints no state. -/
theorem Untainted.updateAll (h : s.Untainted) {f : NodeState → NodeState}
    (hf : ∀ n, n.tainted = false → (f n).tainted = false) (ids : List NodeId) :
    (s.updateAll ids f).Untainted :=
  List.foldlRecOn ids _ h fun _ hs id _ => hs.update hf id

theorem Untainted.setOwned (h : s.Untainted) (id : NodeId) (owned : Bool) :
    (s.setOwned id owned).Untainted := by
  rw [PathState.setOwned]
  refine h.update (fun n hn => ?_) id
  exact hn

theorem Untainted.setKnown? (h : s.Untainted) (id : NodeId) (v : Option Scalar) :
    (s.setKnown? id v).Untainted := by
  cases v with
  | none => exact h
  | some v => exact h

/-- Where no member of the two classes is tainted, none is afterwards. -/
theorem Untainted.join (h : s.Untainted) (a b : NodeId) : (s.join a b).Untainted := by
  have hany : ((s.merged a b).any fun n => (s.node n).tainted) = false :=
    List.any_eq_false.mpr fun n _ => by rw [h.node n]; exact Bool.false_ne_true
  rw [PathState.join]
  refine h.updateAll (fun n hn => ?_) _
  rw [hn, hany]
  rfl

/-- What is forgotten starts anew, without a taint. -/
theorem Untainted.forget (h : s.Untainted) (id : NodeId) : (s.forget id).Untainted := by
  have hothers := h.updateAll (f := fun n => { n with aliases := n.aliases.filter (· ≠ id) })
    (fun _ hn => hn) ((s.aliases id).filter (· ≠ id))
  exact hothers.update (f := fun _ => .fresh id) (fun _ _ => rfl) id

theorem Untainted.overwrite (h : s.Untainted) (id : NodeId) : (s.overwrite t id).Untainted :=
  List.foldlRecOn _ _ h fun _ hs id _ => hs.forget id

/-- A drop at the end of a scope is not one by hand. -/
theorem Untainted.markDropped (h : s.Untainted) (ids : List NodeId) (origin : NodeId)
    (loc : Option Location) : (s.markDropped ids origin loc false).Untainted :=
  h.updateAll (fun n hn => by rw [hn]; rfl) ids

/-- A moved value leaves no taint behind. -/
theorem Untainted.loseOwnership (h : s.Untainted) (id : NodeId) :
    (s.loseOwnership t id).Untainted := by
  rw [PathState.loseOwnership]
  refine h.updateAll (fun n hn => ?_) _
  exact hn

/-- Ownership and taint are told apart. -/
theorem Untainted.ownByType (h : s.Untainted) (id : NodeId) : (s.ownByType t id).Untainted :=
  List.foldlRecOn _ _ h fun _ hs n _ => hs.setOwned n _

theorem Untainted.ownAs (h : s.Untainted) (id : NodeId) (owned : Option Bool) :
    (s.ownAs t id owned).Untainted := by
  cases owned with
  | none => exact h.ownByType id
  | some b => exact List.foldlRecOn _ _ h fun _ hs n _ => hs.setOwned n _

/-- A move takes the taint along, and there is none. -/
theorem Untainted.moveNode (h : s.Untainted) (dest src : NodeId) :
    (s.moveNode dest src).Untainted := by
  rw [PathState.moveNode]
  refine Untainted.update (.setKnown? (.join (.update h (fun n _ => ?_) dest) dest src) dest _)
    (fun n hn => ?_) src
  · exact h.node src
  · exact hn

/-- By induction on the depth of the fields. -/
theorem Untainted.moveWithin (depth : Nat) :
    ∀ {s : PathState}, s.Untainted → ∀ dest src, (s.moveWithin t depth dest src).Untainted := by
  induction depth with
  | zero => exact fun h dest src => h.moveNode dest src
  | succ depth ih =>
      intro s h dest src
      rw [PathState.moveWithin]
      refine List.foldlRecOn _ _ (h.moveNode dest src) fun s hs c _ => ?_
      dsimp only
      split
      · exact ih hs _ _
      · exact hs

/-! ### Assignments -/

/-- Whichever way an operand is stored, it brings no taint. -/
theorem Untainted.storeOperand (h : s.Untainted) (dest : NodeId) (o : Operand) :
    (s.storeOperand t dest o).Untainted := by
  have hover := h.overwrite (t := t) dest
  rw [PathState.storeOperand]
  split
  · exact hover.setKnown? _ _
  dsimp only
  split
  · split
    · exact hover.join _ _
    · exact hover.ownByType _
  split
  · exact h
  split
  · exact .moveWithin _ hover _ _
  split
  · exact hover.join _ _
  · exact hover.setKnown? _ _

/-- Nor does it in a field of an aggregate. -/
theorem Untainted.fillField (h : s.Untainted) (child : NodeId) (o : Operand) :
    (s.fillField t child o).Untainted := by
  rw [PathState.fillField]
  split
  · exact h.setKnown? _ _
  dsimp only
  split
  · exact h.ownByType _
  split
  · exact .moveWithin _ h _ _
  split
  · exact h.join _ _
  · exact h

/-- Nor in an aggregate without a node for the field. -/
theorem Untainted.fillWhole (h : s.Untainted) (dest : NodeId) (o : Operand) :
    (s.fillWhole t dest o).Untainted := by
  rw [PathState.fillWhole]
  split
  · exact h
  dsimp only
  split
  · exact h
  split
  · refine Untainted.loseOwnership (Untainted.join ?_ _ _) _
    split
    · exact h.setOwned _ _
    · exact h
  split
  · exact h.join _ _
  · exact h

/-- By induction on the operands. -/
theorem Untainted.fill (dest : NodeId) (os : List Operand) :
    ∀ {s : PathState}, s.Untainted → ∀ children, (fill t dest s os children).Untainted := by
  induction os with
  | nil =>
      intro s h children
      rw [PathState.fill]
      exact h
  | cons o os ih =>
      intro s h children
      cases children with
      | nil => exact ih (h.fillWhole dest o) []
      | cons child children => exact ih (h.fillField child o) children

/-- A cast joins classes without a taint. -/
theorem Untainted.storeCast (h : s.Untainted) (dest : NodeId) (o : Operand) (ty : Ty) :
    (s.storeCast t dest o ty).Untainted := by
  have hover := h.overwrite (t := t) dest
  rw [PathState.storeCast]
  split
  · exact hover.setKnown? _ _
  dsimp only
  split
  · exact hover
  split
  · split
    · exact ((hover.join _ _).setOwned _ _).loseOwnership _
    · exact hover.join _ _
  · exact hover.setKnown? _ _

theorem Untainted.storeValue (h : s.Untainted) (dest : NodeId) (v : Option Scalar) :
    (s.storeValue t dest v).Untainted :=
  (h.overwrite dest).setKnown? dest v

theorem Untainted.storeAddress (h : s.Untainted) (dest : NodeId) (target : Place) :
    (s.storeAddress t dest target).Untainted :=
  (h.overwrite dest).join dest _

/-- What is moved through a pointer leaves no taint either. -/
theorem Untainted.takeMoved (h : s.Untainted) (o : Operand) : (s.takeMoved t o).Untainted := by
  cases o with
  | move place =>
      simp only [PathState.takeMoved]
      split
      · exact h
      · exact h.loseOwnership _
  | copy place => exact h
  | constant value ty => exact h

end PathState

/-! ### Progress -/

namespace Progress

/-- Nothing was handled by hand, and no alarm was raised. -/
structure Quiet (p : Progress) : Prop where
  untainted : p.state.Untainted
  silent : p.alarms = []

variable {p : Progress} {t : NodeTable} {loc : Location} {context : String}

/-- A change of the state raises no alarm. -/
theorem Quiet.on (h : p.Quiet) {f : PathState → PathState} (hf : (f p.state).Untainted) :
    (p.on f).Quiet :=
  ⟨hf, h.silent⟩

/-- Untainted memory is used without alarm. -/
theorem checkUse_of_untainted (h : p.state.Untainted) (id : NodeId) :
    p.checkUse t id loc context = p := by
  have hnone : ((t.subtree id).find? fun n => p.state.isDropped n && p.state.isTainted n) = none :=
    List.find?_eq_none.mpr fun n _ => by simp [h.isTainted n]
  rw [checkUse, hnone]

/-- Without a taint a use raises no alarm, so it does nothing. -/
theorem useOperand_of_untainted (h : p.state.Untainted) (o : Operand) :
    p.useOperand t loc context o = p := by
  rw [useOperand]
  split
  · rfl
  dsimp only
  split
  · exact checkUse_of_untainted h _
  split
  · exact checkUse_of_untainted h _
  split
  · rfl
  · exact checkUse_of_untainted h _

/-- Untainted memory may be released twice without alarm, unless by hand. -/
theorem Quiet.release (h : p.Quiet) (id : NodeId) : (p.release t id loc false context).Quiet := by
  rw [Progress.release]
  split
  · rw [h.untainted.isTainted, Bool.or_false, if_neg Bool.false_ne_true]
    exact h
  · exact h.on (h.untainted.markDropped _ _ _)

/-- A write through a pointer uses and moves its operands, and that is all. -/
theorem Quiet.assignThrough (h : p.Quiet) (dest : NodeId) (r : Rvalue) :
    (p.assignThrough t loc dest r).Quiet := by
  rw [Progress.assignThrough, checkUse_of_untainted h.untainted]
  refine List.foldlRecOn _ _ h fun p hp o _ => ?_
  rw [useOperand_of_untainted hp.untainted]
  exact hp.on (hp.untainted.takeMoved o)

/-- One case for each right-hand side. -/
theorem Quiet.assignTo (h : p.Quiet) (dest : NodeId) (r : Rvalue) :
    (p.assignTo t loc dest r).Quiet := by
  have hs := h.untainted
  cases r with
  | use o =>
      rw [Progress.assignTo, useOperand_of_untainted hs]
      exact h.on (hs.storeOperand _ _)
  | ref mutable target =>
      rw [Progress.assignTo, checkUse_of_untainted hs]
      exact h.on (hs.storeAddress _ _)
  | addressOf mutable target =>
      rw [Progress.assignTo]
      exact h.on (hs.storeAddress _ _)
  | aggregate items name =>
      have hitems : items.foldl (fun p o => p.useOperand t loc "aggregate field" o) p = p := by
        induction items with
        | nil => rfl
        | cons o items ih => rw [List.foldl_cons, useOperand_of_untainted hs, ih]
      rw [Progress.assignTo, hitems]
      exact h.on (.fill _ _ (hs.overwrite _) _)
  | binary op l r =>
      rw [Progress.assignTo, useOperand_of_untainted hs, useOperand_of_untainted hs]
      refine h.on ?_
      split
      · split
        · exact hs.storeAddress _ _
        · exact hs.overwrite _
      · exact hs.storeValue _ _
  | unary op o =>
      rw [Progress.assignTo, useOperand_of_untainted hs]
      exact h.on (hs.storeValue _ _)
  | cast o ty =>
      rw [Progress.assignTo, useOperand_of_untainted hs]
      exact h.on (hs.storeCast _ _ _)
  | inspect what target =>
      rw [Progress.assignTo, checkUse_of_untainted hs]
      exact h.on (hs.overwrite _)

/-- **Statements alone raise no alarm.** -/
theorem Quiet.statement (h : p.Quiet) (st : Statement) : (Progress.statement t p st).Quiet := by
  rw [Progress.statement]
  split
  · rw [Progress.assign]
    split
    split
    · exact h.assignThrough _ _
    · exact h.assignTo _ _
  · exact h

end Progress

/-! ### Calls -/

/-- The callee handles no memory by hand. -/
def CalleeEffect.Harmless : CalleeEffect → Prop
  | .unknown => True
  | .modelled m => m.isIntervention = false
  | .summarised s => ∀ d ∈ s.dropped, d.manual = false

/-- A model that is no intervention releases nothing by hand, and makes no new owners. -/
theorem Model.not_intervention {m : Model} (h : m.isIntervention = false) :
    (m.drops = [] ∨ m.manual = false) ∧ m.reconstructs = [] := by
  simpa [isIntervention, isDrop, isReconstruction, Decidable.or_iff_not_imp_left] using h

namespace CallSite

variable {c : CallSite} {t : NodeTable} {p : Progress} {s : PathState}

/-- The arguments of a call are used without an alarm. -/
theorem use_of_untainted (h : p.state.Untainted) : c.use t p = p := by
  rw [use]
  induction c.args.zipIdx with
  | nil => rfl
  | cons arg args ih =>
      have harg : c.useArg t p arg = p := by
        rw [useArg]
        split
        · rfl
        split
        · exact Progress.checkUse_of_untainted h _
        · exact Progress.useOperand_of_untainted h _
      rw [List.foldl_cons, harg, ih]

/-- A callee that releases nothing by hand releases only what nobody has released. -/
theorem quiet_drop (h : p.Quiet) (hc : c.effect.Harmless) : (c.drop t p).Quiet := by
  rw [drop]
  split
  case h_1 => exact h
  case h_2 m he =>
    rw [he] at hc
    rcases (Model.not_intervention hc).1 with hd | hm
    · rw [modelDrops, hd]
      exact h
    · rw [hm]
      exact List.foldlRecOn _ _ h fun p hp x _ => hp.release x.2
  case h_3 summary he =>
    rw [he] at hc
    refine List.foldlRecOn _ _ h fun p hp d hd => ?_
    rw [dropSlot, hc d hd]
    split
    · exact hp
    split
    · exact hp.release _
    · exact hp

/-- Moved arguments leave no taint. -/
theorem untainted_move (h : s.Untainted) : (c.move t s).Untainted := by
  refine List.foldlRecOn _ _ h fun s hs arg _ => ?_
  dsimp only
  split
  · split
    · exact hs.loseOwnership _
    · exact hs
  · exact hs

theorem untainted_store (h : s.Untainted) (dest : NodeId) : (c.store t dest s).Untainted :=
  (h.overwrite dest).ownAs dest _

/-- The classes that a harmless callee joins hold no taint. -/
theorem untainted_link (h : s.Untainted) (hc : c.effect.Harmless) (dest : NodeId) :
    (c.link t dest s).Untainted := by
  rw [link]
  split
  case h_1 => exact h
  case h_2 m he =>
    rw [he] at hc
    rw [(Model.not_intervention hc).2, List.foldl_nil]
    refine List.foldlRecOn _ _ h fun s hs i _ => ?_
    rw [joinArg]
    split
    · exact hs.join _ _
    · exact hs
  case h_3 summary he =>
    refine List.foldlRecOn _ _ h fun s hs pair _ => ?_
    rw [joinSlots]
    split
    · split
      · exact hs
      · exact hs.join _ _
    · exact hs

/-- A call of a harmless callee. -/
theorem quiet_apply (h : p.Quiet) (hc : c.effect.Harmless) (destination : Place) :
    (c.apply t destination p).Quiet := by
  have hdrop := quiet_drop (t := t) h hc
  have hmove : ((c.drop t p).on (c.move t)).Quiet := hdrop.on (untainted_move hdrop.untainted)
  rw [apply, use_of_untainted h.untainted]
  split
  split
  · rw [Progress.checkUse_of_untainted hmove.untainted]
    exact hmove
  · exact hmove.on (untainted_link (untainted_store hmove.untainted _) hc _)

end CallSite

end Dangling
