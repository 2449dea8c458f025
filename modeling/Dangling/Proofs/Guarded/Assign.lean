import Dangling.Proofs.Guarded.Access

/-!
# Proofs — Guarded — Assign

Uses, releases and assignments with guarded access.  If the places that a statement mentions are
declared, it finds everything it reaches for, and names no node outside the table, neither in the state
nor in an alarm.

* `Progress.InBounds`: the state and the alarms of a path name nodes of the table.
* `Operand.Declared`: the operand's place, if it has one, is declared.
* `gives_assignTo`: a write to a node, one case for each kind of right-hand side.
* `gives_statement`: a statement whose places are declared.
-/

namespace Dangling

/-- The state and the alarms of a path name nodes of the table. -/
structure Progress.InBounds (t : NodeTable) (p : Progress) : Prop where
  state : p.state.InBounds t
  alarms : ∀ a ∈ p.alarms, a.node < t.size ∧ a.origin < t.size

/-- A value that is taken out was released by the same node as before, if by any. -/
theorem NodeState.InBounds.leave {n : NodeState} {size : Nat} (h : n.InBounds size) :
    n.leave.InBounds size := by
  refine ⟨h.aliases, fun m hm => h.origin m ?_⟩
  rw [NodeState.leave] at hm
  cases hf : n.fate with
  | live | movedOut =>
      rw [hf] at hm
      cases hm
  | dropped origin loc =>
      rw [hf] at hm
      exact hm

/-- The operand's place, if it has one, is declared. -/
def Operand.Declared (t : NodeTable) (o : Operand) : Prop :=
  ∀ place, o.place? = some place → t.declares place = true

namespace Guarded

/-- A choice that both computations make alike. -/
theorem Gives.ite {α : Type} {x y : Except Lapse α} {a b : α} {P : α → Prop} {c : Prop}
    [Decidable c] (ht : Gives x a P) (hf : Gives y b P) :
    Gives (if c then x else y) (if c then a else b) P := by
  split
  · exact ht
  · exact hf

/-! ### Uses and releases -/

/-- Changes the state. -/
def on (p : Progress) (f : PathState → Except Lapse PathState) : Except Lapse Progress := do
  let s ← f p.state
  return { p with state := s }

/-- Raises the alarm for a misuse of the released memory of `id`. -/
def raise (p : Progress) (kind : Misuse) (id : NodeId) (loc : Location) (context : String) :
    Except Lapse Progress := do
  let n ← nodeState p.state id
  return { p with
    alarms := p.alarms ++
      [{ kind, node := id, origin := n.fate.origin?.getD id, loc, dropLoc := n.fate.loc?,
         context }] }

/-- The memory of a node was released, by hand. -/
def isMisused (s : PathState) (id : NodeId) : Except Lapse Bool := do
  let dropped ← isDropped s id
  let tainted ← isTainted s id
  return dropped && tainted

/-- Uses the memory of a node. -/
def checkUse (t : NodeTable) (id : NodeId) (loc : Location) (context : String) (p : Progress) :
    Except Lapse Progress := do
  let ids ← subtree t id
  let found ← ids.findM? (isMisused p.state)
  match found with
  | some n => raise p .useAfterFree n loc context
  | none => return p

/-- The nodes whose memory goes when `id` is dropped. -/
def dropTargets (t : NodeTable) (s : PathState) (id : NodeId) : Except Lapse (List NodeId) := do
  let members ← aliases s id
  let below ← members.flatMapM (subtree t)
  let own ← subtree t id
  return below ++ own

/-- Releases the memory of a node. -/
def release (t : NodeTable) (id : NodeId) (loc : Location) (manual : Bool) (context : String)
    (p : Progress) : Except Lapse Progress := do
  let dropped ← isDropped p.state id
  if dropped then do
    let tainted ← isTainted p.state id
    if manual || tainted then raise p .doubleFree id loc context else return p
  else on p fun s => do
    let targets ← dropTargets t s id
    markDropped s targets id (some loc) manual

/-- Releases the memory of a node at the end of its scope, if the node still owns it. -/
def releaseOwned (t : NodeTable) (id : NodeId) (loc : Location) (context : String) (p : Progress) :
    Except Lapse Progress := do
  let n ← nodeState p.state id
  if n.owned then release t id loc false context p else return p

/-- Uses an operand. -/
def useOperand (t : NodeTable) (loc : Location) (context : String) (o : Operand) (p : Progress) :
    Except Lapse Progress :=
  match o.place? with
  | none => return p
  | some place => do
    let x ← lookup t place
    if x.2 then checkUse t x.1 loc (context ++ " through dereference") p
    else if o.isMove then checkUse t x.1 loc (context ++ " (moved)") p
    else do
      let n ← node t x.1
      if n.ty.isPointer then return p else checkUse t x.1 loc (context ++ " (copied)") p

section Uses

variable {t : NodeTable} {p : Progress} {s : PathState} {id : NodeId} {loc : Location}
  {context : String}

/-- A change of the state leaves the alarms in bounds. -/
theorem gives_on (hp : p.InBounds t) {f : PathState → Except Lapse PathState}
    {f' : PathState → PathState} (hf : Gives (f p.state) (f' p.state) (PathState.InBounds t)) :
    Gives (on p f) (p.on f') (Progress.InBounds t) :=
  hf.bind fun hs => .pure ⟨hs, hp.alarms⟩

/-- An alarm names the node and the one whose drop released it, both in the table. -/
theorem gives_raise (hp : p.InBounds t) (h : id < t.size) (kind : Misuse) :
    Gives (raise p kind id loc context) (p.raise kind id loc context) (Progress.InBounds t) := by
  refine .bind_ok (nodeState_eq_ok hp.state h) (.pure ⟨hp.state, fun a ha => ?_⟩)
  rcases List.mem_append.mp ha with ha | ha
  · exact hp.alarms a ha
  · obtain rfl := List.mem_singleton.mp ha
    refine ⟨h, ?_⟩
    -- memory that no drop released counts as released by the node itself
    cases ho : (p.state.node id).fate.origin? with
    | none => exact h
    | some origin => exact (hp.state.node id).origin origin ho

theorem isMisused_eq_ok (hs : s.InBounds t) (h : id < t.size) :
    isMisused s id = .ok (s.isDropped id && s.isTainted id) := by
  rw [isMisused, isDropped_eq_ok hs h, isTainted_eq_ok hs h]
  rfl

/-- Every node of the subtree is looked at, up to the first that is misused. -/
theorem gives_checkUse (ht : t.Closed) (hp : p.InBounds t) (h : id < t.size) :
    Gives (checkUse t id loc context p) (p.checkUse t id loc context) (Progress.InBounds t) := by
  rw [Progress.checkUse]
  refine (gives_subtree ht h).bind fun hids => ?_
  refine .bind_ok (findM?_eq_ok fun n hn => isMisused_eq_ok hp.state (hids n hn)) ?_
  cases hfound : (t.subtree id).find? fun n => p.state.isDropped n && p.state.isTainted n with
  | none => exact .pure hp
  | some n => exact gives_raise hp (hids n (List.mem_of_find?_eq_some hfound)) _

/-- The subtrees of a class lie in the table. -/
theorem gives_dropTargets (ht : t.Closed) (hs : s.InBounds t) (h : id < t.size) :
    Gives (dropTargets t s id) (Progress.dropTargets t s id) fun ids => ∀ n ∈ ids, n < t.size := by
  refine (gives_aliases hs h).bind fun hmembers => ?_
  refine (Gives.flatMapM fun n hn => gives_subtree ht (hmembers n hn)).bind fun hbelow => ?_
  exact (gives_subtree ht h).bind fun hown => .pure (List.forall_mem_append.mpr ⟨hbelow, hown⟩)

/-- The memory is released already, or all that name it are marked. -/
theorem gives_release (ht : t.Closed) (hp : p.InBounds t) (h : id < t.size) (manual : Bool) :
    Gives (release t id loc manual context p) (p.release t id loc manual context)
      (Progress.InBounds t) := by
  refine .bind_ok (isDropped_eq_ok hp.state h) (.ite ?_ ?_)
  · exact .bind_ok (isTainted_eq_ok hp.state h) (.ite (gives_raise hp h _) (.pure hp))
  · refine gives_on hp ((gives_dropTargets ht hp.state h).bind fun htargets => ?_)
    exact gives_markDropped hp.state htargets h _ _

theorem gives_releaseOwned (ht : t.Closed) (hp : p.InBounds t) (h : id < t.size) :
    Gives (releaseOwned t id loc context p) (p.releaseOwned t id loc context)
      (Progress.InBounds t) :=
  .bind_ok (nodeState_eq_ok hp.state h) (.ite (gives_release ht hp h _) (.pure hp))

/-- A declared operand is used inside the table. -/
theorem gives_useOperand (ht : t.Closed) (hp : p.InBounds t) {o : Operand} (ho : o.Declared t) :
    Gives (useOperand t loc context o p) (p.useOperand t loc context o) (Progress.InBounds t) := by
  rw [useOperand, Progress.useOperand]
  cases hplace : o.place? with
  | none => exact .pure hp
  | some place =>
      refine (gives_lookup ht (ho place hplace)).bind fun hid => ?_
      refine .ite (gives_checkUse ht hp hid) (.ite (gives_checkUse ht hp hid) ?_)
      exact .bind_ok (node_eq_ok hid) (.ite (.pure hp) (gives_checkUse ht hp hid))

/-- So are several, one after the other. -/
theorem gives_useOperands (ht : t.Closed) (hp : p.InBounds t) {os : List Operand}
    (hos : ∀ o ∈ os, o.Declared t) :
    Gives (os.foldlM (fun p o => useOperand t loc context o p) p)
      (os.foldl (fun p o => p.useOperand t loc context o) p) (Progress.InBounds t) :=
  .foldlM os hp fun _ o ho hp => gives_useOperand ht hp (hos o ho)

end Uses

/-! ### Ownership and values -/

/-- Says whether a node owns its memory. -/
def setOwned (s : PathState) (id : NodeId) (owned : Bool) : Except Lapse PathState :=
  update s id fun n => { n with owned }

/-- Makes each node of a subtree own its memory if its type needs drop. -/
def ownByType (t : NodeTable) (s : PathState) (id : NodeId) : Except Lapse PathState := do
  let ids ← subtree t id
  ids.foldlM (fun s n => do
    let m ← node t n
    setOwned s n m.needsDrop) s

/-- As `ownByType`, but for `id` itself a choice may be given. -/
def ownAs (t : NodeTable) (s : PathState) (id : NodeId) (owned : Option Bool) :
    Except Lapse PathState :=
  match owned with
  | none => ownByType t s id
  | some b => do
    let ids ← subtree t id
    ids.foldlM (fun s n => do
      let m ← node t n
      setOwned s n (if n = id then b else m.needsDrop)) s

/-- Takes the value of a subtree out. -/
def loseOwnership (t : NodeTable) (s : PathState) (id : NodeId) : Except Lapse PathState := do
  let ids ← subtree t id
  updateAll s ids NodeState.leave

/-- Forgets all about a subtree that is about to be overwritten. -/
def overwrite (t : NodeTable) (s : PathState) (id : NodeId) : Except Lapse PathState := do
  let ids ← subtree t id
  kill s ids

/-- The value of an operand, if the path knows it. -/
def valueOf (t : NodeTable) (s : PathState) (o : Operand) : Except Lapse (Option Scalar) :=
  match o.place? with
  | none => return o.scalar?
  | some place => do
    let x ← lookup t place
    return if x.2 then none else s.known x.1

section Ownership

open PathState (InBounds)

variable {t : NodeTable} {s : PathState} {id : NodeId}

theorem gives_setOwned (hs : s.InBounds t) (h : id < t.size) (owned : Bool) :
    Gives (setOwned s id owned) (s.setOwned id owned) (InBounds t) :=
  gives_update hs h fun _ hn => ⟨hn.aliases, hn.origin⟩

/-- The types of a subtree are read off the table. -/
theorem gives_ownByType (ht : t.Closed) (hs : s.InBounds t) (h : id < t.size) :
    Gives (ownByType t s id) (s.ownByType t id) (InBounds t) := by
  refine (gives_subtree ht h).bind fun hids => .foldlM _ hs fun s n hn hs => ?_
  exact .bind_ok (node_eq_ok (hids n hn)) (gives_setOwned hs (hids n hn) _)

theorem gives_ownAs (ht : t.Closed) (hs : s.InBounds t) (h : id < t.size) (owned : Option Bool) :
    Gives (ownAs t s id owned) (s.ownAs t id owned) (InBounds t) := by
  cases owned with
  | none => exact gives_ownByType ht hs h
  | some b =>
      refine (gives_subtree ht h).bind fun hids => .foldlM _ hs fun s n hn hs => ?_
      exact .bind_ok (node_eq_ok (hids n hn)) (gives_setOwned hs (hids n hn) _)

theorem gives_leave (hs : s.InBounds t) (h : id < t.size) :
    Gives (update s id NodeState.leave) (s.update id NodeState.leave) (InBounds t) :=
  gives_update hs h fun _ hn => hn.leave

/-- A subtree is taken out node by node. -/
theorem gives_loseOwnership (ht : t.Closed) (hs : s.InBounds t) (h : id < t.size) :
    Gives (loseOwnership t s id) (s.loseOwnership t id) (InBounds t) :=
  (gives_subtree ht h).bind fun hids => gives_updateAll hs hids fun _ hn => hn.leave

/-- A subtree is forgotten node by node. -/
theorem gives_overwrite (ht : t.Closed) (hs : s.InBounds t) (h : id < t.size) :
    Gives (overwrite t s id) (s.overwrite t id) (InBounds t) :=
  (gives_subtree ht h).bind fun hids => gives_kill hs hids

/-- To evaluate an operand, its place is looked up. -/
theorem valueOf_eq_ok (ht : t.Closed) {o : Operand} (ho : o.Declared t) :
    valueOf t s o = .ok (s.valueOf t o) := by
  rw [valueOf, PathState.valueOf]
  cases hplace : o.place? with
  | none => rfl
  | some place =>
      dsimp only
      rw [(gives_lookup ht (ho place hplace)).ok]
      rfl

end Ownership

/-! ### Values laid down -/

/-- Gives `dest` what `src` has, and takes the value out of `src`. -/
def moveNode (s : PathState) (dest src : NodeId) : Except Lapse PathState := do
  let n ← nodeState s src
  let s ← update s dest fun d => { d with owned := n.owned, fate := n.fate, tainted := n.tainted }
  let s ← join s dest src
  update (s.setKnown? dest (s.known src)) src NodeState.leave

/-- Moves `src` into `dest` with the fields that both have, at most `depth` levels down. -/
def moveWithin (t : NodeTable) : (depth : Nat) → PathState → NodeId → NodeId →
    Except Lapse PathState
  | 0, s, dest, src => moveNode s dest src
  | depth + 1, s, dest, src => do
    let s ← moveNode s dest src
    let d ← node t dest
    let n ← node t src
    d.children.foldlM (fun s x =>
      match n.child? x.1 with
      | some c => moveWithin t depth s x.2 c
      | none => return s) s

/-- Moves `src` into `dest` with all fields that both have. -/
def moveInto (t : NodeTable) (s : PathState) (dest src : NodeId) : Except Lapse PathState :=
  moveWithin t maxFieldDepth s dest src

/-- The node is a reference or a raw pointer. -/
def isPointer (t : NodeTable) (id : NodeId) : Except Lapse Bool := do
  let n ← node t id
  return n.ty.isPointer

/-- Stores an operand in the overwritten `dest`. -/
def storeOperand (t : NodeTable) (s : PathState) (dest : NodeId) (o : Operand) :
    Except Lapse PathState :=
  match o.place? with
  | none => do
    let s ← overwrite t s dest
    return s.setKnown? dest o.scalar?
  | some place => do
    let x ← lookup t place
    if x.2 then do
      let s ← overwrite t s dest
      let pointer ← isPointer t dest
      if pointer then join s dest x.1 else ownByType t s dest
    else if x.1 = dest then return s
    else if o.isMove then do
      let s ← overwrite t s dest
      moveInto t s dest x.1
    else do
      let value := s.known x.1
      let s ← overwrite t s dest
      let pointer ← isPointer t x.1
      if pointer then join s dest x.1 else return s.setKnown? dest value

/-- Stores an operand in the field `child` of a new aggregate. -/
def fillField (t : NodeTable) (s : PathState) (child : NodeId) (o : Operand) :
    Except Lapse PathState :=
  match o.place? with
  | none => return s.setKnown? child o.scalar?
  | some place => do
    let x ← lookup t place
    if x.2 then ownByType t s child
    else if o.isMove then moveInto t s child x.1
    else do
      let pointer ← isPointer t x.1
      if pointer then join s child x.1 else return s

/-- Stores an operand in a new aggregate that has no node for the field. -/
def fillWhole (t : NodeTable) (s : PathState) (dest : NodeId) (o : Operand) :
    Except Lapse PathState :=
  match o.place? with
  | none => return s
  | some place => do
    let x ← lookup t place
    if x.2 then return s
    else if o.isMove then do
      let n ← nodeState s x.1
      let s ← (if n.owned then setOwned s dest true else pure s)
      let s ← join s dest x.1
      loseOwnership t s x.1
    else do
      let pointer ← isPointer t x.1
      if pointer then join s dest x.1 else return s

/-- Stores operands in the fields of a new aggregate, in order. -/
def fill (t : NodeTable) (dest : NodeId) : PathState → List Operand → List NodeId →
    Except Lapse PathState
  | s, [], _ => return s
  | s, o :: os, child :: children => do
    let s ← fillField t s child o
    fill t dest s os children
  | s, o :: os, [] => do
    let s ← fillWhole t s dest o
    fill t dest s os []

/-- Stores an operand, read as of type `ty`, in `dest`. -/
def storeCast (t : NodeTable) (s : PathState) (dest : NodeId) (o : Operand) (ty : Ty) :
    Except Lapse PathState := do
  let value ← valueOf t s o
  let s ← overwrite t s dest
  match o.place? with
  | none => return s.setKnown? dest value
  | some place => do
    let x ← lookup t place
    if x.2 then return s
    else do
      let fromPointer ← isPointer t x.1
      let toPointer ← isPointer t dest
      if fromPointer || ty.isPointer || toPointer then do
        let s ← join s dest x.1
        let n ← nodeState s x.1
        if o.isMove && n.owned then do
          let s ← setOwned s dest true
          loseOwnership t s x.1
        else return s
      else return s.setKnown? dest (value.bind (PathState.castValue ty.kind))

/-- The term of an operand. -/
def termOf (t : NodeTable) (s : PathState) (side : String) (o : Operand) : Except Lapse Term := do
  let value ← valueOf t s o
  match value with
  | some v => return .lit v
  | none =>
    match o.place? with
    | none => return .sym side false
    | some place => do
      let x ← lookup t place
      let n ← node t x.1
      return if x.2 then .sym side false else .sym s!"n{x.1}" (n.ty.kind == .bool)

/-- Stores the value of a computation in `dest`, if it is known. -/
def storeValue (t : NodeTable) (s : PathState) (dest : NodeId) (v : Option Scalar) :
    Except Lapse PathState := do
  let s ← overwrite t s dest
  return s.setKnown? dest v

/-- Makes `dest` name the memory that a place names. -/
def storeAddress (t : NodeTable) (s : PathState) (dest : NodeId) (target : Place) :
    Except Lapse PathState := do
  let s ← overwrite t s dest
  let x ← lookup t target
  join s dest x.1

/-- Takes the value of a moved operand out of its node. -/
def takeMoved (t : NodeTable) (s : PathState) (o : Operand) : Except Lapse PathState :=
  match o with
  | .move place => do
    let x ← lookup t place
    if x.2 then return s else loseOwnership t s x.1
  | _ => return s

section Stores

open PathState (InBounds)

variable {t : NodeTable} {s : PathState} {dest src : NodeId} {o : Operand}

/-- A move changes two nodes and joins their classes. -/
theorem gives_moveNode (hs : s.InBounds t) (hd : dest < t.size) (hsrc : src < t.size) :
    Gives (moveNode s dest src) (s.moveNode dest src) (InBounds t) := by
  have hinherit : Gives (update s dest fun d =>
      { d with owned := (s.node src).owned, fate := (s.node src).fate,
               tainted := (s.node src).tainted }) (s.inherit dest src) (InBounds t) :=
    gives_update hs hd fun n hn => ⟨hn.aliases, (hs.node src).origin⟩
  refine .bind_ok (nodeState_eq_ok hs hsrc) (hinherit.bind fun hs => ?_)
  exact (gives_join hs hd hsrc).bind fun hs => gives_leave (hs.setKnown? hd _) hsrc

/-- By induction on the depth: fields that both sides have are in the table on both sides. -/
theorem gives_moveWithin (ht : t.Closed) (depth : Nat) : ∀ {s : PathState} {dest src : NodeId},
    s.InBounds t → dest < t.size → src < t.size →
      Gives (moveWithin t depth s dest src) (s.moveWithin t depth dest src) (InBounds t) := by
  induction depth with
  | zero => exact fun hs hd hsrc => gives_moveNode hs hd hsrc
  | succ depth ih =>
      intro s dest src hs hd hsrc
      rw [PathState.moveWithin]
      refine (gives_moveNode hs hd hsrc).bind fun hs => ?_
      refine .bind_ok (node_eq_ok hd) (.bind_ok (node_eq_ok hsrc) ?_)
      refine .foldlM _ hs fun s x hx hs => ?_
      -- only fields that both have are moved, each to the field of its name
      dsimp only [NodeTable.child?]
      cases hc : (t.node src).child? x.1 with
      | none => exact .pure hs
      | some c => exact ih hs (ht.child dest x hx) (child_lt ht hc)

theorem gives_moveInto (ht : t.Closed) (hs : s.InBounds t) (hd : dest < t.size)
    (hsrc : src < t.size) : Gives (moveInto t s dest src) (s.moveInto t dest src) (InBounds t) :=
  gives_moveWithin ht maxFieldDepth hs hd hsrc

/-- The type of a node of the table is there. -/
theorem isPointer_eq_ok (h : src < t.size) : isPointer t src = .ok (t.isPointer src) := by
  rw [isPointer, node_eq_ok h]
  rfl

/-- One case for each way to store an operand: a constant, a read, a move, a copy. -/
theorem gives_storeOperand (ht : t.Closed) (hs : s.InBounds t) (hd : dest < t.size)
    (ho : o.Declared t) :
    Gives (storeOperand t s dest o) (s.storeOperand t dest o) (InBounds t) := by
  rw [storeOperand, PathState.storeOperand]
  cases hplace : o.place? with
  | none => exact (gives_overwrite ht hs hd).bind fun hs => .pure (hs.setKnown? hd _)
  | some place =>
      refine (gives_lookup ht (ho place hplace)).bind fun hsrc => .ite ?_ (.ite (.pure hs) (.ite ?_ ?_))
      · refine (gives_overwrite ht hs hd).bind fun hs => .bind_ok (isPointer_eq_ok hd) ?_
        exact .ite (gives_join hs hd hsrc) (gives_ownByType ht hs hd)
      · exact (gives_overwrite ht hs hd).bind fun hs => gives_moveInto ht hs hd hsrc
      · refine (gives_overwrite ht hs hd).bind fun hs => .bind_ok (isPointer_eq_ok hsrc) ?_
        exact .ite (gives_join hs hd hsrc) (.pure (hs.setKnown? hd _))

/-- The field of an aggregate has a node, and the operand has one. -/
theorem gives_fillField (ht : t.Closed) (hs : s.InBounds t) (hd : dest < t.size)
    (ho : o.Declared t) : Gives (fillField t s dest o) (s.fillField t dest o) (InBounds t) := by
  rw [fillField, PathState.fillField]
  cases hplace : o.place? with
  | none => exact .pure (hs.setKnown? hd _)
  | some place =>
      refine (gives_lookup ht (ho place hplace)).bind fun hsrc => ?_
      refine .ite (gives_ownByType ht hs hd) (.ite (gives_moveInto ht hs hd hsrc) ?_)
      exact .bind_ok (isPointer_eq_ok hsrc) (.ite (gives_join hs hd hsrc) (.pure hs))

/-- Where the field has no node, the aggregate itself is joined. -/
theorem gives_fillWhole (ht : t.Closed) (hs : s.InBounds t) (hd : dest < t.size)
    (ho : o.Declared t) : Gives (fillWhole t s dest o) (s.fillWhole t dest o) (InBounds t) := by
  rw [fillWhole, PathState.fillWhole]
  cases hplace : o.place? with
  | none => exact .pure hs
  | some place =>
      refine (gives_lookup ht (ho place hplace)).bind fun hsrc => .ite (.pure hs) (.ite ?_ ?_)
      · refine .bind_ok (nodeState_eq_ok hs hsrc) ?_
        refine (Gives.ite (gives_setOwned hs hd true) (.pure hs)).bind fun hs => ?_
        exact (gives_join hs hd hsrc).bind fun hs => gives_loseOwnership ht hs hsrc
      · exact .bind_ok (isPointer_eq_ok hsrc) (.ite (gives_join hs hd hsrc) (.pure hs))

/-- By induction on the operands, along the nodes of the fields. -/
theorem gives_fill (ht : t.Closed) (hd : dest < t.size) (os : List Operand) :
    ∀ {s : PathState} {children : List NodeId}, s.InBounds t → (∀ o ∈ os, o.Declared t) →
      (∀ c ∈ children, c < t.size) →
      Gives (fill t dest s os children) (PathState.fill t dest s os children) (InBounds t) := by
  induction os with
  | nil =>
      intro s children hs _ _
      rw [fill, PathState.fill]
      exact .pure hs
  | cons o os ih =>
      intro s children hs hos hchildren
      obtain ⟨ho, hos⟩ := List.forall_mem_cons.mp hos
      cases children with
      -- operands that find no field left are stored in the aggregate as a whole
      | nil => exact (gives_fillWhole ht hs hd ho).bind fun hs => ih hs hos hchildren
      | cons child children =>
          obtain ⟨hchild, hchildren⟩ := List.forall_mem_cons.mp hchildren
          exact (gives_fillField ht hs hchild ho).bind fun hs => ih hs hos hchildren

/-- A cast reads its operand before and after the destination is overwritten. -/
theorem gives_storeCast (ht : t.Closed) (hs : s.InBounds t) (hd : dest < t.size)
    (ho : o.Declared t) (ty : Ty) :
    Gives (storeCast t s dest o ty) (s.storeCast t dest o ty) (InBounds t) := by
  rw [PathState.storeCast]
  refine .bind_ok (valueOf_eq_ok ht ho) ((gives_overwrite ht hs hd).bind fun hs => ?_)
  cases hplace : o.place? with
  | none => exact .pure (hs.setKnown? hd _)
  | some place =>
      refine (gives_lookup ht (ho place hplace)).bind fun hsrc => .ite (.pure hs) ?_
      refine .bind_ok (isPointer_eq_ok hsrc) (.bind_ok (isPointer_eq_ok hd) (.ite ?_ ?_))
      · refine (gives_join hs hd hsrc).bind fun hs => .bind_ok (nodeState_eq_ok hs hsrc) ?_
        refine .ite ?_ (.pure hs)
        exact (gives_setOwned hs hd true).bind fun hs => gives_loseOwnership ht hs hsrc
      · exact .pure (hs.setKnown? hd _)

/-- The symbol of an operand without a value is named for its node. -/
theorem termOf_eq_ok (ht : t.Closed) (side : String) (ho : o.Declared t) :
    termOf t s side o = .ok (s.termOf t side o) := by
  rw [termOf, valueOf_eq_ok ht ho, PathState.termOf]
  dsimp only [bind, Except.bind]
  cases s.valueOf t o with
  | some v => rfl
  | none =>
      cases hplace : o.place? with
      | none => rfl
      | some place =>
          obtain ⟨hlookup, hid⟩ := gives_lookup ht (ho place hplace)
          dsimp only
          rw [hlookup]
          dsimp only
          rw [node_eq_ok hid]
          rfl

theorem gives_storeValue (ht : t.Closed) (hs : s.InBounds t) (hd : dest < t.size)
    (v : Option Scalar) : Gives (storeValue t s dest v) (s.storeValue t dest v) (InBounds t) :=
  (gives_overwrite ht hs hd).bind fun hs => .pure (hs.setKnown? hd _)

/-- The target of an address is declared, so it has a node. -/
theorem gives_storeAddress (ht : t.Closed) (hs : s.InBounds t) (hd : dest < t.size) {target : Place}
    (htarget : t.declares target = true) :
    Gives (storeAddress t s dest target) (s.storeAddress t dest target) (InBounds t) :=
  (gives_overwrite ht hs hd).bind fun hs => (gives_lookup ht htarget).bind fun hsrc =>
    gives_join hs hd hsrc

/-- Behind a pointer nothing is taken out. -/
theorem gives_takeMoved (ht : t.Closed) (hs : s.InBounds t) (ho : o.Declared t) :
    Gives (takeMoved t s o) (s.takeMoved t o) (InBounds t) := by
  cases o with
  | copy place => exact .pure hs
  | constant value ty => exact .pure hs
  | move place =>
      refine (gives_lookup ht (ho place rfl)).bind fun hsrc => ?_
      exact .ite (.pure hs) (gives_loseOwnership ht hs hsrc)

end Stores

/-! ### Assignments -/

/-- A write through the pointer `dest`. -/
def assignThrough (t : NodeTable) (loc : Location) (dest : NodeId) (r : Rvalue) (p : Progress) :
    Except Lapse Progress := do
  let p ← checkUse t dest loc "write through dereference" p
  r.operands.foldlM (fun p o => do
    let p ← useOperand t loc "assignment" o p
    on p fun s => takeMoved t s o) p

/-- A write to the node `dest`. -/
def assignTo (t : NodeTable) (loc : Location) (dest : NodeId) (r : Rvalue) (p : Progress) :
    Except Lapse Progress :=
  match r with
  | .use o => do
    let p ← useOperand t loc "assignment" o p
    on p fun s => storeOperand t s dest o
  | .ref _ target => do
    let x ← lookup t target
    let p ← checkUse t x.1 loc "borrow" p
    on p fun s => storeAddress t s dest target
  | .addressOf _ target => on p fun s => storeAddress t s dest target
  | .aggregate items _ => do
    let p ← items.foldlM (fun p o => useOperand t loc "aggregate field" o p) p
    on p fun s => do
      let s ← overwrite t s dest
      let n ← node t dest
      fill t dest s items (n.children.map (·.2))
  | .cast o ty => do
    let p ← useOperand t loc "cast" o p
    on p fun s => storeCast t s dest o ty
  | .binary op l r => do
    let p ← useOperand t loc "operand" l p
    let p ← useOperand t loc "operand" r p
    on p fun s =>
      if op = .offset then
        match l.place? with
        | some place => storeAddress t s dest place
        | none => overwrite t s dest
      else do
        let left ← termOf t s "left" l
        let right ← termOf t s "right" r
        storeValue t s dest (Term.binary op left right)
  | .unary op o => do
    let p ← useOperand t loc "operand" o p
    on p fun s => do
      let operand ← termOf t s "operand" o
      storeValue t s dest (Term.unary op operand)
  | .inspect what target => do
    let x ← lookup t target
    let p ← checkUse t x.1 loc (what.name ++ " read") p
    on p fun s => overwrite t s dest

/-- An assignment. -/
def assign (t : NodeTable) (loc : Location) (place : Place) (r : Rvalue) (p : Progress) :
    Except Lapse Progress := do
  let x ← lookup t place
  if x.2 then assignThrough t loc x.1 r p else assignTo t loc x.1 r p

/-- A statement. -/
def statement (t : NodeTable) (p : Progress) (st : Statement) : Except Lapse Progress :=
  match st.kind with
  | .assign place r => assign t st.loc place r p
  | _ => return p

section Assignments

variable {t : NodeTable} {p : Progress} {loc : Location} {dest : NodeId} {r : Rvalue}

/-- The pointer is checked, then every operand is used and taken out. -/
theorem gives_assignThrough (ht : t.Closed) (hp : p.InBounds t) (hd : dest < t.size)
    (hr : ∀ o ∈ r.operands, o.Declared t) :
    Gives (assignThrough t loc dest r p) (p.assignThrough t loc dest r) (Progress.InBounds t) := by
  refine (gives_checkUse ht hp hd).bind fun hp => .foldlM _ hp fun p o ho hp => ?_
  refine (gives_useOperand ht hp (hr o ho)).bind fun hp => gives_on hp ?_
  exact gives_takeMoved ht hp.state (hr o ho)

/-- **A write to a node** finds all it reaches for, if the operands and the target of the right-hand
side are declared. -/
theorem gives_assignTo (ht : t.Closed) (hp : p.InBounds t) (hd : dest < t.size)
    (hr : ∀ o ∈ r.operands, o.Declared t)
    (htarget : ∀ place, r.target? = some place → t.declares place = true) :
    Gives (assignTo t loc dest r p) (p.assignTo t loc dest r) (Progress.InBounds t) := by
  rw [assignTo.eq_def, Progress.assignTo.eq_def]
  cases r with
  | use o =>
      have ho := hr o List.mem_cons_self
      exact (gives_useOperand ht hp ho).bind fun hp =>
        gives_on hp (gives_storeOperand ht hp.state hd ho)
  | ref mutable target =>
      refine (gives_lookup ht (htarget target rfl)).bind fun hx => ?_
      exact (gives_checkUse ht hp hx).bind fun hp =>
        gives_on hp (gives_storeAddress ht hp.state hd (htarget target rfl))
  | addressOf mutable target =>
      exact gives_on hp (gives_storeAddress ht hp.state hd (htarget target rfl))
  | aggregate items name =>
      refine (gives_useOperands ht hp hr).bind fun hp => gives_on hp ?_
      refine (gives_overwrite ht hp.state hd).bind fun hs => .bind_ok (node_eq_ok hd) ?_
      refine gives_fill ht hd items hs hr fun c hc => ?_
      obtain ⟨x, hx, rfl⟩ := List.mem_map.mp hc
      exact ht.child dest x hx
  | binary op left right =>
      have hl := hr left List.mem_cons_self
      have hright := hr right (List.mem_cons_of_mem _ List.mem_cons_self)
      refine (gives_useOperand ht hp hl).bind fun hp => ?_
      refine (gives_useOperand ht hp hright).bind fun hp => gives_on hp (.ite ?_ ?_)
      · -- an offset stores the address of the place that it is taken from
        cases hplace : left.place? with
        | some place => exact gives_storeAddress ht hp.state hd (hl place hplace)
        | none => exact gives_overwrite ht hp.state hd
      · refine .bind_ok (termOf_eq_ok ht "left" hl) (.bind_ok (termOf_eq_ok ht "right" hright) ?_)
        exact gives_storeValue ht hp.state hd _
  | unary op o =>
      have ho := hr o List.mem_cons_self
      refine (gives_useOperand ht hp ho).bind fun hp => gives_on hp ?_
      exact .bind_ok (termOf_eq_ok ht "operand" ho) (gives_storeValue ht hp.state hd _)
  | cast o ty =>
      have ho := hr o List.mem_cons_self
      exact (gives_useOperand ht hp ho).bind fun hp =>
        gives_on hp (gives_storeCast ht hp.state hd ho ty)
  | inspect what target =>
      refine (gives_lookup ht (htarget target rfl)).bind fun hx => ?_
      exact (gives_checkUse ht hp hx).bind fun hp => gives_on hp (gives_overwrite ht hp.state hd)

/-- **A statement** finds all it reaches for, if its places are declared. -/
theorem gives_statement (ht : t.Closed) (hp : p.InBounds t) {st : Statement}
    (hst : ∀ place ∈ st.places, t.declares place = true) :
    Gives (statement t p st) (Progress.statement t p st) (Progress.InBounds t) := by
  rw [statement, Progress.statement]
  rw [Statement.places, Statement.reads, Statement.writes] at hst
  cases hk : st.kind with
  | storageLive _ | storageDead _ | nop => exact .pure hp
  | assign place r =>
      rw [hk] at hst
      have hplace : t.declares place = true := hst place (by simp)
      have hr : ∀ o ∈ r.operands, o.Declared t := fun o ho q hq =>
        hst q (List.mem_append_left _ (List.mem_append_left _ (List.mem_filterMap.mpr ⟨o, ho, hq⟩)))
      have htarget : ∀ q, r.target? = some q → t.declares q = true := fun q hq =>
        hst q (List.mem_append_right _ (Option.mem_toList.mpr hq))
      refine (gives_lookup ht hplace).bind fun hd => ?_
      exact .ite (gives_assignThrough ht hp hd hr) (gives_assignTo ht hp hd hr htarget)

/-- The statements of a block, one after the other. -/
theorem gives_statements (ht : t.Closed) (hp : p.InBounds t) {sts : List Statement}
    (hsts : ∀ st ∈ sts, ∀ place ∈ st.places, t.declares place = true) :
    Gives (sts.foldlM (statement t) p) (sts.foldl (Progress.statement t) p) (Progress.InBounds t) :=
  .foldlM sts hp fun _ st hst hp => gives_statement ht hp (hsts st hst)

end Assignments

end Guarded

end Dangling
