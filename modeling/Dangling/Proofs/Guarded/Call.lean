import Dangling.Proofs.Guarded.Assign

/-!
# Proofs — Guarded — Call

Calls with guarded access.  Positions of arguments come from models and summaries, and fields from
summaries, neither of which need fit the call: a position beyond the last argument names no node, and
fields are followed as far as there are nodes.  So a call whose operands and destination are declared
finds all it reaches for, whatever is known of its callee.

* `gives_argNode`, `gives_slotNode`: the nodes of arguments and slots.
* `CallSite.Declared`: the places of the arguments are declared.
* `gives_callApply`: a call.
-/

namespace Dangling

/-- The places of the arguments are declared. -/
def CallSite.Declared (t : NodeTable) (c : CallSite) : Prop := ∀ o ∈ c.args, o.Declared t

namespace Guarded

/-! ### Arguments -/

/-- The node that an operand reads, and whether it reads behind a dereference of it. -/
def nodeOf (t : NodeTable) (o : Operand) : Except Lapse (Option (NodeId × Bool)) :=
  match o.place? with
  | none => return none
  | some place => do
    let x ← lookup t place
    return some x

/-- The node of the argument at a position. -/
def argNode (t : NodeTable) (c : CallSite) (i : Int) : Except Lapse (Option NodeId) :=
  match c.arg? i with
  | none => return none
  | some o => do
    let x ← nodeOf t o
    return x.map (·.1)

/-- The node that a slot of the callee stands for, given the node of its result. -/
def slotNode (t : NodeTable) (c : CallSite) (dest : NodeId) (s : Slot) :
    Except Lapse (Option NodeId) :=
  match s.slot with
  | 0 => do
    let id ← childAt t dest s.fields
    return some id
  | i + 1 => do
    let x ← argNode t c i
    match x with
    | some id => do
      let id ← childAt t id s.fields
      return some id
    | none => return none

/-- Dropping the node by value releases something. -/
def releasesOnDrop (t : NodeTable) (id : NodeId) : Except Lapse Bool := do
  let n ← node t id
  return n.ty.kind == .unknown || n.needsDrop

/-- The positions and nodes of the arguments that a model releases. -/
def modelDrops (t : NodeTable) (c : CallSite) (m : Model) : Except Lapse (List (Int × NodeId)) :=
  m.drops.filterMapM fun i => do
    let x ← argNode t c i
    match x with
    | some id => do
      let releases ← releasesOnDrop t id
      return if m.throughPointer || releases then some (i, id) else none
    | none => return none

/-- The positions of the arguments that the callee releases by hand. -/
def manualDrops (t : NodeTable) (c : CallSite) : Except Lapse (List Int) :=
  match c.effect with
  | .unknown => return []
  | .modelled m => do
    let drops ← modelDrops t c m
    return if m.manual then drops.map (·.1) else []
  | .summarised s =>
    return s.dropped.filterMap fun d =>
      if d.manual && 1 ≤ d.path.slot then some ((d.path.slot : Int) - 1) else none

section Arguments

variable {t : NodeTable} {c : CallSite} {dest : NodeId}

/-- A declared operand has a node, unless it is a constant. -/
theorem gives_nodeOf (ht : t.Closed) {o : Operand} (ho : o.Declared t) :
    Gives (nodeOf t o) (CallSite.nodeOf t o) fun x => ∀ y ∈ x, y.1 < t.size := by
  rw [nodeOf, CallSite.nodeOf]
  cases hplace : o.place? with
  | none => exact .pure fun y hy => by cases hy
  | some place =>
      refine (gives_lookup ht (ho place hplace)).bind fun hx => .pure fun y hy => ?_
      obtain rfl := Option.some.inj hy
      exact hx

/-- A position without an argument has no node, and asks for none. -/
theorem gives_argNode (ht : t.Closed) (hc : c.Declared t) (i : Int) :
    Gives (argNode t c i) (c.argNode t i) fun x => ∀ id ∈ x, id < t.size := by
  rw [argNode, CallSite.argNode]
  cases harg : c.arg? i with
  | none => exact .pure fun id hid => by cases hid
  | some o =>
      refine (gives_nodeOf ht (hc o (CallSite.mem_args_of_arg? harg))).bind fun hx => .pure fun id hid => ?_
      obtain ⟨y, hy, rfl⟩ := Option.map_eq_some_iff.mp hid
      exact hx y hy

/-- From the node of the slot, its fields are followed as far as there are nodes. -/
theorem gives_slotNode (ht : t.Closed) (hc : c.Declared t) (hd : dest < t.size) (s : Slot) :
    Gives (slotNode t c dest s) (c.slotNode t dest s) fun x => ∀ id ∈ x, id < t.size := by
  rw [slotNode, CallSite.slotNode]
  cases s.slot with
  | zero =>
      refine (gives_childAt ht s.fields hd).bind fun hid => .pure fun id hmem => ?_
      obtain rfl := Option.some.inj hmem
      exact hid
  | succ i =>
      refine (gives_argNode ht hc i).bind fun hx => ?_
      dsimp only
      cases hnode : c.argNode t i with
      | none => exact .pure fun id hid => by cases hid
      | some id =>
          refine (gives_childAt ht s.fields (hx id hnode)).bind fun hid => .pure fun id hmem => ?_
          obtain rfl := Option.some.inj hmem
          exact hid

theorem releasesOnDrop_eq_ok {id : NodeId} (h : id < t.size) :
    releasesOnDrop t id = .ok (CallSite.releasesOnDrop t id) := by
  rw [releasesOnDrop, node_eq_ok h]
  rfl

/-- The arguments that a model releases have nodes of the table. -/
theorem gives_modelDrops (ht : t.Closed) (hc : c.Declared t) (m : Model) :
    Gives (modelDrops t c m) (c.modelDrops t m) fun xs => ∀ x ∈ xs, x.2 < t.size := by
  refine .filterMapM fun i _ => (gives_argNode ht hc i).bind fun hx => ?_
  cases hnode : c.argNode t i with
  | none => exact .pure fun x hmem => by cases hmem
  | some id =>
      refine .bind_ok (releasesOnDrop_eq_ok (hx id hnode)) (.pure fun x hmem => ?_)
      split at hmem
      · obtain rfl := Option.some.inj hmem
        exact hx id hnode
      · cases hmem

/-- Which arguments are released by hand is told by the effect of the callee. -/
theorem manualDrops_eq_ok (ht : t.Closed) (hc : c.Declared t) :
    manualDrops t c = .ok (c.manualDrops t) := by
  rw [manualDrops, CallSite.manualDrops]
  cases c.effect with
  | unknown => rfl
  | summarised s => rfl
  | modelled m =>
      dsimp only
      rw [(gives_modelDrops ht hc m).ok]
      rfl

end Arguments

/-! ### The steps of a call -/

/-- Uses the argument at position `i`. -/
def useArg (t : NodeTable) (c : CallSite) (p : Progress) (arg : Operand × Nat) :
    Except Lapse Progress := do
  let manual ← manualDrops t c
  if manual.contains (arg.2 : Int) then return p
  else do
    let x ← nodeOf t arg.1
    match c.reconstructs.contains (arg.2 : Int), x with
    | true, some y =>
      checkUse t y.1 c.loc ("ownership taken from dangling pointer by " ++ c.callee) p
    | _, _ => useOperand t c.loc ("argument to " ++ c.callee) arg.1 p

/-- First step: the arguments are used. -/
def use (t : NodeTable) (c : CallSite) (p : Progress) : Except Lapse Progress :=
  c.args.zipIdx.foldlM (useArg t c) p

/-- Releases a slot that the callee releases. -/
def dropSlot (t : NodeTable) (c : CallSite) (p : Progress) (d : DroppedSlot) :
    Except Lapse Progress :=
  match d.path.slot with
  | 0 => return p
  | i + 1 => do
    let x ← argNode t c i
    match x with
    | some id => do
      let id ← childAt t id d.path.fields
      release t id c.loc d.manual ("dropped inside " ++ c.callee) p
    | none => return p

/-- Second step: arguments are released. -/
def drop (t : NodeTable) (c : CallSite) (p : Progress) : Except Lapse Progress :=
  match c.effect with
  | .unknown => return p
  | .modelled m => do
    let drops ← modelDrops t c m
    drops.foldlM (fun p x => release t x.2 c.loc m.manual ("dropped by " ++ c.callee) p) p
  | .summarised s => s.dropped.foldlM (dropSlot t c) p

/-- Third step: moved and forgotten arguments are taken out of their nodes. -/
def move (t : NodeTable) (c : CallSite) (s : PathState) : Except Lapse PathState :=
  c.args.zipIdx.foldlM (fun s arg => do
    let x ← nodeOf t arg.1
    match x with
    | some (id, false) =>
      if arg.1.isMove || c.forgets.contains (arg.2 : Int) then loseOwnership t s id else return s
    | _ => return s) s

/-- Fourth step: the result is stored. -/
def store (t : NodeTable) (c : CallSite) (dest : NodeId) (s : PathState) : Except Lapse PathState := do
  let s ← overwrite t s dest
  ownAs t s dest
    (match c.effect with
    | .modelled m => m.retOwned
    | _ => none)

/-- Joins the result with the memory of an argument. -/
def joinArg (t : NodeTable) (c : CallSite) (dest : NodeId) (s : PathState) (i : Int) :
    Except Lapse PathState := do
  let x ← argNode t c i
  match x with
  | some id => join s dest id
  | none => return s

/-- Makes the result an owner of the memory of an argument. -/
def reconstruct (t : NodeTable) (c : CallSite) (dest : NodeId) (s : PathState) (i : Int) :
    Except Lapse PathState := do
  let x ← argNode t c i
  match x with
  | some id => do
    let s ← join s dest id
    taint s dest
  | none => return s

/-- Joins two slots that name the same memory after the call. -/
def joinSlots (t : NodeTable) (c : CallSite) (dest : NodeId) (s : PathState) (pair : AliasPair) :
    Except Lapse PathState := do
  let x ← slotNode t c dest pair.1
  let y ← slotNode t c dest pair.2
  match x, y with
  | some a, some b => if a = b then return s else join s a b
  | _, _ => return s

/-- Fifth step: classes are joined. -/
def link (t : NodeTable) (c : CallSite) (dest : NodeId) (s : PathState) : Except Lapse PathState :=
  match c.effect with
  | .unknown => return s
  | .modelled m => do
    let s ← m.retAliases.foldlM (joinArg t c dest) s
    m.reconstructs.foldlM (reconstruct t c dest) s
  | .summarised sum => sum.aliases.foldlM (joinSlots t c dest) s

/-- The model names arguments before the first. -/
def isMisplaced (t : NodeTable) (c : CallSite) (destination : Place) : Except Lapse Bool :=
  match c.effect with
  | .modelled m => do
    let x ← lookup t destination
    return m.drops.any c.isBefore || !x.2 && (m.retAliases ++ m.reconstructs).any c.isBefore
  | _ => return false

/-- A call that stores its result in a place. -/
def callApply (t : NodeTable) (c : CallSite) (destination : Place) (p : Progress) :
    Except Lapse Progress := do
  let p ← use t c p
  let p ← drop t c p
  let p ← on p (move t c)
  let x ← lookup t destination
  if x.2 then checkUse t x.1 c.loc "write through dereference" p
  else on p fun s => do
    let s ← store t c x.1 s
    link t c x.1 s

section Calls

open PathState (InBounds)

variable {t : NodeTable} {c : CallSite} {p : Progress} {s : PathState} {dest : NodeId}

/-- Arguments with their positions are still arguments. -/
theorem declared_of_mem_zipIdx (hc : c.Declared t) {arg : Operand × Nat}
    (h : arg ∈ c.args.zipIdx) : arg.1.Declared t :=
  hc arg.1 (List.mem_of_getElem? (List.mem_zipIdx_iff_getElem?.mp h))

/-- First step of a call: the arguments are used. -/
theorem gives_use (ht : t.Closed) (hc : c.Declared t) (hp : p.InBounds t) :
    Gives (use t c p) (c.use t p) (Progress.InBounds t) := by
  refine .foldlM _ hp fun p arg harg hp => ?_
  have ho := declared_of_mem_zipIdx hc harg
  rw [CallSite.useArg]
  refine .bind_ok (manualDrops_eq_ok ht hc) (.ite (.pure hp) ?_)
  refine (gives_nodeOf ht ho).bind fun hx => ?_
  -- an argument whose ownership is taken is checked by its node, any other as an operand
  cases c.reconstructs.contains (arg.2 : Int) with
  | false => exact gives_useOperand ht hp ho
  | true =>
      cases hnode : CallSite.nodeOf t arg.1 with
      | none => exact gives_useOperand ht hp ho
      | some y => exact gives_checkUse ht hp (hx y hnode)

/-- A slot that the callee releases stands for a node below an argument. -/
theorem gives_dropSlot (ht : t.Closed) (hc : c.Declared t) (hp : p.InBounds t) (d : DroppedSlot) :
    Gives (dropSlot t c p d) (c.dropSlot t p d) (Progress.InBounds t) := by
  rw [dropSlot, CallSite.dropSlot]
  cases d.path.slot with
  | zero => exact .pure hp
  | succ i =>
      refine (gives_argNode ht hc i).bind fun hx => ?_
      dsimp only
      cases hnode : c.argNode t i with
      -- a summary may speak of arguments that this call does not have
      | none => exact .pure hp
      | some id =>
          exact (gives_childAt ht d.path.fields (hx id hnode)).bind fun hid =>
            gives_release ht hp hid d.manual

/-- Second step: arguments are released. -/
theorem gives_drop (ht : t.Closed) (hc : c.Declared t) (hp : p.InBounds t) :
    Gives (drop t c p) (c.drop t p) (Progress.InBounds t) := by
  rw [drop, CallSite.drop]
  cases c.effect with
  | unknown => exact .pure hp
  | modelled m =>
      refine (gives_modelDrops ht hc m).bind fun hdrops => .foldlM _ hp fun p x hx hp => ?_
      exact gives_release ht hp (hdrops x hx) m.manual
  | summarised sum => exact .foldlM _ hp fun p d _ hp => gives_dropSlot ht hc hp d

/-- Third step: moved arguments are taken out. -/
theorem gives_move (ht : t.Closed) (hc : c.Declared t) (hs : s.InBounds t) :
    Gives (move t c s) (c.move t s) (InBounds t) := by
  refine .foldlM _ hs fun s arg harg hs => ?_
  refine (gives_nodeOf ht (declared_of_mem_zipIdx hc harg)).bind fun hx => ?_
  dsimp only
  cases hnode : CallSite.nodeOf t arg.1 with
  | none => exact .pure hs
  | some y =>
      obtain ⟨id, deref⟩ := y
      cases deref with
      | true => exact .pure hs
      | false => exact .ite (gives_loseOwnership ht hs (hx (id, false) hnode)) (.pure hs)

/-- Fourth step: the result is stored. -/
theorem gives_store (ht : t.Closed) (hs : s.InBounds t) (hd : dest < t.size) :
    Gives (store t c dest s) (c.store t dest s) (InBounds t) :=
  (gives_overwrite ht hs hd).bind fun hs => gives_ownAs ht hs hd _

theorem gives_joinArg (ht : t.Closed) (hc : c.Declared t) (hs : s.InBounds t) (hd : dest < t.size)
    (i : Int) : Gives (joinArg t c dest s i) (c.joinArg t dest s i) (InBounds t) := by
  rw [CallSite.joinArg]
  refine (gives_argNode ht hc i).bind fun hx => ?_
  cases hnode : c.argNode t i with
  | none => exact .pure hs
  | some id => exact gives_join hs hd (hx id hnode)

theorem gives_reconstruct (ht : t.Closed) (hc : c.Declared t) (hs : s.InBounds t)
    (hd : dest < t.size) (i : Int) :
    Gives (reconstruct t c dest s i) (c.reconstruct t dest s i) (InBounds t) := by
  rw [CallSite.reconstruct]
  refine (gives_argNode ht hc i).bind fun hx => ?_
  cases hnode : c.argNode t i with
  | none => exact .pure hs
  | some id => exact (gives_join hs hd (hx id hnode)).bind fun hs => gives_taint hs hd

/-- Two slots that name the same memory are joined, if both stand for nodes. -/
theorem gives_joinSlots (ht : t.Closed) (hc : c.Declared t) (hs : s.InBounds t) (hd : dest < t.size)
    (pair : AliasPair) :
    Gives (joinSlots t c dest s pair) (c.joinSlots t dest s pair) (InBounds t) := by
  rw [CallSite.joinSlots]
  refine (gives_slotNode ht hc hd pair.1).bind fun hx => ?_
  refine (gives_slotNode ht hc hd pair.2).bind fun hy => ?_
  cases ha : c.slotNode t dest pair.1 with
  | none => exact .pure hs
  | some a =>
      cases hb : c.slotNode t dest pair.2 with
      | none => exact .pure hs
      | some b => exact .ite (.pure hs) (gives_join hs (hx a ha) (hy b hb))

/-- Fifth step: classes are joined. -/
theorem gives_link (ht : t.Closed) (hc : c.Declared t) (hs : s.InBounds t) (hd : dest < t.size) :
    Gives (link t c dest s) (c.link t dest s) (InBounds t) := by
  rw [link, CallSite.link]
  cases c.effect with
  | unknown => exact .pure hs
  | modelled m =>
      refine (Gives.foldlM _ hs fun s i _ hs => gives_joinArg ht hc hs hd i).bind fun hs => ?_
      exact .foldlM _ hs fun s i _ hs => gives_reconstruct ht hc hs hd i
  | summarised sum => exact .foldlM _ hs fun s pair _ hs => gives_joinSlots ht hc hs hd pair

/-- The destination is looked up only to see whether it lies behind a pointer. -/
theorem isMisplaced_eq_ok (ht : t.Closed) {destination : Place}
    (hd : t.declares destination = true) :
    isMisplaced t c destination = .ok (c.isMisplaced t destination) := by
  rw [isMisplaced, CallSite.isMisplaced]
  cases c.effect with
  | unknown => rfl
  | summarised s => rfl
  | modelled m =>
      dsimp only
      rw [(gives_lookup ht hd).ok]
      rfl

/-- **A call** finds all it reaches for, if its arguments and its destination are declared. -/
theorem gives_callApply (ht : t.Closed) (hc : c.Declared t) (hp : p.InBounds t)
    {destination : Place} (hd : t.declares destination = true) :
    Gives (callApply t c destination p) (c.apply t destination p) (Progress.InBounds t) := by
  rw [CallSite.apply]
  refine (gives_use ht hc hp).bind fun hp => (gives_drop ht hc hp).bind fun hp => ?_
  refine (gives_on hp (gives_move ht hc hp.state)).bind fun hp => ?_
  refine (gives_lookup ht hd).bind fun hx => .ite (gives_checkUse ht hp hx) (gives_on hp ?_)
  exact (gives_store ht hp.state hx).bind fun hs => gives_link ht hc hs hx

end Calls

end Guarded

end Dangling
