import Dangling.Proofs.Graph.Condensation
import Dangling.Proofs.Guarded.Call
import Dangling.Proofs.Walk.Unrolling

/-!
# Proofs — Guarded — Walk

Visits and walks with guarded access.  The graph of an accepted function is sealed: its places are
declared, its edges lead to blocks, and every block has a father.  On a sealed graph a walk never
reaches for something that is not there, whatever the limits and whatever is known of callees.

* `FunctionGraph.Sealed`: nothing in the graph leads out of it; `FunctionGraph.sealed_of_ofBody`.
* `gives_block`: a visit in a state that is in bounds.
* `Walk.Item.Ready`: a path that can be continued, kept by entering a block and by a visit
  (`Walk.Item.Ready.visit`).
* `gives_run`: the guarded walk comes to what the walk comes to, and its findings are about nodes of
  the table.
-/

namespace Dangling

/-- The node and the origin of a finding are in the table. -/
def Finding.InBounds (t : NodeTable) (f : Finding) : Prop :=
  ∃ node origin : NodeId, f.node = node ∧ f.origin = origin ∧ node < t.size ∧ origin < t.size

/-- All findings on record are about nodes of the table. -/
def Ledger.InBounds (t : NodeTable) (l : Ledger) : Prop := ∀ f ∈ l.entries, f.InBounds t

/-! ### Sealed graphs -/

/-- Nothing in the graph leads out of it. -/
structure FunctionGraph.Sealed (g : FunctionGraph) : Prop where
  closed : g.nodes.Closed
  /-- The result and the parameters have nodes. -/
  slots : g.argCount < g.nodes.size
  entry : ∃ c, g.block? g.entry = some c
  declared : ∀ id c, g.block? id = some c → ∀ x ∈ c.places, g.nodes.declares x.2 = true
  succs : ∀ id c, g.block? id = some c → c.succs = c.terminator.kind.successors
  target : ∀ id c, g.block? id = some c → ∀ x ∈ c.allSuccs, ∃ d, g.block? x = some d
  father : ∀ id c, g.block? id = some c → id ∈ g.loops.fathers

namespace FunctionGraph

variable {ds : Declarations} {b : Body} {g : FunctionGraph}

/-- An accepted function declares its result and its parameters. -/
theorem argCount_lt_of_ofBody (h : ofBody ds b = .ok g) : b.argCount < b.locals.length := by
  rw [ofBody] at h
  split at h
  · cases h
  split at h
  · cases h
  split at h
  · cases h
  split at h
  · cases h
  case isFalse hlt => omega

/-- Every block of a graph belongs to a class of blocks. -/
theorem Built.mem_fathers (h : Built ds b g) {id : BlockId} {c : GraphBlock}
    (hc : g.block? id = some c) : id ∈ g.loops.fathers := by
  obtain ⟨hmem, rfl, -⟩ := h.block?_eq_some hc
  -- every block is a key of the edges, so the search meets it
  have hkey : c.id ∈ g.edges.keys :=
    Digraph.mem_keys_ofEdges (List.mem_map.mpr ⟨_, List.mem_map_of_mem hmem, rfl⟩)
  have hmet : c.id ∈ g.edges.met [g.entry] := Digraph.mem_met.mpr (.inl hkey)
  have hfather := Digraph.fathers_eq_some_iff.mpr ⟨hmet, rfl⟩
  rw [h.loops_eq]
  exact Std.TreeMap.mem_iff_isSome_getElem?.mpr (by rw [hfather]; rfl)

/-- **The graph of an accepted function is sealed.** -/
theorem sealed_of_ofBody (h : ofBody ds b = .ok g) : g.Sealed := by
  have hbuilt := built_of_ofBody h
  refine ⟨hbuilt.closed, ?_, hbuilt.exists_entry, fun id c hc x hx => ?_, fun id c hc => ?_,
    fun id c hc x hx => ?_, fun id c hc => hbuilt.mem_fathers hc⟩
  · rw [hbuilt.argCount_eq, hbuilt.nodes_eq]
    exact Nat.lt_of_lt_of_le (argCount_lt_of_ofBody h)
      (NodeTable.rooted_ofLocals ds b.locals).size
  · exact hbuilt.declares (hbuilt.block?_eq_some hc).1 hx
  · obtain ⟨-, -, blk, -, preds, rfl⟩ := hbuilt.block?_eq_some hc
    rfl
  · -- edges lead to blocks: a function with another edge is not accepted
    refine hbuilt.block_of_edge (v := id) ?_
    rw [Digraph.Edge, hbuilt.succs_edges hc]
    exact hx

end FunctionGraph

namespace Guarded

/-! ### Slots -/

/-- The state at the entry. -/
def initialState (g : FunctionGraph) : Except Lapse PathState :=
  ((List.range g.argCount).map (· + 1)).foldlM (fun s i => ownByType g.nodes s i)
    (.initial g.nodes.size)

/-- The slot of a node of the result or a parameter. -/
def slot? (g : FunctionGraph) (id : NodeId) : Except Lapse (Option Slot) := do
  let n ← node g.nodes id
  let path ← fieldPathWithin g.nodes maxFieldDepth id []
  return if n.base ≤ g.argCount then some ⟨n.base, path.2⟩ else none

/-- The nodes of the result and the parameters. -/
def slotNodes (g : FunctionGraph) : Except Lapse (List NodeId) :=
  (List.range (g.argCount + 1)).flatMapM (subtree g.nodes)

/-- The pair of slots of two nodes. -/
def aliasPair (g : FunctionGraph) (id other : NodeId) : Except Lapse (Option AliasPair) := do
  let x ← slot? g id
  let y ← slot? g other
  match x, y with
  | some a, some b => return some (.ofSlots a b)
  | _, _ => return none

/-- The pairs of slots that name the same memory. -/
def aliasPairs (g : FunctionGraph) (s : PathState) : Except Lapse (List AliasPair) := do
  let ids ← slotNodes g
  ids.flatMapM fun id => do
    let members ← aliases s id
    (members.filter (· != id)).filterMapM (aliasPair g id)

/-- The slots of parameters whose memory is released. -/
def droppedSlots (g : FunctionGraph) (s : PathState) : Except Lapse (List DroppedSlot) := do
  let ids ← slotNodes g
  ids.filterMapM fun id => do
    let x ← slot? g id
    match x with
    | some slot => do
      let dropped ← isDropped s id
      let tainted ← isTainted s id
      return if 1 ≤ slot.slot ∧ dropped then some ⟨slot, tainted⟩ else none
    | none => return none

section Slots

variable {g : FunctionGraph} {s : PathState} {id : NodeId}

/-- The parameters of a sealed graph are nodes of its table. -/
theorem gives_initialState (hg : g.Sealed) :
    Gives (initialState g) g.initialState (PathState.InBounds g.nodes) := by
  refine .foldlM _ (PathState.inBounds_initial g.nodes) fun s i hi hs => ?_
  obtain ⟨k, hk, rfl⟩ := List.mem_map.mp hi
  have hlt : k + 1 < g.nodes.size :=
    Nat.lt_of_le_of_lt (Nat.succ_le_of_lt (List.mem_range.mp hk)) hg.slots
  exact gives_ownByType hg.closed hs hlt

/-- The slot of a node is read off its way up to a local. -/
theorem slot?_eq_ok (hg : g.Sealed) (h : id < g.nodes.size) : slot? g id = .ok (g.slot? id) := by
  rw [slot?, node_eq_ok h, fieldPathWithin_eq_ok hg.closed maxFieldDepth h]
  rfl

/-- The subtrees of the result and the parameters lie in the table. -/
theorem gives_slotNodes (hg : g.Sealed) :
    Gives (slotNodes g) g.slotNodes fun ids => ∀ n ∈ ids, n < g.nodes.size := by
  refine .flatMapM fun i hi => gives_subtree hg.closed ?_
  exact Nat.lt_of_le_of_lt (Nat.le_of_lt_succ (List.mem_range.mp hi)) hg.slots

theorem gives_aliasPairs (hg : g.Sealed) (hs : s.InBounds g.nodes) :
    Gives (aliasPairs g s) (g.aliasPairs s) fun _ => True := by
  refine (gives_slotNodes hg).bind fun hids => ?_
  refine (Gives.flatMapM (Q := fun _ => True) fun id hid => ?_).imp fun _ => trivial
  refine (gives_aliases hs (hids id hid)).bind fun hmembers => .filterMapM fun other hother => ?_
  have hlt := hmembers other (List.mem_filter.mp hother).1
  refine .bind_ok (slot?_eq_ok hg (hids id hid)) (.bind_ok (slot?_eq_ok hg hlt) ?_)
  cases g.slot? id with
  | none => exact .pure fun _ _ => trivial
  | some a => cases g.slot? other <;> exact .pure fun _ _ => trivial

/-- The slots of a returning path are those of nodes in the table. -/
theorem gives_droppedSlots (hg : g.Sealed) (hs : s.InBounds g.nodes) :
    Gives (droppedSlots g s) (g.droppedSlots s) fun _ => True := by
  refine (gives_slotNodes hg).bind fun hids => ?_
  refine (Gives.filterMapM (Q := fun _ => True) fun id hid => ?_).imp fun _ => trivial
  refine .bind_ok (slot?_eq_ok hg (hids id hid)) ?_
  cases g.slot? id with
  | none => exact .pure fun _ _ => trivial
  | some slot =>
      refine .bind_ok (isDropped_eq_ok hs (hids id hid)) ?_
      exact .bind_ok (isTainted_eq_ok hs (hids id hid)) (.pure fun _ _ => trivial)

end Slots

/-! ### Visits -/

/-- The effect of a terminator that is no call, and where the path goes on. -/
def plain (t : NodeTable) (b : GraphBlock) (unwind : List BlockId) (p : Progress) :
    Except Lapse Visit :=
  let loc := b.terminator.loc
  match b.terminator.kind with
  | .goto target => return ⟨p, [target], false⟩
  | .switchInt discr arms otherwise => do
    let p ← useOperand t loc "switch operand" discr p
    let value ← valueOf t p.state discr
    match value with
    | some v => return ⟨p, Visit.arm arms otherwise v, false⟩
    | none => return ⟨p, b.succs, false⟩
  | .ret => do
    let p ← checkUse t 0 loc "returned from function" p
    return ⟨p, [], true⟩
  | .drop place target _ => do
    let x ← lookup t place
    let p ← (if x.2 then checkUse t x.1 loc "drop through dereference" p
      else releaseOwned t x.1 loc "scope end" p)
    return ⟨p, Visit.andAlso [target] unwind, false⟩
  | .assert cond expected target _ => do
    let p ← useOperand t loc "assert operand" cond p
    let value ← valueOf t p.state cond
    match value with
    | some v => return ⟨p, if v.toBool = expected then [target] else unwind, false⟩
    | none => return ⟨p, Visit.andAlso [target] unwind, false⟩
  | .call _ _ _ _ _ | .unreachable | .resume | .abort => return ⟨p, [], false⟩

/-- The first alarm about a node whose label is no text. -/
def unnamed? (t : NodeTable) (alarms : List Alarm) : Except Lapse (Option NodeId) :=
  (alarms.flatMap fun a => [a.node, a.origin]).findM? fun id => do
    let n ← node t id
    return n.labelText?.isNone

variable {σ : Type}

/-- The terminator of a block. -/
def terminator (g : FunctionGraph) (cfg : Config) (resolve : Resolver σ) (b : GraphBlock)
    (p : Progress) (s : σ) : Except Lapse (Except AnalysisFault Visit × σ) :=
  let unwind := if cfg.followUnwind then b.unwinds else []
  match b.terminator.kind with
  | .call callee args destination target _ =>
    match resolve callee s with
    | (.error fault, s) => return (.error fault, s)
    | (.ok effect, s) => do
      let site : CallSite := { loc := b.terminator.loc, callee, effect, args }
      let misplaced ← isMisplaced g.nodes site destination
      if misplaced then return (.error (.noArgument g.name callee), s)
      else do
        let p ← callApply g.nodes site destination p
        return (.ok ⟨p, Visit.andAlso target.toList unwind, false⟩, s)
  | _ => do
    let v ← plain g.nodes b unwind p
    return (.ok v, s)

/-- Stops at an alarm about a node whose label is no text. -/
def named (g : FunctionGraph) (v : Visit) : Except Lapse (Except AnalysisFault Visit) := do
  let found ← unnamed? g.nodes v.progress.alarms
  match found with
  | some node => return .error (.unnamedNode g.name node)
  | none => return .ok v

/-- Visits a block in a state. -/
def block (g : FunctionGraph) (cfg : Config) (resolve : Resolver σ) (b : GraphBlock)
    (state : PathState) (s : σ) : Except Lapse (Except AnalysisFault Visit × σ) := do
  let p ← b.statements.foldlM (statement g.nodes) { state }
  let found ← unnamed? g.nodes p.alarms
  match found with
  | some node => return (.error (.unnamedNode g.name node), s)
  | none => do
    let result ← terminator g cfg resolve b p s
    match result with
    | (.ok v, s) => do
      let v ← named g v
      return (v, s)
    | (.error fault, s) => return (.error fault, s)

end Guarded

/-! ### Declared places -/

/-- The places that a call mentions are those of its arguments and of its result. -/
theorem Terminator.declared_call {t : NodeTable} {x : Terminator}
    (h : ∀ place ∈ x.places, t.declares place = true) {callee : String} {args : List Operand}
    {destination : Place} {target unwind : Option BlockId}
    (hk : x.kind = .call callee args destination target unwind) :
    (∀ o ∈ args, o.Declared t) ∧ t.declares destination = true := by
  rw [places, reads, writes, hk] at h
  refine ⟨fun o ho place hplace => h place ?_, h destination (by simp)⟩
  simpa using .inl ⟨o, ho, hplace⟩

namespace GraphBlock

variable {t : NodeTable} {b : GraphBlock}

/-- The places of a statement are places of its block. -/
theorem declared_statement (h : ∀ x ∈ b.places, t.declares x.2 = true) {st : Statement}
    (hst : st ∈ b.statements) {place : Place} (hplace : place ∈ st.places) :
    t.declares place = true :=
  h (st.loc, place) (List.mem_append_left _
    (List.mem_flatMap.mpr ⟨st, hst, List.mem_map_of_mem hplace⟩))

/-- The places of the terminator are places of its block. -/
theorem declared_terminator (h : ∀ x ∈ b.places, t.declares x.2 = true) {place : Place}
    (hplace : place ∈ b.terminator.places) : t.declares place = true :=
  h (b.terminator.loc, place) (List.mem_append_right _ (List.mem_map_of_mem hplace))

end GraphBlock

namespace Guarded

variable {σ : Type}

section Visits

variable {g : FunctionGraph} {b : GraphBlock} {unwind : List BlockId} {p : Progress}

/-- One case for each terminator that is no call. -/
theorem gives_plain (hg : g.Sealed) (hb : ∀ x ∈ b.terminator.places, g.nodes.declares x = true)
    (hp : p.InBounds g.nodes) :
    Gives (plain g.nodes b unwind p) (Visit.plain g.nodes b unwind p)
      fun v => v.progress.InBounds g.nodes := by
  rw [plain, Visit.plain]
  rw [Terminator.places, Terminator.reads, Terminator.writes] at hb
  cases hk : b.terminator.kind with
  | goto _ | call _ _ _ _ _ | unreachable | resume | abort => exact .pure hp
  | switchInt discr arms otherwise =>
      rw [hk] at hb
      have hd : discr.Declared g.nodes := fun place hplace => hb place (by simp [hplace])
      refine (gives_useOperand hg.closed hp hd).bind fun hp => ?_
      refine .bind_ok (valueOf_eq_ok hg.closed hd) ?_
      dsimp only
      cases PathState.valueOf g.nodes _ discr <;> exact .pure hp
  | ret =>
      have hzero : 0 < g.nodes.size := Nat.lt_of_le_of_lt (Nat.zero_le _) hg.slots
      exact (gives_checkUse hg.closed hp hzero).bind fun hp => .pure hp
  | drop place target unw =>
      rw [hk] at hb
      refine (gives_lookup hg.closed (hb place (by simp))).bind fun hx => ?_
      refine (Gives.ite (gives_checkUse hg.closed hp hx) (gives_releaseOwned hg.closed hp hx)).bind
        fun hp => .pure hp
  | assert cond expected target unw =>
      rw [hk] at hb
      have hd : cond.Declared g.nodes := fun place hplace => hb place (by simp [hplace])
      refine (gives_useOperand hg.closed hp hd).bind fun hp => ?_
      refine .bind_ok (valueOf_eq_ok hg.closed hd) ?_
      dsimp only
      cases PathState.valueOf g.nodes _ cond <;> exact .pure hp

/-- The labels of the nodes in alarms are read off the table. -/
theorem unnamed?_eq_ok (hp : p.InBounds g.nodes) :
    unnamed? g.nodes p.alarms = .ok (Visit.unnamed? g.nodes p.alarms) := by
  refine findM?_eq_ok fun id hid => ?_
  obtain ⟨a, ha, hid⟩ := List.mem_flatMap.mp hid
  have hlt : id < g.nodes.size := by
    obtain ⟨hnode, horigin⟩ := hp.alarms a ha
    rcases List.mem_cons.mp hid with rfl | hid
    · exact hnode
    · rw [List.mem_singleton.mp hid]
      exact horigin
  rw [node_eq_ok hlt]
  rfl

theorem gives_named {v : Visit} (hv : v.progress.InBounds g.nodes) :
    Gives (named g v) (Visit.named g v) fun r => ∀ w, r = .ok w → w.progress.InBounds g.nodes := by
  rw [Visit.named]
  refine .bind_ok (unnamed?_eq_ok hv) ?_
  cases Visit.unnamed? g.nodes v.progress.alarms with
  | some id => exact .pure fun w hw => by cases hw
  | none =>
      refine .pure fun w hw => ?_
      cases hw
      exact hv

/-- A terminator finds all it reaches for, if its places are declared. -/
theorem gives_terminator (hg : g.Sealed) (cfg : Config) (resolve : Resolver σ)
    (hb : ∀ x ∈ b.terminator.places, g.nodes.declares x = true) (hp : p.InBounds g.nodes) (s : σ) :
    Gives (terminator g cfg resolve b p s) (Visit.terminator g cfg resolve b p s)
      fun r => ∀ v, r.1 = .ok v → v.progress.InBounds g.nodes := by
  rw [terminator, Visit.terminator]
  cases hk : b.terminator.kind with
  | call callee args destination target unw =>
      obtain ⟨hargs, hdest⟩ := Terminator.declared_call hb hk
      dsimp only
      cases resolve callee s with
      | mk answer s =>
          cases answer with
          | error fault => exact .pure fun v hv => by cases hv
          | ok effect =>
              refine .bind_ok (isMisplaced_eq_ok hg.closed hdest) (.ite ?_ ?_)
              · exact .pure fun v hv => by cases hv
              · have hsite : CallSite.Declared g.nodes { loc := b.terminator.loc, callee, effect, args } :=
                  hargs
                refine (gives_callApply hg.closed hsite hp hdest).bind fun hp => .pure fun v hv => ?_
                cases hv
                exact hp
  | _ =>
      refine (gives_plain hg hb hp).bind fun hv => .pure fun v he => ?_
      cases he
      exact hv

/-- **A visit** in a state that is in bounds finds all it reaches for, if the places of the block are
declared. -/
theorem gives_block (hg : g.Sealed) (cfg : Config) (resolve : Resolver σ)
    (hb : ∀ x ∈ b.places, g.nodes.declares x.2 = true) {state : PathState}
    (hstate : state.InBounds g.nodes) (s : σ) :
    Gives (block g cfg resolve b state s) (Visit.block g cfg resolve b state s)
      fun r => ∀ v, r.1 = .ok v → v.progress.InBounds g.nodes := by
  have hstart : Progress.InBounds g.nodes { state } :=
    ⟨hstate, fun a ha => absurd ha List.not_mem_nil⟩
  have hterm : ∀ x ∈ b.terminator.places, g.nodes.declares x = true :=
    fun x => GraphBlock.declared_terminator hb
  rw [Visit.block]
  refine (gives_statements hg.closed hstart fun st hst place =>
    GraphBlock.declared_statement hb hst).bind fun hp => ?_
  refine .bind_ok (unnamed?_eq_ok hp) ?_
  cases Visit.unnamed? g.nodes _ with
  | some id => exact .pure fun v hv => by cases hv
  | none =>
      refine (gives_terminator hg cfg resolve hterm hp s).bind fun hv => ?_
      dsimp only
      cases hr : Visit.terminator g cfg resolve b _ s with
      | mk result s =>
          rw [hr] at hv
          cases result with
          | error fault => exact .pure fun v hv => by cases hv
          | ok v => exact (gives_named (hv v rfl)).bind fun hv => .pure hv

end Visits

/-! ### Tallies -/

/-- The finding of an alarm, with the labels of its nodes. -/
def finding (t : NodeTable) (function : String) (a : Alarm) : Except Lapse Finding := do
  let n ← node t a.node
  let o ← node t a.origin
  return { function, loc := a.loc, kind := a.kind, node := a.node,
           nodePath := pathOr n.label.shown a.node, origin := a.origin,
           originPath := pathOr o.label.shown a.origin, dropLoc := a.dropLoc, context := a.context }

/-- Records alarms in order. -/
def recordAll (t : NodeTable) (l : Ledger) (alarms : List Alarm) : Except Lapse Ledger :=
  alarms.foldlM (fun l a => do
    let f ← finding t l.function a
    return l.record f) l

/-- Adds what a visit brought. -/
def add (g : FunctionGraph) (t : Walk.Tally) (v : Visit) : Except Lapse Walk.Tally := do
  let ledger ← recordAll g.nodes t.ledger v.progress.alarms
  let t := { t with
    ledger
    visits := t.visits + 1
    paths := if v.succs.isEmpty then t.paths + 1 else t.paths }
  if v.returns then do
    let pairs ← aliasPairs g v.progress.state
    let slots ← droppedSlots g v.progress.state
    return { t with
      aliases := Sorted.union AliasPair.compare t.aliases pairs
      dropped := Sorted.union DroppedSlot.compare t.dropped slots }
  else return t

section Tallies

variable {g : FunctionGraph} {t : NodeTable}

/-- A finding names the nodes of its alarm. -/
theorem gives_finding {a : Alarm} (ha : a.node < t.size ∧ a.origin < t.size) (function : String) :
    Gives (finding t function a) (Ledger.finding t function a) (Finding.InBounds t) :=
  .bind_ok (node_eq_ok ha.1) (.bind_ok (node_eq_ok ha.2) (.pure ⟨_, _, rfl, rfl, ha⟩))

/-- By the alarms one after the other: a ledger in bounds stays so. -/
theorem gives_recordAll {alarms : List Alarm}
    (h : ∀ a ∈ alarms, a.node < t.size ∧ a.origin < t.size) {l : Ledger} (hl : l.InBounds t) :
    Gives (recordAll t l alarms) (l.recordAll t alarms) (Ledger.InBounds t) := by
  refine .foldlM alarms hl fun l a ha hl => (gives_finding (h a ha) l.function).bind fun hf => .pure ?_
  rw [Ledger.record]
  split
  · exact hl
  · exact List.forall_mem_append.mpr ⟨hl, List.forall_mem_singleton.mpr hf⟩

theorem gives_add (hg : g.Sealed) {v : Visit} (hv : v.progress.InBounds g.nodes) {t : Walk.Tally}
    (ht : t.ledger.InBounds g.nodes) :
    Gives (add g t v) (t.add g v) fun t => t.ledger.InBounds g.nodes := by
  refine (gives_recordAll hv.alarms ht).bind fun hl => .ite ?_ (.pure hl)
  exact (gives_aliasPairs hg hv.state).bind fun _ => (gives_droppedSlots hg hv.state).bind fun _ =>
    .pure hl

end Tallies

/-! ### Paths -/

/-- The block of a number. -/
def blockAt (g : FunctionGraph) (id : BlockId) : Except Lapse GraphBlock :=
  match g.block? id with
  | some b => .ok b
  | none => .error (.noBlock id)

/-- The father of a block. -/
def father (g : FunctionGraph) (id : BlockId) : Except Lapse BlockId :=
  match g.loops.fathers[id]? with
  | some f => .ok f
  | none => .error (.noFather id)

/-- The item as it enters its block; none if the path is cut there. -/
def enter? (g : FunctionGraph) (cfg : Config) (i : Walk.Item) : Except Lapse (Option Walk.Item) := do
  let _ ← blockAt g i.block
  let f ← father g i.block
  if g.loops.isCyclic f then
    if cfg.loopUnroll ≤ i.entries.count i.block then return none
    else return some { i with entries := i.entries.enter i.block }
  else return some i

/-- The next item that enters its block, with the items after it, and the number of items that are
cut before it. -/
def next (g : FunctionGraph) (cfg : Config) : List Walk.Item →
    Except Lapse (Nat × Option (Walk.Item × List Walk.Item))
  | [] => return (0, none)
  | i :: rest => do
    let entered ← enter? g cfg i
    match entered with
    | some i => return (0, some (i, rest))
    | none => do
      let found ← next g cfg rest
      return (found.1 + 1, found.2)

/-- The items that continue a path after a visit. -/
def continuations (g : FunctionGraph) (i : Walk.Item) (v : Visit) : Except Lapse (List Walk.Item) := do
  let here ← father g i.block
  v.succs.mapM fun b => do
    let there ← father g b
    return { block := b, state := v.progress.state,
             entries := if there = here then i.entries else [] }

/-- Walks the paths of `items`, entering at most `budget` blocks. -/
def explore (g : FunctionGraph) (cfg : Config) (resolve : Resolver σ) :
    (budget : Nat) → List Walk.Item → Walk.Tally → σ →
      Except Lapse (Except AnalysisFault (Walk.Tally × Bool) × σ)
  | budget, items, tally, s => do
    let found ← next g cfg items
    match found with
    | (cut, none) => return (.ok (tally.cut cut, true), s)
    | (cut, some (i, rest)) =>
      match budget with
      | 0 => return (.ok (tally.cut cut, false), s)
      | budget + 1 => do
        let b ← blockAt g i.block
        let result ← block g cfg resolve b i.state s
        match result with
        | (.error fault, s) => return (.error fault, s)
        | (.ok v, s) => do
          let more ← continuations g i v
          let tally ← add g (tally.cut cut) v
          explore g cfg resolve budget (more ++ rest) tally s

/-- Walks all paths of a function. -/
def run (g : FunctionGraph) (cfg : Config) (resolve : Resolver σ) (s : σ) :
    Except Lapse (Except AnalysisFault Walk.Outcome × σ) := do
  let state ← initialState g
  let result ← explore g cfg resolve cfg.visitBudget.toNat [{ block := g.entry, state }]
    { ledger := { function := g.name } } s
  match result with
  | (.ok (tally, complete), s) => return (.ok (.ofTally g tally complete), s)
  | (.error fault, s) => return (.error fault, s)

end Guarded

namespace Walk

variable {σ : Type} {g : FunctionGraph} {cfg : Config} {resolve : Resolver σ}

/-- The block of an item exists, and its state is in bounds. -/
structure Item.Ready (g : FunctionGraph) (i : Item) : Prop where
  block : ∃ c, g.block? i.block = some c
  state : i.state.InBounds g.nodes

/-- The walk starts at a block of the graph, in a state in bounds. -/
theorem ready_start (hg : g.Sealed) : (start g).Ready g :=
  ⟨hg.entry, (Guarded.gives_initialState hg).holds⟩

/-- To enter a block changes only the count of entries. -/
theorem Item.Ready.enter {i j : Item} (hi : i.Ready g) (h : enter? g cfg i = some j) :
    j.Ready g := by
  obtain ⟨hblock, hstate, -⟩ := enter?_eq_some h
  exact ⟨hblock ▸ hi.block, hstate ▸ hi.state⟩

/-- A visit leaves a state in bounds, and goes on along edges. -/
theorem Item.Ready.visit {j : Item} (hj : j.Ready g) (hg : g.Sealed) {s s' : σ} {v : Visit}
    (hv : Visit.block g cfg resolve ((g.block? j.block).getD default) j.state s = (.ok v, s')) :
    v.progress.InBounds g.nodes ∧
      ∃ c, g.block? j.block = some c ∧ ∀ x ∈ v.succs, x ∈ c.allSuccs ∧ ∃ d, g.block? x = some d := by
  obtain ⟨c, hc⟩ := hj.block
  rw [hc, Option.getD_some] at hv
  have hin := (Guarded.gives_block hg cfg resolve (hg.declared _ c hc) hj.state s).holds
  rw [hv] at hin
  have hwithin := Visit.terminator_within (hg.succs _ c hc) (Visit.block_eq_ok hv)
  refine ⟨hin v rfl, c, hc, fun x hx => ?_⟩
  exact ⟨hwithin.mem x hx, hg.target _ c hc x (hwithin.mem x hx)⟩

end Walk

namespace Guarded

section Paths

open Walk (Item)

variable {σ : Type} {g : FunctionGraph} {cfg : Config}

theorem blockAt_eq_ok {id : BlockId} {c : GraphBlock} (hc : g.block? id = some c) :
    blockAt g id = .ok ((g.block? id).getD default) := by
  rw [blockAt, hc]
  rfl

/-- A block of the graph has a father. -/
theorem father_eq_ok (hg : g.Sealed) {id : BlockId} {c : GraphBlock} (hc : g.block? id = some c) :
    father g id = .ok (g.loops.father id) := by
  have hsome := Std.TreeMap.mem_iff_isSome_getElem?.mp (hg.father id c hc)
  obtain ⟨f, hf⟩ := Option.isSome_iff_exists.mp hsome
  rw [father, hf, Components.father, Std.TreeMap.getD_eq_getD_getElem?, hf]
  rfl

theorem enter?_eq_ok (hg : g.Sealed) {i : Item} (hi : i.Ready g) :
    enter? g cfg i = .ok (Walk.enter? g cfg i) := by
  obtain ⟨c, hc⟩ := hi.block
  rw [enter?, blockAt_eq_ok hc, father_eq_ok hg hc, Walk.enter?, Components.inCycle]
  dsimp only [bind, Except.bind]
  split
  · split <;> rfl
  · rfl

/-- By induction on the items that are cut. -/
theorem gives_next (hg : g.Sealed) (items : List Item) (h : ∀ i ∈ items, i.Ready g) :
    Gives (next g cfg items) (Walk.next g cfg items)
      fun r => ∀ i rest, r.2 = some (i, rest) → ∀ j ∈ i :: rest, j.Ready g := by
  induction items with
  | nil => exact .pure fun i rest he => by cases he
  | cons i items ih =>
      obtain ⟨hi, hitems⟩ := List.forall_mem_cons.mp h
      refine .bind_ok (enter?_eq_ok hg hi) ?_
      cases he : Walk.enter? g cfg i with
      | some j =>
          rw [Walk.next_of_enter he]
          refine .pure fun k rest hk => ?_
          cases hk
          exact List.forall_mem_cons.mpr ⟨hi.enter he, hitems⟩
      | none =>
          rw [Walk.next_of_cut he]
          exact (ih hitems).bind fun hr => .pure hr

/-- A path goes on at blocks that exist, in the state that the visit has left. -/
theorem gives_continuations (hg : g.Sealed) {i : Item} (hi : i.Ready g) {v : Visit}
    (hv : v.progress.InBounds g.nodes) (hsuccs : ∀ x ∈ v.succs, ∃ c, g.block? x = some c) :
    Gives (continuations g i v) (Walk.continuations g i v) fun js => ∀ j ∈ js, j.Ready g := by
  obtain ⟨c, hc⟩ := hi.block
  refine .bind_ok (father_eq_ok hg hc) (.mapM fun x hx => ?_)
  obtain ⟨d, hd⟩ := hsuccs x hx
  exact .bind_ok (father_eq_ok hg hd) (.pure ⟨⟨d, hd⟩, hv.state⟩)

/-- **A walk** of items that are ready never reaches for something that is not there, and records
findings about nodes of the table only. -/
theorem gives_explore (hg : g.Sealed) (cfg : Config) (resolve : Resolver σ) (budget : Nat) :
    ∀ (items : List Item) (tally : Walk.Tally) (s : σ), (∀ i ∈ items, i.Ready g) →
      tally.ledger.InBounds g.nodes →
      Gives (explore g cfg resolve budget items tally s)
        (Walk.explore g cfg resolve budget items tally s)
        fun r => ∀ t complete, r.1 = .ok (t, complete) → t.ledger.InBounds g.nodes := by
  induction budget with
  | zero =>
      intro items tally s h ht
      rw [explore, Walk.explore]
      refine (gives_next hg items h).bind fun _ => ?_
      cases Walk.next g cfg items with
      | mk cut found =>
          cases found <;> exact .pure fun t complete he => by cases he; exact ht
  | succ budget ih =>
      intro items tally s h ht
      rw [explore, Walk.explore]
      refine (gives_next hg items h).bind fun hready => ?_
      cases hn : Walk.next g cfg items with
      | mk cut found =>
          cases found with
          | none => exact .pure fun t complete he => by cases he; exact ht
          | some x =>
              obtain ⟨i, rest⟩ := x
              rw [hn] at hready
              obtain ⟨hi, hrest⟩ := List.forall_mem_cons.mp (hready i rest rfl)
              obtain ⟨c, hc⟩ := hi.block
              have hcut : (tally.cut cut).ledger.InBounds g.nodes := ht
              refine .bind_ok (blockAt_eq_ok hc) ?_
              dsimp only
              rw [hc, Option.getD_some]
              refine (gives_block hg cfg resolve (hg.declared _ c hc) hi.state s).bind fun _ => ?_
              cases hv : Visit.block g cfg resolve c i.state s with
              | mk result s' =>
                  cases result with
                  | error fault => exact .pure fun t complete he => by cases he
                  | ok v =>
                      -- a visit goes on along edges, so the items it adds are ready too
                      obtain ⟨hin, d, -, hsuccs⟩ := hi.visit hg (by rw [hc]; exact hv)
                      refine (gives_continuations hg hi hin fun x hx => (hsuccs x hx).2).bind
                        fun hjs => (gives_add hg hin hcut).bind fun ht => ?_
                      exact ih _ _ _ (List.forall_mem_append.mpr ⟨hjs, hrest⟩) ht

/-- **The guarded walk** of a sealed graph comes to what the walk comes to, and its findings are about
nodes of the table. -/
theorem gives_run (hg : g.Sealed) (cfg : Config) (resolve : Resolver σ) (s : σ) :
    Gives (run g cfg resolve s) (Walk.run g cfg resolve s)
      fun r => ∀ o, r.1 = .ok o → ∀ f ∈ o.findings, f.InBounds g.nodes := by
  rw [Walk.run]
  refine (gives_initialState hg).bind fun _ => ?_
  have hready : ∀ i ∈ [Walk.start g], i.Ready g := fun i hi => by
    obtain rfl := List.mem_singleton.mp hi
    exact Walk.ready_start hg
  refine (gives_explore hg cfg resolve cfg.visitBudget.toNat _ _ s hready
    fun f hf => absurd hf List.not_mem_nil).bind fun hledger => ?_
  cases hend : Walk.explore g cfg resolve cfg.visitBudget.toNat _ _ s with
  | mk result s' =>
      rw [hend] at hledger
      cases result with
      | error fault => exact .pure fun o ho => by cases ho
      | ok x =>
          refine .pure fun o ho f hf => ?_
          cases ho
          exact hledger x.1 x.2 rfl f (Sorted.mem_sortBy.mp hf)

end Paths

end Guarded

end Dangling
