import Dangling.Proofs.Graph.Locals
import Dangling.Proofs.Path.Course
import Dangling.Proofs.Path.Values
import Dangling.Walk.Visit

/-!
# Proofs — Walk — Constants

Whether the values that a path knows are the values of an execution.  Integers and pointers to them
are assigned in five ways; beside the path state runs an ordinary store, in which a write through a
pointer changes the local that the pointer points at.  The path state follows writes by name, and
keeps what it knows at a write through a pointer.  So what it knows is right as long as no such write
meets a local with another known value, and wrong right after one that does.

* `Assignment`, `Store`: the assignments, and the store they are executed on.
* `PathState.Follows`: every known value is the value in the store.
* `Assignment.Heeds`: a write through a pointer meets no other known value.
* `Walk.constants_follow_store`: the known values are right at every point just when every write
  heeds them; branches then go where the execution goes.
-/

namespace Dangling

/-! ### Known values -/

namespace PathState

variable {s : PathState} {t : NodeTable}

theorem known_join (s : PathState) (a b n : NodeId) : (s.join a b).known n = s.known n :=
  known_congr (values_join s a b) n

/-- A node without fields is overwritten alone. -/
theorem known_overwrite {id : NodeId} (hleaf : t.children id = []) (s : PathState) (n : NodeId) :
    (s.overwrite t id).known n = if n = id then none else s.known n := by
  have hsubtree : t.subtree id = [id] := by
    rw [NodeTable.subtree, maxFieldDepth, NodeTable.subtreeWithin, hleaf, List.flatMap_nil]
  rw [overwrite, hsubtree]
  exact known_forget s id n

/-- A node without fields gets a new value. -/
theorem known_overwrite_setKnown {id : NodeId} (hleaf : t.children id = []) (s : PathState)
    (v : Scalar) (n : NodeId) :
    ((s.overwrite t id).setKnown id v).known n = if n = id then some v else s.known n := by
  rw [known_setKnown, known_overwrite hleaf]
  by_cases hn : n = id
  · rw [if_pos hn, if_pos hn]
  · rw [if_neg hn, if_neg hn, if_neg hn]

end PathState

/-! ### Assignments and the store -/

/-- An assignment to an integer or to a pointer to one. -/
inductive Assignment where
  /-- `_a = const k` -/
  | constant (a : Nat) (k : Int)
  /-- `_a = copy _b` -/
  | copy (a b : Nat)
  /-- `_p = &raw mut _a` -/
  | address (p a : Nat)
  /-- `_p = copy _q` -/
  | repoint (p q : Nat)
  /-- `(*_p) = const k` -/
  | through (p : Nat) (k : Int)
  deriving DecidableEq, Repr

/-- What the locals of a function hold: the values of the integers, and where the pointers point,
unless that is none of the locals. -/
structure Store where
  value : Nat → Int
  target : Nat → Option Nat

namespace Store

/-- Gives an integer a value. -/
def write (m : Store) (a : Nat) (k : Int) : Store :=
  { m with value := fun n => if n = a then k else m.value n }

theorem value_write (m : Store) (a : Nat) (k : Int) (n : Nat) :
    (m.write a k).value n = if n = a then k else m.value n := rfl

/-- Makes a pointer point elsewhere. -/
def point (m : Store) (p : Nat) (a : Option Nat) : Store :=
  { m with target := fun n => if n = p then a else m.target n }

/-- Where a switch on an integer goes. -/
def switch (m : Store) (a : Nat) (arms : List (Int × BlockId)) (otherwise : Option BlockId) :
    List BlockId :=
  (((arms.find? fun arm => arm.1 = m.value a).map (·.2)).or otherwise).toList

end Store

/-- The local is an integer. -/
def LocalDecl.HoldsInt (locals : List LocalDecl) (a : Nat) : Prop :=
  ∃ d, locals[a]? = some d ∧ d.ty.kind = .int

/-- The local is a raw pointer to an integer. -/
def LocalDecl.HoldsPointer (locals : List LocalDecl) (p : Nat) : Prop :=
  ∃ d mutable pointee, locals[p]? = some d ∧ d.ty = .rawPtr mutable pointee ∧ pointee.kind = .int

namespace Assignment

open LocalDecl

/-- The assignment as a statement of a function. -/
def statement (loc : Location) (c : Assignment) : Statement :=
  { loc
    kind :=
      match c with
      | constant a k => .assign { base := a } (.use (.constant (.int k) Ty.int32))
      | copy a b => .assign { base := a } (.use (.copy { base := b }))
      | address p a => .assign { base := p } (.addressOf true { base := a })
      | repoint p q => .assign { base := p } (.use (.copy { base := q }))
      | through p k =>
        .assign { base := p, steps := [.deref] } (.use (.constant (.int k) Ty.int32)) }

/-- The locals are of the types that the assignment is for. -/
def Typed (locals : List LocalDecl) : Assignment → Prop
  | constant a _ => HoldsInt locals a
  | copy a b => HoldsInt locals a ∧ HoldsInt locals b
  | address p a => HoldsPointer locals p ∧ HoldsInt locals a
  | repoint p q => HoldsPointer locals p ∧ HoldsPointer locals q
  | through p _ => HoldsPointer locals p

/-- The store after the assignment. -/
def exec (m : Store) : Assignment → Store
  | constant a k => m.write a k
  | copy a b => m.write a (m.value b)
  | address p a => m.point p (some a)
  | repoint p q => m.point p (m.target q)
  | through p k =>
    match m.target p with
    | some a => m.write a k
    | none => m

/-- The store after assignments. -/
def execAll (m : Store) (steps : List (Location × Assignment)) : Store :=
  steps.foldl (fun m x => x.2.exec m) m

/-- The assignments as the statements of a block. -/
def statements (steps : List (Location × Assignment)) : List Statement :=
  steps.map fun x => x.2.statement x.1

/-- The values that are assigned by name. -/
def record (r : Nat → Option Int) : Assignment → Nat → Option Int
  | constant a k => fun n => if n = a then some k else r n
  | copy a b => fun n => if n = a then r b else r n
  | address _ _ | repoint _ _ | through _ _ => r

/-- A write through a pointer meets no other value that the path knows. -/
def Heeds (s : PathState) (m : Store) : Assignment → Prop
  | through p k => ∀ a, m.target p = some a → ∀ v, s.known a = some v → v = .int k
  | _ => True

/-- Every assignment, in the state and the store that it meets, heeds what the path knows. -/
def Heeded (t : NodeTable) (p : Progress) (m : Store) : List (Location × Assignment) → Prop
  | [] => True
  | x :: rest =>
    x.2.Heeds p.state m ∧ Heeded t (p.statement t (x.2.statement x.1)) (x.2.exec m) rest

/-- What the path knows after the assignment. -/
def knownAfter (s : PathState) (n : NodeId) : Assignment → Option Scalar
  | constant a k => if n = a then some (.int k) else s.known n
  | copy a b => if n = a then s.known b else s.known n
  | address p _ => if n = p then none else s.known n
  | repoint p q => if n = p ∧ q ≠ p then none else s.known n
  | through _ _ => s.known n

end Assignment

/-- Every value that the path knows is the value in the store. -/
def PathState.Follows (s : PathState) (m : Store) : Prop :=
  ∀ (a : Nat) (v : Scalar), s.known a = some v → v = .int (m.value a)

/-! ### One assignment -/

section Step

open LocalDecl

variable {ds : Declarations} {locals : List LocalDecl} {a : Nat}

theorem LocalDecl.HoldsInt.leaf (h : HoldsInt locals a) :
    (NodeTable.ofLocals ds locals).children a = [] ∧
      (NodeTable.ofLocals ds locals).isPointer a = false := by
  obtain ⟨d, hd, hkind⟩ := h
  have hnode := NodeTable.node_ofLocals ds hd (by rw [hkind]; rfl)
  refine ⟨by rw [NodeTable.children, hnode]; rfl, ?_⟩
  rw [NodeTable.isPointer, NodeTable.ty, hnode, NodeTable.localNode, Ty.isPointer, hkind]
  rfl

theorem LocalDecl.HoldsPointer.leaf (h : HoldsPointer locals a) :
    (NodeTable.ofLocals ds locals).children a = [] ∧
      (NodeTable.ofLocals ds locals).isPointer a = true := by
  obtain ⟨d, mutable, pointee, hd, hty, -⟩ := h
  have hnode := NodeTable.node_ofLocals ds hd (by rw [hty]; rfl)
  refine ⟨by rw [NodeTable.children, hnode]; rfl, ?_⟩
  rw [NodeTable.isPointer, NodeTable.ty, hnode, NodeTable.localNode, Ty.isPointer, hty]
  rfl

/-- An operand is stored in a local by name. -/
theorem Progress.state_statement_use (t : NodeTable) (p : Progress) (loc : Location) (a : Nat)
    (o : Operand) :
    (p.statement t { loc, kind := .assign { base := a } (.use o) }).state =
      p.state.storeOperand t a o := by
  change ((p.useOperand t loc "assignment" o).on fun s => s.storeOperand t a o).state = _
  rw [Progress.state_on, Progress.state_useOperand]

/-- A copy takes the value along, unless it is a pointer. -/
theorem PathState.known_storeOperand_copy {t : NodeTable} {a : Nat} (hleaf : t.children a = [])
    (s : PathState) (b : Nat) (n : NodeId) :
    (s.storeOperand t a (.copy { base := b })).known n =
      if n = a ∧ b ≠ a then if t.isPointer b then none else s.known b else s.known n := by
  have hstore : s.storeOperand t a (.copy { base := b }) =
      if b = a then s
      else if t.isPointer b then (s.overwrite t a).join a b
      else (s.overwrite t a).setKnown? a (s.known b) := rfl
  by_cases hba : b = a
  · rw [hstore, if_pos hba, if_neg fun h => h.2 hba]
  · rw [hstore, if_neg hba]
    simp only [hba, ne_eq, not_false_eq_true, and_true]
    cases t.isPointer b with
    | true => exact (known_join _ a b n).trans (known_overwrite hleaf s n)
    | false =>
        cases hb : s.known b with
        | none => simpa [setKnown?, hb] using known_overwrite hleaf s n
        | some v => exact known_overwrite_setKnown hleaf s v n

/-- **What the path knows after an assignment.** -/
theorem Assignment.known_statement (ds : Declarations) {c : Assignment} (hc : c.Typed locals)
    (p : Progress) (loc : Location) (n : NodeId) :
    (p.statement (.ofLocals ds locals) (c.statement loc)).state.known n =
      c.knownAfter p.state n := by
  cases c with
  | constant a k =>
      rw [statement, Progress.state_statement_use]
      exact PathState.known_overwrite_setKnown hc.leaf.1 p.state (.int k) n
  | copy a b =>
      obtain ⟨ha, hb⟩ := hc
      rw [statement, Progress.state_statement_use, PathState.known_storeOperand_copy ha.leaf.1,
        hb.leaf.2, knownAfter]
      by_cases hn : n = a
      · by_cases hba : b = a <;> simp [hn, hba]
      · rw [if_neg hn, if_neg fun h => hn h.1]
  | address q a =>
      obtain ⟨hq, -⟩ := hc
      change ((p.state.overwrite _ q).join q a).known n = _
      rw [PathState.known_join, PathState.known_overwrite hq.leaf.1, knownAfter]
  | repoint q r =>
      obtain ⟨hq, hr⟩ := hc
      rw [statement, Progress.state_statement_use, PathState.known_storeOperand_copy hq.leaf.1,
        hr.leaf.2, knownAfter, if_pos rfl]
  | through q k =>
      exact PathState.known_congr (Progress.values_assignThrough loc q _ p) n

/-- A value that is written by name in the store is known, or not known, by that name. -/
theorem PathState.Follows.write {s s' : PathState} {m : Store} (h : s.Follows m)
    {x : Option Scalar} {k : Int}
    (hknown : ∀ n : Nat, s'.known n = if n = a then x else s.known n)
    (hx : ∀ v, x = some v → v = .int k) : s'.Follows (m.write a k) := by
  intro n v hv
  rw [hknown] at hv
  by_cases hn : n = a
  · rw [if_pos hn] at hv
    rw [hx v hv, Store.value_write, if_pos hn]
  · rw [if_neg hn] at hv
    rw [h n v hv, Store.value_write, if_neg hn]

/-- What the path knows stays right just when the assignment heeds it. -/
theorem Assignment.follows_statement_iff (ds : Declarations) {c : Assignment}
    (hc : c.Typed locals) {p : Progress} {m : Store} (h : p.state.Follows m) (loc : Location) :
    (p.statement (.ofLocals ds locals) (c.statement loc)).state.Follows (c.exec m) ↔
      c.Heeds p.state m := by
  have hknown := fun n : Nat => known_statement ds hc p loc n
  cases c with
  | constant a k =>
      exact iff_of_true (h.write hknown fun v hv => (Option.some.inj hv).symm) trivial
  | copy a b => exact iff_of_true (h.write hknown (h b)) trivial
  | address q a =>
      refine iff_of_true (fun n v hv => h n v ?_) trivial
      rw [hknown, knownAfter] at hv
      split at hv
      · cases hv
      · exact hv
  | repoint q r =>
      refine iff_of_true (fun n v hv => h n v ?_) trivial
      rw [hknown, knownAfter] at hv
      split at hv
      · cases hv
      · exact hv
  | through q k =>
      rw [exec, Heeds]
      cases m.target q with
      | none => exact iff_of_true (fun n v hv => h n v ((hknown n).symm.trans hv)) (by simp)
      | some a =>
          refine ⟨fun hafter b hb v hv => ?_, fun hheeds => ?_⟩
          · obtain rfl := Option.some.inj hb
            simpa [Store.value_write] using hafter a v ((hknown a).trans hv)
          · refine h.write (fun n => (hknown n).trans ?_) (hheeds a rfl)
            rw [knownAfter]
            by_cases hn : n = a <;> simp [hn]

/-- The path knows the values that are assigned by name, and none of pointers. -/
theorem Assignment.known_record (ds : Declarations) {c : Assignment} (hc : c.Typed locals)
    {p : Progress} {r : Nat → Option Int} (hr : ∀ n : Nat, p.state.known n = (r n).map .int)
    (hpointer : ∀ n, HoldsPointer locals n → r n = none) (loc : Location) :
    (∀ n : Nat, (p.statement (.ofLocals ds locals) (c.statement loc)).state.known n =
        (c.record r n).map .int) ∧
      ∀ n, HoldsPointer locals n → c.record r n = none := by
  have hne : ∀ {a n}, HoldsInt locals a → HoldsPointer locals n → n ≠ a := by
    rintro a n ⟨d, hd, hkind⟩ ⟨d', mutable, pointee, hd', hty, -⟩ rfl
    obtain rfl := Option.some.inj (hd.symm.trans hd')
    rw [hty] at hkind
    cases hkind
  have hnone : ∀ {q}, HoldsPointer locals q → p.state.known q = none := fun hq => by
    rw [hr, hpointer _ hq, Option.map_none]
  constructor
  · intro n
    rw [known_statement ds hc]
    cases c with
    | constant a k => simp only [knownAfter, record, hr, apply_ite (Option.map Scalar.int)]; rfl
    | copy a b => simp only [knownAfter, record, hr, apply_ite (Option.map Scalar.int)]
    | address q a =>
        rw [knownAfter, record, ← hr]
        exact ite_eq_right_iff.mpr fun hn => (hn ▸ hnone hc.1).symm
    | repoint q q' =>
        rw [knownAfter, record, ← hr]
        exact ite_eq_right_iff.mpr fun hn => (hn.1 ▸ hnone hc.1).symm
    | through q k => exact hr n
  · intro n hn
    cases c with
    | constant a k => exact (if_neg (hne hc hn)).trans (hpointer n hn)
    | copy a b => exact (if_neg (hne hc.1 hn)).trans (hpointer n hn)
    | address q a => exact hpointer n hn
    | repoint q q' => exact hpointer n hn
    | through q k => exact hpointer n hn

end Step

/-! ### Sequences of assignments -/

namespace Assignment

variable (ds : Declarations) {locals : List LocalDecl}

/-- What the path knows is right after each of the assignments just when all of them heed it. -/
theorem follows_statements_iff {steps : List (Location × Assignment)} {p : Progress} {m : Store}
    (htyped : ∀ x ∈ steps, x.2.Typed locals) (h : p.state.Follows m) :
    (∀ done, done <+: steps →
        ((statements done).foldl (Progress.statement (.ofLocals ds locals)) p).state.Follows
          (execAll m done)) ↔
      Heeded (.ofLocals ds locals) p m steps := by
  induction steps generalizing p m with
  | nil =>
      refine iff_of_true (fun done hdone => ?_) trivial
      obtain rfl := List.prefix_nil.mp hdone
      exact h
  | cons x rest ih =>
      have hstep := follows_statement_iff ds (htyped x List.mem_cons_self) h x.1
      have hrest := fun hx : x.2.Heeds p.state m =>
        ih (fun y hy => htyped y (List.mem_cons_of_mem x hy)) (hstep.mpr hx)
      rw [Heeded]
      constructor
      · intro hall
        have hx := hstep.mp (hall [x] (List.prefix_iff_eq_take.mpr rfl))
        exact ⟨hx, (hrest hx).mp fun done hdone =>
          hall (x :: done) (List.cons_prefix_cons.mpr ⟨rfl, hdone⟩)⟩
      · rintro ⟨hx, hheeded⟩ done hdone
        obtain rfl | ⟨more, rfl, hmore⟩ := List.prefix_cons_iff.mp hdone
        · exact h
        · exact (hrest hx).mpr hheeded more hmore

/-- The path knows just the values that are assigned by name. -/
theorem known_statements {steps : List (Location × Assignment)}
    (htyped : ∀ x ∈ steps, x.2.Typed locals) {p : Progress} {r : Nat → Option Int}
    (hr : ∀ n : Nat, p.state.known n = (r n).map .int)
    (hpointer : ∀ n, LocalDecl.HoldsPointer locals n → r n = none) (n : Nat) :
    ((statements steps).foldl (Progress.statement (.ofLocals ds locals)) p).state.known n =
      (steps.foldl (fun r x => x.2.record r) r n).map .int := by
  induction steps generalizing p r with
  | nil => exact hr n
  | cons x rest ih =>
      have hstep := known_record ds (htyped x List.mem_cons_self) hr hpointer x.1
      exact ih (fun y hy => htyped y (List.mem_cons_of_mem x hy)) hstep.1 hstep.2

end Assignment

/-! ### Branches -/

namespace Visit

variable {t : NodeTable} {p : Progress} {m : Store} {a : Nat} {o : Operand}

theorem valueOf_local (ho : o.place? = some { base := a }) :
    p.state.valueOf t o = p.state.known a := by
  rw [PathState.valueOf, ho]
  rfl

/-- A switch on a known integer goes where the execution goes. -/
theorem succs_switch (h : p.state.Follows m) (hknown : (p.state.known a).isSome)
    (ho : o.place? = some { base := a }) {b : GraphBlock} {arms : List (Int × BlockId)}
    {otherwise : Option BlockId} (hb : b.terminator.kind = .switchInt o arms otherwise)
    (unwind : List BlockId) : (plain t b unwind p).succs = m.switch a arms otherwise := by
  obtain ⟨v, hv⟩ := Option.isSome_iff_exists.mp hknown
  have hvalue : (p.useOperand t b.terminator.loc "switch operand" o).state.valueOf t o =
      some (.int (m.value a)) := by
    rw [Progress.state_useOperand, valueOf_local ho, hv, h a v hv]
  simp only [plain, hb, hvalue]
  have harm : (arms.find? fun arm => arm.1 == (Scalar.int (m.value a)).toInt) =
      arms.find? fun arm => arm.1 = m.value a := rfl
  rw [arm, harm, Store.switch]
  cases arms.find? fun arm => arm.1 = m.value a with
  | none => rfl
  | some arm => rfl

/-- An assertion on a known integer goes where the execution goes. -/
theorem succs_assert (h : p.state.Follows m) (hknown : (p.state.known a).isSome)
    (ho : o.place? = some { base := a }) {b : GraphBlock} {expected : Bool} {target : BlockId}
    {cleanup : Option BlockId} (hb : b.terminator.kind = .assert o expected target cleanup)
    (unwind : List BlockId) :
    (plain t b unwind p).succs = if (m.value a ≠ 0 ↔ expected) then [target] else unwind := by
  obtain ⟨v, hv⟩ := Option.isSome_iff_exists.mp hknown
  have hvalue : (p.useOperand t b.terminator.loc "assert operand" o).state.valueOf t o =
      some (.int (m.value a)) := by
    rw [Progress.state_useOperand, valueOf_local ho, hv, h a v hv]
  simp only [plain, hb, hvalue]
  refine if_congr ?_ rfl rfl
  rw [Bool.eq_iff_iff, Scalar.toBool, bne_iff_ne]

end Visit

/-! ### The law of known values -/

namespace Walk

open Assignment

/-- **Known values follow the store as far as writes by name go.**  Of a sequence of assignments to
integers and pointers to them, from a state that knows nothing:

* what the path knows are the values that were assigned by name, and no more;
* that is the truth after every assignment just when no write through a pointer changes a local whose
  value is known;
* and as long as it is the truth, a switch or an assertion on a known value goes where the execution
  goes. -/
theorem constants_follow_store (ds : Declarations) {locals : List LocalDecl}
    {steps : List (Location × Assignment)} (htyped : ∀ x ∈ steps, x.2.Typed locals)
    {p : Progress} (hnone : p.state.values = []) (m : Store) :
    let t := NodeTable.ofLocals ds locals
    let after := fun done => (statements done).foldl (Progress.statement t) p
    (∀ n : Nat, (after steps).state.known n =
        (steps.foldl (fun r x => x.2.record r) (fun _ => none) n).map .int) ∧
      ((∀ done, done <+: steps → (after done).state.Follows (execAll m done)) ↔
        Heeded t p m steps) ∧
      (Heeded t p m steps → ∀ (a : Nat) (o : Operand) (b : GraphBlock) (unwind : List BlockId),
        ((after steps).state.known a).isSome → o.place? = some { base := a } →
        (∀ arms otherwise, b.terminator.kind = .switchInt o arms otherwise →
          (Visit.plain t b unwind (after steps)).succs =
            (execAll m steps).switch a arms otherwise) ∧
        (∀ expected target cleanup, b.terminator.kind = .assert o expected target cleanup →
          (Visit.plain t b unwind (after steps)).succs =
            if ((execAll m steps).value a ≠ 0 ↔ expected) then [target] else unwind)) := by
  have hknown : ∀ n : Nat, p.state.known n = none := fun n => by
    rw [PathState.known, hnone, List.lookup_nil]
  have hstart : p.state.Follows m := fun a v hv => by
    rw [hknown] at hv
    cases hv
  have hiff := follows_statements_iff ds htyped hstart
  refine ⟨known_statements ds htyped hknown fun _ _ => rfl, hiff, ?_⟩
  intro hheeded a o b unwind hsome ho
  have hfollows := hiff.mpr hheeded steps (List.prefix_refl steps)
  exact ⟨fun arms otherwise hb => Visit.succs_switch hfollows hsome ho hb unwind,
    fun expected target cleanup hb => Visit.succs_assert hfollows hsome ho hb unwind⟩

/-- A result, two integers, and a pointer to an integer. -/
def intLocals : List LocalDecl :=
  [{ ty := Ty.unit }, { ty := Ty.int32 }, { ty := Ty.int32 }, { ty := .rawPtr true Ty.int32 }]

/-- The state at the entry of a function without parameters. -/
def intEntry : Progress := { state := .initial (NodeTable.ofLocals .empty intLocals).size }

/-- All integers are zero, and no pointer points at a local. -/
def zeroStore : Store := { value := fun _ => 0, target := fun _ => none }

/-- A block that goes to one block if `_1` is five, and to another if it is not. -/
def fiveBlock : GraphBlock :=
  { id := 0, statements := [],
    terminator := ⟨default, .switchInt (.copy { base := 1 }) [(5, 1)] (some 2)⟩,
    succs := [1, 2], unwinds := [] }

/-- A write through a pointer, before the values are known. -/
def earlyWrite : List (Location × Assignment) :=
  [(default, .address 3 1), (default, .through 3 7), (default, .constant 2 5),
    (default, .copy 1 2)]

/-- The switch on the copied value goes where the execution goes. -/
theorem earlyWrite_follows_store :
    (∀ x ∈ earlyWrite, x.2.Typed intLocals) ∧ intEntry.state.values = [] ∧
      Heeded (.ofLocals .empty intLocals) intEntry zeroStore earlyWrite ∧
      (execAll zeroStore earlyWrite).switch 1 [(5, 1)] (some 2) = [1] ∧
      (Visit.plain (.ofLocals .empty intLocals) fiveBlock []
        ((statements earlyWrite).foldl (Progress.statement (.ofLocals .empty intLocals))
          intEntry)).succs = [1] := by
  have hone : LocalDecl.HoldsInt intLocals 1 := ⟨_, rfl, rfl⟩
  have htwo : LocalDecl.HoldsInt intLocals 2 := ⟨_, rfl, rfl⟩
  have hthree : LocalDecl.HoldsPointer intLocals 3 := ⟨_, _, _, rfl, rfl, rfl⟩
  have htyped : ∀ x ∈ earlyWrite, x.2.Typed intLocals := by
    simp only [earlyWrite, List.forall_mem_cons, List.not_mem_nil, false_implies, implies_true,
      and_true]
    exact ⟨⟨hthree, hone⟩, hthree, htwo, hone, htwo⟩
  have hheeded : Heeded (.ofLocals .empty intLocals) intEntry zeroStore earlyWrite := by
    refine ⟨trivial, fun a ha v hv => ?_, trivial, trivial, trivial⟩
    obtain rfl : 1 = a := Option.some.inj ha
    cases hv
  obtain ⟨-, -, hbranch⟩ := constants_follow_store .empty htyped (p := intEntry) rfl zeroStore
  refine ⟨htyped, rfl, hheeded, rfl, ?_⟩
  exact (hbranch hheeded 1 _ fiveBlock [] rfl rfl).1 _ _ rfl

/-- A write through a pointer to a local whose value is known. -/
def lateWrite : List (Location × Assignment) :=
  [(default, .constant 1 1), (default, .address 3 1), (default, .through 3 5)]

/-- **A write through a pointer leaves a stale value**: `_1` holds five, the path takes it for one,
and the switch misses the block where the execution goes. -/
theorem lateWrite_leaves_stale_value :
    ∃ after, after =
        (statements lateWrite).foldl (Progress.statement (.ofLocals .empty intLocals)) intEntry ∧
      after.state.known 1 = some (.int 1) ∧ (execAll zeroStore lateWrite).value 1 = 5 ∧
      ¬after.state.Follows (execAll zeroStore lateWrite) ∧
      (Visit.plain (.ofLocals .empty intLocals) fiveBlock [] after).succs = [2] ∧
      (execAll zeroStore lateWrite).switch 1 [(5, 1)] (some 2) = [1] := by
  refine ⟨_, rfl, rfl, rfl, fun hfollows => ?_, rfl, rfl⟩
  have hstale := hfollows 1 (.int 1) rfl
  exact absurd hstale (by decide)

end Walk

end Dangling
