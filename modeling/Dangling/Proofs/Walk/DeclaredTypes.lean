import Dangling.Proofs.Constant.Widths
import Dangling.Proofs.Text.Numeral
import Dangling.Proofs.Walk.Constants

/-!
# Proofs — Walk — DeclaredTypes

Whether a value that a path knows is the value at the declared type.  An assignment computes on integers
of a type; the path folds it on unbounded numbers and signed words, whatever the type, and converts by
keeping the number.  So what is recorded is right just when the folded word and the value at the type are
one number, and a switch on it then takes the arm that the program takes.

* `Operand.valueIn`, `Operand.IsIntIn`: the values of operands in a store, and operands of a type.
* `Store.valuation`: the values that a store gives to the symbols of its nodes.
* `PathState.foldBinary_eq`: what a sound simplifier folds is the operation on the values, known or not.
* `IntType.value?`, `IntType.Agree`: what the program computes, and when folding agrees with it.
* `Walk.constants_at_declared_type`: what is recorded is right just when folding agrees.
-/

namespace Dangling

/-! ### Operands and their values -/

/-- The node is an integer of the type. -/
def NodeTable.IsInt (t : NodeTable) (pointer : PointerWidth) (T : IntType) (n : NodeId) : Prop :=
  ∃ name, t.ty n = .scalar .int name ∧ IntType.ofName? pointer name = some T

/-- The value of an operand in a store.  What is read through a pointer is whatever is there. -/
def Operand.valueIn (t : NodeTable) (m : Store) (behind : Place → Int) : Operand → Int
  | .move q | .copy q => if (t.lookup q).2 then behind q else m.value (t.lookup q).1
  | .constant v _ => ((Scalar.ofJson? v).map Scalar.toInt).getD 0

/-- The operand is a place of the integer type, with a value of the type, and the path knows no other
value of it. -/
structure Operand.IsIntIn (pointer : PointerWidth) (t : NodeTable) (T : IntType) (s : PathState)
    (m : Store) (behind : Place → Int) (o : Operand) : Prop where
  place : ∃ q, o.place? = some q ∧ ((t.lookup q).2 = false → t.IsInt pointer T (t.lookup q).1)
  holds : T.Holds (o.valueIn t m behind)
  known : ∀ v, s.valueOf t o = some v → v = .int (o.valueIn t m behind)

section Terms

variable {pointer : PointerWidth} {t : NodeTable} {T : IntType} {s : PathState} {m : Store}
  {behind : Place → Int} {o l r : Operand}

theorem nodeName_inj {i j : Nat} (h : s!"n{i}" = s!"n{j}") : i = j := by
  have hlist := congrArg String.toList h
  refine Text.toDigits_injective ?_
  simpa using hlist

theorem nodeName_ne {i : Nat} {side : String} (hside : side.toList.head? ≠ some 'n') :
    s!"n{i}" ≠ side := by
  rintro rfl
  refine hside ?_
  simp [toString]

/-- No side of an operator has the name of a node. -/
theorem side_ne {side : String} (h : side = "left" ∨ side = "right" ∨ side = "operand") :
    side.toList.head? ≠ some 'n' := by
  obtain rfl | rfl | rfl := h <;> decide

open Classical in
/-- The values of symbols in a store: a node's symbol has the node's value, and a symbol of its own the
value that is given for it. -/
noncomputable def Store.valuation (m : Store) (own : String → Int) : Valuation where
  number name := if h : ∃ i : Nat, name = s!"n{i}" then m.value h.choose else own name
  truth _ := false
  byZero _ := 0

theorem Store.valuation_node (m : Store) (own : String → Int) (i : Nat) :
    (m.valuation own).number s!"n{i}" = m.value i := by
  have h : ∃ j : Nat, s!"n{i}" = s!"n{j}" := ⟨i, rfl⟩
  exact (dif_pos h).trans (congrArg m.value (nodeName_inj h.choose_spec).symm)

theorem Store.valuation_side (m : Store) (own : String → Int) {side : String}
    (hside : side.toList.head? ≠ some 'n') : (m.valuation own).number side = own side :=
  dif_neg fun ⟨_, hi⟩ => nodeName_ne hside hi.symm

/-- The term of an integer: its value, a symbol for its node, or a symbol of its own. -/
theorem Operand.IsIntIn.termOf_eq (h : o.IsIntIn pointer t T s m behind) (side : String) :
    s.termOf t side o = .lit (.int (o.valueIn t m behind)) ∨
      (∃ n : Nat, s.termOf t side o = .sym s!"n{n}" false ∧ o.valueIn t m behind = m.value n) ∨
      s.termOf t side o = .sym side false := by
  obtain ⟨q, hq, hty⟩ := h.place
  rw [PathState.termOf]
  cases hv : s.valueOf t o with
  | some v => exact .inl (congrArg Term.lit (h.known v hv))
  | none =>
      rw [hq]
      cases hderef : (t.lookup q).2 with
      | true => exact .inr (.inr (by simp only [hderef]; rfl))
      | false =>
          obtain ⟨name, hname, -⟩ := hty hderef
          refine .inr (.inl ⟨(t.lookup q).1, ?_, ?_⟩)
          · simp only [hderef, hname]
            rfl
          · cases o with
            | constant v ty => cases hq
            | move q' | copy q' =>
                cases hq
                rw [valueIn, hderef]
                rfl

/-- The term of an integer stands for its value. -/
theorem Operand.IsIntIn.eval_termOf (h : o.IsIntIn pointer t T s m behind) {side : String}
    (hside : side.toList.head? ≠ some 'n') (own : String → Int)
    (hvalue : own side = o.valueIn t m behind) :
    (s.termOf t side o).eval (m.valuation own) = .int (o.valueIn t m behind) := by
  obtain hlit | ⟨n, hsym, hn⟩ | hsym := h.termOf_eq side
  · rw [hlit]
    rfl
  · rw [hsym, hn]
    exact congrArg Scalar.int (m.valuation_node own n)
  · rw [hsym, ← hvalue]
    exact congrArg Scalar.int (m.valuation_side own hside)

variable {simplify : Simplifier} (hsound : simplify.Sound)
include hsound

/-- **What is folded from integers is the operation on their values.** -/
theorem PathState.foldBinary_eq {op : BinOp} {v : Scalar} (hl : l.IsIntIn pointer t T s m behind)
    (hr : r.IsIntIn pointer t T s m behind) (h : s.foldBinary t op l r simplify = some v) :
    ∃ ρ, op.value? ρ (.int (l.valueIn t m behind)) (.int (r.valueIn t m behind)) = some v := by
  let sides : String → Int := fun side =>
    if side = "left" then l.valueIn t m behind else r.valueIn t m behind
  have hleft := hl.eval_termOf (side_ne (.inl rfl)) sides (if_pos rfl)
  have hright := hr.eval_termOf (side_ne (.inr (.inl rfl))) sides (if_neg (by decide))
  refine ⟨m.valuation sides, ?_⟩
  rw [← hleft, ← hright]
  exact hsound.binary_eq _ h

theorem PathState.foldUnary_eq {op : UnOp} {v : Scalar} (ho : o.IsIntIn pointer t T s m behind)
    (h : s.foldUnary t op o simplify = some v) :
    ∃ ρ, op.value? ρ (.int (o.valueIn t m behind)) = some v := by
  have hoperand := ho.eval_termOf (side_ne (.inr (.inr rfl))) (fun _ => o.valueIn t m behind) rfl
  refine ⟨m.valuation fun _ => o.valueIn t m behind, ?_⟩
  rw [← hoperand]
  exact hsound.unary_eq _ h

end Terms

/-! ### What is recorded -/

namespace PathState

variable {t : NodeTable} {s : PathState}

theorem known_overwrite_self (s : PathState) (dest : NodeId) : (s.overwrite t dest).known dest = none := by
  rw [overwrite, known_kill, if_pos (t.self_mem_subtree dest)]

/-- A value that is stored is known, and no other. -/
theorem known_setKnown?_overwrite (s : PathState) (dest : NodeId) (v : Option Scalar) :
    ((s.overwrite t dest).setKnown? dest v).known dest = v := by
  cases v with
  | none => exact known_overwrite_self s dest
  | some v => rw [setKnown?, known_setKnown, if_pos rfl]

/-- A converted value is the value of the operand. -/
theorem known_storeCast {dest : NodeId} {o : Operand} {ty : Ty} (hty : ty.kind = .int) {v : Scalar}
    (h : (s.storeCast t dest o ty).known dest = some v) :
    ∃ u, s.valueOf t o = some u ∧ v.toInt = u.toInt := by
  rw [storeCast.eq_def] at h
  dsimp only at h
  split at h
  case h_1 => exact ⟨v, (known_setKnown?_overwrite s dest _).symm.trans h, rfl⟩
  case h_2 place hplace =>
    split at h
    case isTrue =>
      rw [known_overwrite_self] at h
      cases h
    case isFalse =>
      split at h
      case isTrue =>
        -- a pointer has no value
        have hnone := known_overwrite_self (t := t) s dest
        refine absurd ((h.symm.trans (known_congr ?_ dest)).trans hnone) (by simp)
        split <;> simp
      case isFalse =>
        rw [known_setKnown?_overwrite] at h
        obtain ⟨u, hu, hcast⟩ := Option.bind_eq_some_iff.mp h
        rw [hty] at hcast
        cases hcast
        exact ⟨u, hu, rfl⟩

end PathState

/-! ### Switches -/

namespace Visit

/-- A switch on the node, of which the path knows the value `v`, goes where a switch on the number `k`
goes. -/
def SwitchesAs (t : NodeTable) (dest : NodeId) (v : Scalar) (k : Int) : Prop :=
  ∀ (p : Progress) (m : Store) (o : Operand) (q : Place) (b : GraphBlock)
    (arms : List (Int × BlockId)) (otherwise : Option BlockId) (unwind : List BlockId),
    p.state.known dest = some v → m.value dest = k → o.place? = some q → t.lookup q = (dest, false) →
      b.terminator.kind = .switchInt o arms otherwise →
        (plain t b unwind p).succs = m.switch dest arms otherwise

variable {t : NodeTable} {dest : NodeId} {v : Scalar} {k : Int}

/-- A switch on a known value takes the arm of the value. -/
theorem succs_of_known {p : Progress} {o : Operand} {q : Place} {b : GraphBlock}
    {arms : List (Int × BlockId)} {otherwise : Option BlockId} (hknown : p.state.known dest = some v)
    (ho : o.place? = some q) (hq : t.lookup q = (dest, false))
    (hb : b.terminator.kind = .switchInt o arms otherwise) (unwind : List BlockId) :
    (plain t b unwind p).succs = arm arms otherwise v := by
  have hvalue : (p.useOperand t b.terminator.loc "switch operand" o).state.valueOf t o = some v := by
    rw [Progress.state_useOperand, PathState.valueOf, ho]
    simp only [hq, hknown]
    rfl
  simp only [plain, hb, hvalue]

theorem arm_eq_switch {m : Store} (hm : m.value dest = v.toInt) (arms : List (Int × BlockId))
    (otherwise : Option BlockId) : arm arms otherwise v = m.switch dest arms otherwise := by
  have hfind : (arms.find? fun a => a.1 == v.toInt) = arms.find? fun a => a.1 = m.value dest := by
    rw [hm]
    rfl
  rw [arm, hfind, Store.switch]
  cases arms.find? fun a => a.1 = m.value dest with
  | none => rfl
  | some a => rfl

theorem switchesAs_iff {place : Place} (hplace : t.lookup place = (dest, false)) :
    SwitchesAs t dest v k ↔ v.toInt = k := by
  constructor
  · intro h
    -- a switch that tells `k` from all other numbers
    let b : GraphBlock :=
      { id := 0, statements := [],
        terminator := ⟨default, .switchInt (.copy place) [(k, 0)] (some 1)⟩,
        succs := [0, 1], unwinds := [] }
    let p : Progress := { state := { nodes := #[], values := [(dest, v)] } }
    let m : Store := { value := fun _ => k, target := fun _ => none }
    have hknown : p.state.known dest = some v := by simp [p, PathState.known]
    have hsuccs := h p m (.copy place) place b [(k, 0)] (some 1) [] hknown rfl rfl hplace rfl
    rw [succs_of_known hknown rfl hplace rfl] at hsuccs
    by_contra hne
    simp [arm, Store.switch, m, Ne.symm hne] at hsuccs
  · rintro rfl p m o q b arms otherwise unwind hknown hm ho hq hb
    rw [succs_of_known hknown ho hq hb, arm_eq_switch hm]

end Visit

/-! ### The law of declared types -/

namespace IntType

variable (T : IntType) (value : Operand → Int)

/-- What a program computes at the type. -/
def value? : Rvalue → Option Int
  | .unary op o => T.unary? op (value o)
  | .binary op l r => T.binary? op (value l) (value r)
  | .cast o _ => some (T.reduce (value o))
  | _ => none

/-- When the folded value is what the program computes. -/
def Agree : Rvalue → Prop
  | .unary op o => T.UnaryAgrees op (value o)
  | .binary op l r => T.BinaryAgrees op (value l) (value r)
  | .cast o _ => T.Holds (value o)
  | _ => False

end IntType

/-- The operand is a number, a truth value or a character, and the path knows no other value of it. -/
structure Operand.ConvertsIn (t : NodeTable) (s : PathState) (m : Store) (behind : Place → Int)
    (o : Operand) : Prop where
  place : ∀ q, o.place? = some q → (t.lookup q).2 = false →
    (t.ty (t.lookup q).1).kind ∈ [.int, .bool, .char]
  known : ∀ v, s.valueOf t o = some v → v.toInt = o.valueIn t m behind

/-- Bit operations on places of the type, shifts by less than its width, and conversions to it. -/
def Rvalue.ComputesIn (pointer : PointerWidth) (t : NodeTable) (T : IntType) (s : PathState)
    (m : Store) (behind : Place → Int) : Rvalue → Prop
  | .unary op o => op = .not ∧ o.IsIntIn pointer t T s m behind
  | .binary op l r =>
    op ∈ [.bitAnd, .bitOr, .bitXor, .shl, .shr] ∧ l.IsIntIn pointer t T s m behind ∧
      r.IsIntIn pointer t T s m behind ∧
      (op = .shl ∨ op = .shr → 0 ≤ r.valueIn t m behind ∧ r.valueIn t m behind < T.width)
  | .cast o ty =>
    (∃ name, ty = .scalar .int name ∧ IntType.ofName? pointer name = some T) ∧
      o.ConvertsIn t s m behind
  | _ => False

/-- An assignment to a place of the integer type, of what is computed at the type. -/
structure Rvalue.AssignsInt (pointer : PointerWidth) (t : NodeTable) (T : IntType) (s : PathState)
    (m : Store) (behind : Place → Int) (place : Place) (dest : NodeId) (r : Rvalue) : Prop where
  lookup : t.lookup place = (dest, false)
  int : t.IsInt pointer T dest
  computes : r.ComputesIn pointer t T s m behind

namespace Walk

variable {pointer : PointerWidth} {t : NodeTable} {T : IntType} {m : Store} {behind : Place → Int}
  {p : Progress} {dest : NodeId} {place : Place} {r : Rvalue} {v : Scalar} {simplify : Simplifier}

/-- What an assignment records, against what the program computes. -/
theorem recorded_eq_iff (hsound : simplify.Sound)
    (h : r.AssignsInt pointer t T p.state m behind place dest) (loc : Location)
    (hv : (p.assign t loc place r simplify).state.known dest = some v) :
    ∃ k, T.value? (Operand.valueIn t m behind) r = some k ∧
      (v.toInt = k ↔ T.Agree (Operand.valueIn t m behind) r) := by
  obtain ⟨hdest, -, hr⟩ := h
  have hassign : p.assign t loc place r simplify = p.assignTo t loc dest r simplify := by
    rw [Progress.assign, hdest]
    rfl
  rw [hassign] at hv
  cases r with
  | unary op o =>
      obtain ⟨rfl, ho⟩ := hr
      have hfold : p.state.foldUnary t .not o simplify = some v := by
        simpa [Progress.assignTo, PathState.storeValue, PathState.known_setKnown?_overwrite] using hv
      obtain ⟨ρ, hvalue⟩ := PathState.foldUnary_eq hsound ho hfold
      exact ⟨_, rfl, IntType.unary_agrees_iff rfl hvalue⟩
  | binary op l r =>
      obtain ⟨hop, hl, hr, hamount⟩ := hr
      have hfold : p.state.foldBinary t op l r simplify = some v := by
        have hne : op ≠ .offset := by
          rintro rfl
          simp at hop
        simpa [Progress.assignTo, hne, PathState.storeValue,
          PathState.known_setKnown?_overwrite] using hv
      obtain ⟨k, hk⟩ : ∃ k, T.binary? op (l.valueIn t m behind) (r.valueIn t m behind) = some k := by
        simp only [List.mem_cons, List.not_mem_nil, or_false] at hop
        obtain rfl | rfl | rfl | rfl | rfl := hop <;> exact ⟨_, rfl⟩
      obtain ⟨ρ, hvalue⟩ := PathState.foldBinary_eq hsound hl hr hfold
      exact ⟨k, hk, IntType.binary_agrees_iff hl.holds hr.holds hamount hk hvalue⟩
  | cast o ty =>
      obtain ⟨⟨name, rfl, -⟩, ho⟩ := hr
      have hstore : (p.state.storeCast t dest o (.scalar .int name)).known dest = some v := by
        simpa [Progress.assignTo] using hv
      obtain ⟨u, hu, huv⟩ := PathState.known_storeCast rfl hstore
      refine ⟨_, rfl, ?_⟩
      rw [huv, ho.known u hu]
      exact eq_comm.trans IntType.reduce_eq_self_iff
  | _ => exact hr.elim

/-- Where folding agrees, or does not, by the type and the operator alone. -/
theorem agree_of_narrow (h : r.AssignsInt pointer t T p.state m behind place dest)
    (hnarrow : T.width < 64 ∨ T.signed = true ∧ T.width ≤ 64) :
    (∀ op a b, r = .binary op a b → op ≠ .shl → T.Agree (Operand.valueIn t m behind) r) ∧
      ∀ o, r = .unary .not o → (T.Agree (Operand.valueIn t m behind) r ↔ T.signed = true) := by
  refine ⟨?_, ?_⟩
  · rintro op a b rfl hne
    obtain ⟨hop, ha, hb, hamount⟩ := h.computes
    refine IntType.binary_agrees_of_narrow hnarrow ?_ ha.holds hb.holds fun e => (hamount (.inr e)).2
    simp only [List.mem_cons, List.not_mem_nil, or_false] at hop ⊢
    tauto
  · rintro o rfl
    exact IntType.unary_agrees_of_narrow hnarrow h.computes.2.holds

/-- **Recorded values and declared types.**  Let a simplifier keep the value of every expression, and
let an assignment that folds with it put the result of a bit operation on
places of an integer type, or of a conversion to it, into a place of the type, and let the path know
only true values of the operands.  If a value is then recorded:

* it is the value that the program computes just when folding agrees with the type: for operations other
  than shifts to the right, when the folded word is a value of the type and the value at the type is a
  signed word; for a conversion, when the converted number is a value of the type already;
* just then every switch on the recorded value takes the arm that the program takes;
* at types whose values are all signed words, folding always agrees on bit operations but shifts to the
  left, and on the negation of bits just when the type has a sign. -/
theorem constants_at_declared_type (hsound : simplify.Sound)
    (h : r.AssignsInt pointer t T p.state m behind place dest) (loc : Location)
    (hv : (p.assign t loc place r simplify).state.known dest = some v) :
    ∃ k, T.value? (Operand.valueIn t m behind) r = some k ∧
      (v.toInt = k ↔ T.Agree (Operand.valueIn t m behind) r) ∧
      (Visit.SwitchesAs t dest v k ↔ T.Agree (Operand.valueIn t m behind) r) ∧
      (T.width < 64 ∨ T.signed = true ∧ T.width ≤ 64 →
        (∀ op a b, r = .binary op a b → op ≠ .shl → T.Agree (Operand.valueIn t m behind) r) ∧
        ∀ o, r = .unary .not o → (T.Agree (Operand.valueIn t m behind) r ↔ T.signed = true)) := by
  obtain ⟨k, hk, hiff⟩ := recorded_eq_iff hsound h loc hv
  exact ⟨k, hk, hiff, (Visit.switchesAs_iff h.lookup).trans hiff, agree_of_narrow h⟩

/-- A result and three bytes. -/
def byteTable : NodeTable :=
  .ofLocals .empty [{ ty := Ty.unit }, { ty := .scalar .int "u8" }, { ty := .scalar .int "u8" },
    { ty := .scalar .int "u8" }]

/-- The bytes of eight bits without a sign. -/
def byte : IntType :=
  { signed := false, width := 8, pos := Nat.succ_pos 7, le := Nat.le_add_right 8 120 }

theorem byteTable_isInt {n : NodeId} (hn : n ∈ [1, 2, 3]) : byteTable.IsInt .w64 byte n := by
  simp only [List.mem_cons, List.not_mem_nil, or_false] at hn
  obtain rfl | rfl | rfl := hn <;> exact ⟨"u8", rfl, rfl⟩

/-- Two bytes have been assigned. -/
def twelveTen : Progress :=
  (Assignment.statements [(default, .constant 1 12), (default, .constant 2 10)]).foldl
    (Progress.statement byteTable) { state := .initial byteTable.size }

/-- The bytes in the store. -/
def twelveTenStore : Store :=
  { value := fun n => if n = 1 then 12 else 10, target := fun _ => none }

/-- An operand of the two bytes. -/
theorem twelveTen_isIntIn {n : Nat} (hn : n = 1 ∨ n = 2) :
    (Operand.copy { base := n }).IsIntIn .w64 byteTable byte twelveTen.state twelveTenStore
      (fun _ => 0) := by
  obtain rfl | rfl := hn
  · refine ⟨⟨_, rfl, fun _ => byteTable_isInt (by decide)⟩, ⟨by decide, by decide⟩, fun v hv => ?_⟩
    cases hv
    rfl
  · refine ⟨⟨_, rfl, fun _ => byteTable_isInt (by decide)⟩, ⟨by decide, by decide⟩, fun v hv => ?_⟩
    cases hv
    rfl

/-- The bits that two bytes share are what the program computes, and a switch on them goes right. -/
theorem shared_bits_at_declared_type :
    ∃ r v, r = Rvalue.binary .bitAnd (.copy { base := 1 }) (.copy { base := 2 }) ∧ v = Scalar.int 8 ∧
      r.AssignsInt .w64 byteTable byte twelveTen.state twelveTenStore (fun _ => 0) { base := 3 } 3 ∧
      (twelveTen.assign byteTable default { base := 3 } r).state.known 3 = some v ∧
      ∃ k, byte.value? (Operand.valueIn byteTable twelveTenStore fun _ => 0) r = some k ∧
        v.toInt = k ∧ Visit.SwitchesAs byteTable 3 v k := by
  refine ⟨_, _, rfl, rfl, ?_⟩
  have hone := twelveTen_isIntIn (.inl rfl)
  have htwo := twelveTen_isIntIn (.inr rfl)
  have hassigns : (Rvalue.binary .bitAnd (.copy { base := 1 }) (.copy { base := 2 })).AssignsInt .w64
      byteTable byte twelveTen.state twelveTenStore (fun _ => 0) { base := 3 } 3 :=
    ⟨rfl, byteTable_isInt (by decide), by decide, hone, htwo, by decide⟩
  have hknown : (twelveTen.assign byteTable default { base := 3 }
      (.binary .bitAnd (.copy { base := 1 }) (.copy { base := 2 }))).state.known 3 =
        some (.int 8) := rfl
  obtain ⟨k, hk, hiff, hswitch, hnarrow⟩ :=
    constants_at_declared_type Formula.simplify_sound hassigns default hknown
  have hagree := (hnarrow (.inl (by decide))).1 _ _ _ rfl (by decide)
  exact ⟨hassigns, hknown, k, hk, hiff.mpr hagree, hswitch.mpr hagree⟩

/-- A block that goes to one block if `_3` is 243, and to another if it is not. -/
def turnedBlock : GraphBlock :=
  { id := 0, statements := [],
    terminator := ⟨default, .switchInt (.copy { base := 3 }) [(243, 1)] (some 2)⟩,
    succs := [1, 2], unwinds := [] }

/-- **A byte with its bits turned is recorded as no byte**: of twelve the program makes 243, the path
takes it for -13, and the switch misses the block where the program goes. -/
theorem turned_byte_leaves_type :
    ∃ r after, r = Rvalue.unary .not (.copy { base := 1 }) ∧
      r.AssignsInt .w64 byteTable byte twelveTen.state twelveTenStore (fun _ => 0) { base := 3 } 3 ∧
      after = twelveTen.assign byteTable default { base := 3 } r ∧
      after.state.known 3 = some (.int (-13)) ∧
      byte.value? (Operand.valueIn byteTable twelveTenStore fun _ => 0) r = some 243 ∧
      (Visit.plain byteTable turnedBlock [] after).succs = [2] ∧
      (twelveTenStore.write 3 243).switch 3 [(243, 1)] (some 2) = [1] := by
  refine ⟨_, _, rfl, ⟨rfl, byteTable_isInt (by decide), rfl, twelveTen_isIntIn (.inl rfl)⟩, rfl, rfl, rfl,
    rfl, rfl⟩

end Walk

end Dangling
