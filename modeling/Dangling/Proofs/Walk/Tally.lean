import Dangling.Proofs.Order.Sorted
import Dangling.Walk.Run

/-!
# Proofs — Walk — Tally

What a tally holds after a path is cut and after a visit.  Sets of slots are kept as sorted lists; as
the comparisons of slots take only equal things for equal, no slot is lost there.
-/

namespace Dangling

/-! ### Slots -/

instance Slot.compare_lawful : Std.LawfulEqCmp Slot.compare where
  compare_self {s} := by
    simp [Slot.compare, Std.ReflCmp.compare_self]
  eq_of_compare {s t} h := by
    obtain ⟨hs, hf⟩ := Ordering.then_eq_eq.mp h
    cases s
    cases t
    rw [Slot.mk.injEq]
    exact ⟨Std.LawfulEqCmp.eq_of_compare hs, Std.LawfulEqCmp.eq_of_compare hf⟩

instance AliasPair.compare_lawful : Std.LawfulEqCmp AliasPair.compare where
  compare_self {p} := by
    simp [AliasPair.compare, Std.ReflCmp.compare_self]
  eq_of_compare {p q} h := by
    obtain ⟨h₁, h₂⟩ := Ordering.then_eq_eq.mp h
    exact Prod.ext (Std.LawfulEqCmp.eq_of_compare h₁) (Std.LawfulEqCmp.eq_of_compare h₂)

instance DroppedSlot.compare_lawful : Std.LawfulEqCmp DroppedSlot.compare where
  compare_self {d} := by
    simp [DroppedSlot.compare, Std.ReflCmp.compare_self]
  eq_of_compare {d e} h := by
    obtain ⟨hp, hm⟩ := Ordering.then_eq_eq.mp h
    have hn : d.manual.toNat = e.manual.toNat := Std.LawfulEqCmp.eq_of_compare hm
    cases d with
    | mk path manual =>
    cases e with
    | mk path' manual' =>
    rw [DroppedSlot.mk.injEq]
    refine ⟨Std.LawfulEqCmp.eq_of_compare hp, ?_⟩
    cases manual <;> cases manual' <;> first | rfl | exact nomatch hn

namespace FunctionGraph

/-- A pair for every two slot nodes of one class. -/
theorem mem_aliasPairs {g : FunctionGraph} {s : PathState} {pair : AliasPair} :
    pair ∈ g.aliasPairs s ↔ ∃ id ∈ g.slotNodes, ∃ other ∈ s.aliases id, other ≠ id ∧
      ∃ a b, g.slot? id = some a ∧ g.slot? other = some b ∧ pair = .ofSlots a b := by
  rw [aliasPairs, List.mem_flatMap]
  refine exists_congr fun id => and_congr_right fun _ => ?_
  rw [List.mem_filterMap]
  refine exists_congr fun other => ?_
  rw [List.mem_filter, bne_iff_ne, and_assoc]
  refine and_congr_right fun _ => and_congr_right fun _ => ?_
  cases g.slot? id <;> cases g.slot? other <;> simp [eq_comm]

/-- A slot for every released node of a parameter. -/
theorem mem_droppedSlots {g : FunctionGraph} {s : PathState} {d : DroppedSlot} :
    d ∈ g.droppedSlots s ↔ ∃ id ∈ g.slotNodes, ∃ slot, g.slot? id = some slot ∧ 1 ≤ slot.slot ∧
      s.isDropped id = true ∧ d = ⟨slot, s.isTainted id⟩ := by
  rw [droppedSlots, List.mem_filterMap]
  refine exists_congr fun id => and_congr_right fun _ => ?_
  cases g.slot? id with
  | none => simp
  | some slot =>
      simp only [Option.ite_none_right_eq_some, Option.some.injEq, exists_eq_left', and_assoc,
        @eq_comm _ d]

end FunctionGraph

namespace Walk.Tally

@[simp] theorem cut_zero (t : Tally) : t.cut 0 = t := rfl

/-- Cut paths are counted together. -/
theorem cut_cut (t : Tally) (m n : Nat) : (t.cut m).cut n = t.cut (n + m) := by
  simp [cut, Nat.add_comm, Nat.add_left_comm]

variable {g : FunctionGraph} {t : Tally} {v : Visit}

@[simp] theorem add_visits : (t.add g v).visits = t.visits + 1 := by
  rw [add]
  split <;> rfl

@[simp] theorem add_ledger : (t.add g v).ledger = t.ledger.recordAll g.nodes v.progress.alarms := by
  rw [add]
  split <;> rfl

@[simp] theorem add_paths :
    (t.add g v).paths = t.paths + if v.succs.isEmpty then 1 else 0 := by
  rw [add]
  split <;> split <;> rfl

@[simp] theorem add_cutPaths : (t.add g v).cutPaths = t.cutPaths := by
  rw [add]
  split <;> rfl

/-- Only a path that returns adds to the summary. -/
@[simp] theorem mem_add_aliases {pair : AliasPair} : pair ∈ (t.add g v).aliases ↔
    pair ∈ t.aliases ∨ v.returns = true ∧ pair ∈ g.aliasPairs v.progress.state := by
  rw [add]
  split <;> simp [*]

@[simp] theorem mem_add_dropped {d : DroppedSlot} : d ∈ (t.add g v).dropped ↔
    d ∈ t.dropped ∨ v.returns = true ∧ d ∈ g.droppedSlots v.progress.state := by
  rw [add]
  split <;> simp [*]

end Walk.Tally

end Dangling
