import Dangling.Proofs.Path.Values
import Dangling.Proofs.Path.Writes

/-!
# Proofs — Path — Overwriting

What nodes that are about to be overwritten leave behind.  To forget a node takes it out of its
class; of all other nodes, ownership, fate, taint and value stay as they are.  But whether released
memory was handled by hand is also read off the node whose drop released it.  Where that node alone
tells it, and is itself overwritten, it is not known any more.

* `PathState.Partitioned.node_kill_of_not_mem`: what is left of a node that is not overwritten.
* `PathState.TaintedThrough`: a node is known as handled by hand only through one of several.
* `PathState.Partitioned.isTainted_kill_eq_iff`: overwriting these, and no others, changes that.
* `PathState.overwriting_elsewhere`: both together, for the states of any course.
-/

namespace Dangling.PathState

variable {s : PathState} {n : NodeId} {ids : List NodeId}

/-! ### Nodes -/

/-- **What is left of a node that is not overwritten.** -/
theorem Partitioned.node_kill_of_not_mem (h : s.Partitioned) (hn : n ∉ ids) :
    (s.kill ids).node n = { s.node n with aliases := (s.aliases n).filter (· ∉ ids) } := by
  rcases Nat.lt_or_ge n s.size with hlt | hge
  · rw [h.node_kill ids hlt, if_neg hn]
  · rw [node_of_size_le (by rwa [size_kill]), node_of_size_le hge, aliases_of_size_le hge]
    rfl

/-- Overwritten nodes are not tainted, and no taint changes elsewhere. -/
theorem Partitioned.tainted_kill (h : s.Partitioned) (ids : List NodeId) (n : NodeId) :
    ((s.kill ids).node n).tainted = (decide (n ∉ ids) && (s.node n).tainted) := by
  by_cases hn : n ∈ ids
  · rcases Nat.lt_or_ge n s.size with hlt | hge
    · rw [h.node_kill ids hlt, if_pos hn]
      simp [hn, NodeState.fresh]
    · rw [node_of_size_le (by rwa [size_kill]), node_of_size_le hge]
      exact (Bool.and_false _).symm
  · rw [h.node_kill_of_not_mem hn]
    simp [hn]

/-! ### Memory handled by hand -/

theorem isTainted_eq (s : PathState) (n : NodeId) :
    s.isTainted n =
      ((s.node n).tainted || (s.node n).fate.origin?.any fun o => (s.node o).tainted) := by
  rw [isTainted]
  cases (s.node n).fate.origin? <;> rfl

/-- The memory of a node is known as handled by hand only through one of `ids`, whose drop released
it. -/
def TaintedThrough (s : PathState) (ids : List NodeId) (n : NodeId) : Prop :=
  (s.node n).tainted = false ∧
    ∃ o ∈ ids, (s.node n).fate.origin? = some o ∧ (s.node o).tainted = true

/-- After overwriting, nodes that are overwritten tell nothing of the memory they released. -/
theorem Partitioned.isTainted_kill (h : s.Partitioned) (hn : n ∉ ids) :
    (s.kill ids).isTainted n = ((s.node n).tainted ||
      (s.node n).fate.origin?.any fun o => decide (o ∉ ids) && (s.node o).tainted) := by
  simp only [isTainted_eq, h.node_kill_of_not_mem hn, h.tainted_kill]

/-- What was known only through overwritten nodes is not known any more. -/
theorem Partitioned.isTainted_of_taintedThrough (h : s.Partitioned) (hn : n ∉ ids)
    (hthrough : s.TaintedThrough ids n) :
    s.isTainted n = true ∧ (s.kill ids).isTainted n = false := by
  obtain ⟨hself, o, ho, horigin, htainted⟩ := hthrough
  rw [h.isTainted_kill hn, isTainted_eq]
  simp [hself, horigin, htainted, ho]

/-- **Exactly what was known only through overwritten nodes changes.** -/
theorem Partitioned.isTainted_kill_eq_iff (h : s.Partitioned) (hn : n ∉ ids) :
    (s.kill ids).isTainted n = s.isTainted n ↔ ¬s.TaintedThrough ids n := by
  constructor
  · intro heq hthrough
    obtain ⟨hbefore, hafter⟩ := h.isTainted_of_taintedThrough hn hthrough
    rw [heq, hbefore] at hafter
    cases hafter
  · intro hnot
    rw [h.isTainted_kill hn, isTainted_eq]
    cases hself : (s.node n).tainted with
    | true => rfl
    | false =>
        cases horigin : (s.node n).fate.origin? with
        | none => rfl
        | some o =>
            by_cases ho : o ∈ ids
            · -- the origin is overwritten, so it was not tainted
              have hclean : (s.node o).tainted = false :=
                Bool.eq_false_iff.mpr fun htainted => hnot ⟨hself, o, ho, horigin, htainted⟩
              simp [hclean]
            · simp [ho]

/-! ### States of a course -/

/-- Every write is a course of acts. -/
theorem Write.course {s₀ : PathState} (w : Write) (h : Course (fun _ => True) s₀ s) :
    Course (fun _ => True) s₀ (w.apply s) := by
  cases w with
  | join a b => exact h.step (.join a b) trivial
  | kill ids => exact h.foldl ids fun _ m _ hu => hu.step (.forget m) trivial
  | taint m => exact h.step (.taint m) trivial
  | markDropped ids origin loc manual => exact h.step (.release ids origin loc manual) trivial
  | setOwned m owned => exact h.step (.own m owned) trivial
  | setKnown m v => exact h.step (.learn m (some v)) trivial

/-- **Overwriting changes nothing elsewhere, but for what only overwritten nodes tell.**  In every
state that acts lead to, overwriting `ids` leaves of every other node its ownership, fate, taint and
value, and takes exactly `ids` out of its class.  Its memory is known as handled by hand afterwards
iff it was before, exactly unless this was known only through an overwritten node; then it is known
no more. -/
theorem overwriting_elsewhere {size : Nat} {s : PathState}
    (hs : Course (fun _ => True) (initial size) s) (ids : List NodeId) {n : NodeId} (hn : n ∉ ids) :
    (s.kill ids).node n = { s.node n with aliases := (s.aliases n).filter (· ∉ ids) } ∧
      (s.kill ids).known n = s.known n ∧
      ((s.kill ids).isTainted n = s.isTainted n ↔ ¬s.TaintedThrough ids n) ∧
      (s.TaintedThrough ids n → s.isTainted n = true ∧ (s.kill ids).isTainted n = false) := by
  have h : s.Partitioned := (partitioned_initial size).course hs
  refine ⟨h.node_kill_of_not_mem hn, ?_, h.isTainted_kill_eq_iff hn,
    h.isTainted_of_taintedThrough hn⟩
  rw [known_kill, if_neg hn]

/-- Two nodes of one class are released by the drop of a third, which was handled by hand; a fourth
is joined with them later. -/
def bequest : PathState :=
  [Write.join 0 1, .taint 2, .markDropped [0, 1] 2 none false, .setOwned 0 true,
    .setKnown 0 (.int 5), .join 3 1].foldl Write.apply (initial 4)

/-- It does not matter to the first node that others of its class are overwritten. -/
theorem bequest_overwritten_elsewhere :
    bequest.aliases 0 = [0, 1, 3] ∧ (bequest.kill [3, 1]).aliases 0 = [0] ∧
      (bequest.kill [3, 1]).known 0 = some (.int 5) ∧ bequest.isTainted 0 = true ∧
      (bequest.kill [3, 1]).isTainted 0 = true := by
  have hcourse : Course (fun _ => True) (initial 4) bequest :=
    List.foldlRecOn (motive := Course (fun _ => True) (initial 4)) _ Write.apply .refl
      fun _ hu w _ => w.course hu
  obtain ⟨hnode, hknown, htainted, -⟩ :=
    overwriting_elsewhere hcourse [3, 1] (n := 0) (by decide)
  have hthrough : ¬bequest.TaintedThrough [3, 1] 0 := by
    rintro ⟨-, o, ho, horigin, -⟩
    obtain rfl : 2 = o := Option.some.inj horigin
    exact absurd ho (by decide)
  refine ⟨rfl, ?_, hknown.trans rfl, rfl, (htainted.mpr hthrough).trans rfl⟩
  rw [aliases, hnode]
  rfl

/-- But the third node took with it that their memory was handled by hand. -/
theorem bequest_forgotten_with_origin :
    2 < bequest.size ∧ (0 : NodeId) ∉ [2] ∧ bequest.isTainted 0 = true ∧
      (bequest.kill [2]).isDropped 0 = true ∧ (bequest.kill [2]).isTainted 0 = false := by
  decide

end Dangling.PathState
