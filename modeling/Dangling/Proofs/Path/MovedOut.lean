import Dangling.Proofs.Guarded.Access
import Dangling.Proofs.Path.Released

/-!
# Proofs — Path — MovedOut

Who owns memory after its value was moved.  A node has *given up* its memory when it does not own it
any more and the memory is not live there.  A call, and a write through a pointer, take every moved
operand out of its node with all fields below it.  A write to a node does so only for what it hands
over: nodes with a counterpart in the destination, operands of an aggregate that has no node for the
field, and owners that are cast to or from a pointer.  All other nodes are left as they are.

* `NodeTable.Paired`: the same fields lead to a node below the source and to one below the destination.
* `Rvalue.HandsOver`: the nodes that a write to a node takes the value out of.
* `PathState.Yields`: what becomes of all nodes outside of the destination.
* `Progress.moved_operands_give_up`: which nodes have given up their memory after an instruction.
-/

namespace Dangling

/-- The node does not own its memory, which is not live there: it was released or went elsewhere. -/
def NodeState.GivenUp (x : NodeState) : Prop := x.owned = false ∧ x.fate ≠ .live

/-- What is taken out is given up. -/
theorem NodeState.givenUp_leave (x : NodeState) : x.leave.GivenUp := by
  refine ⟨rfl, ?_⟩
  cases h : x.fate <;> simp [leave, Fate.leave, h]

/-- The operand takes the value out of the node `src`. -/
def Operand.MovesFrom (t : NodeTable) (o : Operand) (src : NodeId) : Prop :=
  ∃ place, o = .move place ∧ t.lookup place = (src, false)

/-- An operand that is not behind a pointer moves from its own node. -/
theorem Operand.movesFrom_iff {t : NodeTable} {o : Operand} {place : Place} {src : NodeId}
    (hp : o.place? = some place) (hd : (t.lookup place).2 = false) :
    o.MovesFrom t src ↔ o.isMove = true ∧ (t.lookup place).1 = src := by
  cases o with
  | constant value ty => cases hp
  | copy place' => simp [MovesFrom, isMove]
  | move place' =>
      obtain rfl := Option.some.inj hp
      simp [MovesFrom, isMove, Prod.ext_iff, hd]

/-- A constant takes no value out. -/
theorem Operand.not_movesFrom_constant {t : NodeTable} {o : Operand} {src : NodeId}
    (hp : o.place? = none) : ¬o.MovesFrom t src := by
  rintro ⟨place, rfl, -⟩
  cases hp

/-- Nor does what is read through a pointer. -/
theorem Operand.not_movesFrom_deref {t : NodeTable} {o : Operand} {place : Place} {src : NodeId}
    (hp : o.place? = some place) (hd : (t.lookup place).2 = true) : ¬o.MovesFrom t src := by
  rintro ⟨place', rfl, hlookup⟩
  obtain rfl := Option.some.inj hp
  rw [hlookup] at hd
  cases hd

/-! ### Counterparts -/

/-- The same fields lead from `src` to `n` as from `dest` to some node. -/
inductive NodeTable.Paired (t : NodeTable) : (dest src n : NodeId) → Prop where
  | self {dest src : NodeId} : Paired t dest src src
  | field {dest src d c n : NodeId} {f : String} (hd : (f, d) ∈ t.children dest)
      (hc : t.child? src f = some c) (h : Paired t d c n) : Paired t dest src n

/-- The nodes that a move visits are paired by their fields. -/
theorem NodeTable.paired_of_mem_moves {t : NodeTable} {depth : Nat} {dest src : NodeId}
    {x : NodeId × NodeId} (h : x ∈ PathState.moves t depth dest src) : t.Paired dest src x.2 := by
  induction depth generalizing dest src with
  | zero =>
      obtain rfl := List.mem_singleton.mp h
      exact .self
  | succ depth ih =>
      rcases List.mem_cons.mp h with rfl | h
      · exact .self
      · obtain ⟨y, hy, hx⟩ := List.mem_flatMap.mp h
        obtain ⟨c, hc, hx⟩ := List.mem_flatMap.mp hx
        exact .field hy (Option.mem_toList.mp hc) (ih hx)

/-- **A move takes the value out of the nodes with a counterpart**, and of no others. -/
theorem NodeTable.Layered.paired_iff {t : NodeTable} (ht : t.Layered) {dest src n : NodeId} :
    t.Paired dest src n ↔ ∃ x ∈ PathState.moves t maxFieldDepth dest src, x.2 = n := by
  constructor
  · intro h
    obtain ⟨room, hroomy⟩ := ht
    -- no field of `dest` lies deeper than the move looks
    have hdeep : ∀ depth, room dest ≤ depth → ∃ x ∈ PathState.moves t depth dest src, x.2 = n := by
      induction h with
      | self =>
          intro depth _
          cases depth with
          | zero => exact ⟨_, List.mem_singleton_self _, rfl⟩
          | succ depth => exact ⟨_, List.mem_cons_self, rfl⟩
      | @field dest src d c n f hd hc h ih =>
          intro depth hdepth
          have hlt : room d < room dest := (hroomy.child _ _ hd).2
          obtain ⟨depth, rfl⟩ : ∃ k, depth = k + 1 := ⟨depth - 1, by omega⟩
          obtain ⟨x, hx, hn⟩ := ih depth (by omega)
          refine ⟨x, List.mem_cons_of_mem _ (List.mem_flatMap.mpr ⟨(f, d), hd, ?_⟩), hn⟩
          exact List.mem_flatMap.mpr ⟨c, Option.mem_toList.mpr hc, hx⟩
    exact hdeep _ (hroomy.bounded dest)
  · rintro ⟨x, hx, rfl⟩
    exact paired_of_mem_moves hx

/-- A node with a counterpart lies below the source. -/
theorem NodeTable.Layered.mem_subtree_of_paired {t : NodeTable} (ht : t.Layered)
    {dest src n : NodeId} (h : t.Paired dest src n) : n ∈ t.subtree src := by
  obtain ⟨x, hx, rfl⟩ := ht.paired_iff.mp h
  exact (PathState.mem_moves hx).2

/-! ### What is handed over -/

/-- The operand takes its value out of `n`: the whole of a moved node. -/
def Operand.Takes (t : NodeTable) (o : Operand) (n : NodeId) : Prop :=
  ∃ src, o.MovesFrom t src ∧ n ∈ t.subtree src

/-- The operand takes its value out of `n` as it is moved into `dest`. -/
def Operand.HandsTo (t : NodeTable) (o : Operand) (dest n : NodeId) : Prop :=
  ∃ src, o.MovesFrom t src ∧ t.Paired dest src n

/-- The operand takes its value out of `n` as it becomes the field at a position of an aggregate; if
that has no node for the field, the whole value is taken out. -/
def Operand.Fills (t : NodeTable) (children : List NodeId) (i : Nat) (o : Operand) (n : NodeId) :
    Prop :=
  match children[i]? with
  | some child => o.HandsTo t child n
  | none => o.Takes t n

/-- A write of the right-hand side to the node `dest` takes the value out of `n`. -/
def Rvalue.HandsOver (t : NodeTable) (s : PathState) (dest : NodeId) (r : Rvalue) (n : NodeId) :
    Prop :=
  match r with
  | .use o => o.HandsTo t dest n
  | .aggregate items _ =>
    ∃ (i : Nat) (o : Operand), items[i]? = some o ∧ o.Fills t ((t.children dest).map (·.2)) i n
  | .cast o ty =>
    ∃ src, o.MovesFrom t src ∧ (t.isPointer src || ty.isPointer || t.isPointer dest) = true ∧
      (s.node src).owned = true ∧ n ∈ t.subtree src
  | _ => False

namespace Operand

variable {t : NodeTable} {o : Operand} {place : Place} {n : NodeId}

/-- A moved operand takes its whole subtree along. -/
theorem takes_iff (hp : o.place? = some place) (hd : (t.lookup place).2 = false) :
    o.Takes t n ↔ o.isMove = true ∧ n ∈ t.subtree (t.lookup place).1 := by
  simp only [Takes, movesFrom_iff hp hd, and_assoc, exists_and_left, exists_eq_left']

/-- A moved operand hands over the nodes that have a partner in the destination. -/
theorem handsTo_iff (hp : o.place? = some place) (hd : (t.lookup place).2 = false)
    (dest n : NodeId) :
    o.HandsTo t dest n ↔ o.isMove = true ∧ t.Paired dest (t.lookup place).1 n := by
  simp only [HandsTo, movesFrom_iff hp hd, and_assoc, exists_and_left, exists_eq_left']

end Operand

/-! ### What becomes of the nodes outside of a destination -/

namespace PathState

/-- Of the nodes outside of `into`, those of `gone` have given up their memory, and all others own
what they owned, with the same fate. -/
structure Yields (into : List NodeId) (gone : NodeId → Prop) (s s' : PathState) : Prop where
  size : s'.size = s.size
  left : ∀ n ∉ into, n < s.size → gone n → (s'.node n).GivenUp
  kept : ∀ n ∉ into, n < s.size → ¬gone n →
    (s'.node n).owned = (s.node n).owned ∧ (s'.node n).fate = (s.node n).fate

namespace Yields

variable {s s' s'' : PathState} {t : NodeTable} {into : List NodeId} {g g' : NodeId → Prop}
  {dest src id : NodeId} {o : Operand}

/-- Nodes of the destination may be counted either way. -/
theorem congr (h : Yields into g s s') (hg : ∀ n ∉ into, (g n ↔ g' n)) : Yields into g' s s' :=
  ⟨h.size, fun n hn hlt hgone => h.left n hn hlt ((hg n hn).mpr hgone),
    fun n hn hlt hnot => h.kept n hn hlt fun hgone => hnot ((hg n hn).mp hgone)⟩

/-- Nothing is taken out: ownership and fates stay as they are. -/
theorem of_same (hsize : s'.size = s.size)
    (hsame : ∀ n ∉ into, (s'.node n).owned = (s.node n).owned ∧ (s'.node n).fate = (s.node n).fate) :
    Yields into (fun _ => False) s s' :=
  ⟨hsize, fun _ _ _ h => h.elim, fun n hn _ _ => hsame n hn⟩

theorem refl (s : PathState) : Yields into (fun _ => False) s s := of_same rfl fun _ _ => ⟨rfl, rfl⟩

/-- One change after another. -/
theorem trans (h : Yields into g s s') (h' : Yields into g' s' s'') :
    Yields into (fun n => g n ∨ g' n) s s'' := by
  refine ⟨h'.size.trans h.size, fun n hn hlt hgone => ?_, fun n hn hlt hnot => ?_⟩
  · have hlt' : n < s'.size := h.size ▸ hlt
    by_cases hg' : g' n
    · exact h'.left n hn hlt' hg'
    · -- taken out at first, and then left alone
      obtain ⟨howned, hfate⟩ := h'.kept n hn hlt' hg'
      obtain ⟨hfree, hlive⟩ := h.left n hn hlt (hgone.resolve_right hg')
      exact ⟨howned.trans hfree, hfate ▸ hlive⟩
  · obtain ⟨howned, hfate⟩ := h.kept n hn hlt fun hg => hnot (.inl hg)
    obtain ⟨howned', hfate'⟩ := h'.kept n hn (h.size ▸ hlt) fun hg => hnot (.inr hg)
    exact ⟨howned'.trans howned, hfate'.trans hfate⟩

/-- A step that takes nothing out, after one that may. -/
theorem step (h : Yields into g s s') (h' : Yields into (fun _ => False) s' s'') :
    Yields into g s s'' :=
  (h.trans h').congr fun _ _ => or_iff_left id

/-- A node has given up its memory just when it had, or its value was taken out. -/
theorem givenUp_iff (h : Yields into g s s') {n : NodeId} (hn : n ∉ into) (hlt : n < s.size) :
    (s'.node n).GivenUp ↔ (s.node n).GivenUp ∨ g n := by
  by_cases hg : g n
  · exact iff_of_true (h.left n hn hlt hg) (.inr hg)
  · obtain ⟨howned, hfate⟩ := h.kept n hn hlt hg
    rw [or_iff_left hg, NodeState.GivenUp, NodeState.GivenUp, howned, hfate]

/-- Where nothing is given up, ownership stays. -/
theorem owned_eq (h : Yields into (fun _ => False) s s') {n : NodeId} (hn : n ∉ into) :
    (s'.node n).owned = (s.node n).owned := by
  by_cases hlt : n < s.size
  · exact (h.kept n hn hlt id).1
  · have hle : s.size ≤ n := Nat.le_of_not_lt hlt
    rw [node_of_size_le hle, node_of_size_le (h.size ▸ hle)]

/-- By the list: what each step gives up is given up in the end. -/
theorem foldl {α : Type} {f : PathState → α → PathState} (gone : α → NodeId → Prop) (xs : List α)
    (hf : ∀ s, ∀ x ∈ xs, Yields into (gone x) s (f s x)) (s : PathState) :
    Yields into (fun n => ∃ x ∈ xs, gone x n) s (xs.foldl f s) := by
  induction xs generalizing s with
  | nil => exact (refl s).congr fun n _ => by simp
  | cons x xs ih =>
      have hx := hf s x List.mem_cons_self
      have hxs := ih (fun s y hy => hf s y (List.mem_cons_of_mem _ hy)) (f s x)
      exact (hx.trans hxs).congr fun n _ => by simp

/-- Steps that take nothing out, one after the other. -/
theorem foldl_none {α : Type} {f : PathState → α → PathState} (xs : List α)
    (hf : ∀ s, ∀ x ∈ xs, Yields into (fun _ => False) s (f s x)) (s : PathState) :
    Yields into (fun _ => False) s (xs.foldl f s) :=
  (foldl _ xs hf s).congr fun n _ => by simp

/-! ### Operations -/

/-- Inside the destination anything may change. -/
theorem update_into (hid : id ∈ into) (f : NodeState → NodeState) (s : PathState) :
    Yields into (fun _ => False) s (s.update id f) := by
  refine of_same (size_update s id f) fun n hn => ?_
  have hne : ¬(n = id ∧ n < s.size) := fun h => hn (h.1 ▸ hid)
  rw [node_update, if_neg hne]
  exact ⟨rfl, rfl⟩

theorem setOwned (hid : id ∈ into) (owned : Bool) (s : PathState) :
    Yields into (fun _ => False) s (s.setOwned id owned) :=
  update_into hid _ s

/-- The node that is left is given up. -/
theorem leave (s : PathState) (id : NodeId) :
    Yields into (· = id) s (s.update id NodeState.leave) := by
  refine ⟨size_update s id _, fun n _ hlt hn => ?_, fun n _ _ hn => ?_⟩
  · rw [node_update, if_pos ⟨hn, hlt⟩]
    exact NodeState.givenUp_leave _
  · have hne : ¬(n = id ∧ n < s.size) := fun h => hn h.1
    rw [node_update, if_neg hne]
    exact ⟨rfl, rfl⟩

/-- Classes are joined without a change of owners. -/
theorem join (s : PathState) (a b : NodeId) : Yields into (fun _ => False) s (s.join a b) := by
  refine of_same (size_join s a b) fun n _ => ?_
  rw [node_join]
  split <;> exact ⟨rfl, rfl⟩

theorem setKnown? (s : PathState) (id : NodeId) (v : Option Scalar) :
    Yields into (fun _ => False) s (s.setKnown? id v) := by
  refine of_same (size_setKnown? s id v) fun n _ => ?_
  rw [node_setKnown?]
  exact ⟨rfl, rfl⟩

theorem taint (s : PathState) (id : NodeId) : Yields into (fun _ => False) s (s.taint id) := by
  refine of_same (size_taint s id) fun n _ => ?_
  rw [node_taint]
  split <;> exact ⟨rfl, rfl⟩

/-- Only the destination is forgotten. -/
theorem overwrite (hdest : t.subtree dest ⊆ into) (s : PathState) :
    Yields into (fun _ => False) s (s.overwrite t dest) := by
  refine foldl_none _ (fun s id hid => of_same (size_forget s id) fun n hn => ?_) s
  have hne : ¬(n = id ∧ n < s.size) := fun h => hn (h.1 ▸ hdest hid)
  rw [node_forget, if_neg hne]
  split <;> exact ⟨rfl, rfl⟩

/-- Only the destination becomes an owner. -/
theorem ownAs (hdest : t.subtree dest ⊆ into) (owned : Option Bool) (s : PathState) :
    Yields into (fun _ => False) s (s.ownAs t dest owned) := by
  cases owned with
  | none => exact foldl_none _ (fun s n hn => update_into (hdest hn) _ s) s
  | some b => exact foldl_none _ (fun s n hn => update_into (hdest hn) _ s) s

theorem ownByType (hdest : t.subtree dest ⊆ into) (s : PathState) :
    Yields into (fun _ => False) s (s.ownByType t dest) :=
  ownAs hdest none s

/-- A subtree that is taken out is given up as a whole. -/
theorem loseOwnership (s : PathState) (id : NodeId) :
    Yields into (· ∈ t.subtree id) s (s.loseOwnership t id) :=
  (foldl _ _ (fun s n _ => leave s n) s).congr fun n _ => by simp

/-- A move of one node gives up its source. -/
theorem moveNode (hdest : dest ∈ into) (s : PathState) (src : NodeId) :
    Yields into (· = src) s (s.moveNode dest src) := by
  rw [moveNode_eq]
  have hjoin : Yields into (fun _ => False) s ((s.inherit dest src).join dest src) :=
    (update_into hdest _ s).step (join _ _ _)
  exact ((hjoin.step (setKnown? _ _ _)).trans (leave _ _)).congr fun _ _ => or_iff_right id

/-- A move gives up the nodes that have a partner. -/
theorem moveInto (ht : t.Layered) (hdest : t.subtree dest ⊆ into) (s : PathState) (src : NodeId) :
    Yields into (t.Paired dest src) s (s.moveInto t dest src) := by
  rw [PathState.moveInto, moveWithin_eq]
  refine (foldl _ _ (fun s x hx => moveNode (hdest (mem_moves hx).1) s x.2) s).congr fun n _ => ?_
  rw [ht.paired_iff]
  exact exists_congr fun x => and_congr_right fun _ => eq_comm

/-! ### Writes -/

/-- What takes no value out of a node hands nothing over. -/
theorem handsTo_none (h : ∀ src, ¬o.MovesFrom t src) (hs : Yields into (fun _ => False) s s') :
    Yields into (o.HandsTo t dest) s s' :=
  hs.congr fun _ _ => ⟨False.elim, fun ⟨src, ho, _⟩ => h src ho⟩

theorem takes_none (h : ∀ src, ¬o.MovesFrom t src) (hs : Yields into (fun _ => False) s s') :
    Yields into (o.Takes t) s s' :=
  hs.congr fun _ _ => ⟨False.elim, fun ⟨src, ho, _⟩ => h src ho⟩

/-- A stored operand gives up what it hands over. -/
theorem storeOperand (ht : t.Layered) (s : PathState) (dest : NodeId) (o : Operand) :
    Yields (t.subtree dest) (o.HandsTo t dest) s (s.storeOperand t dest o) := by
  have hover : Yields (t.subtree dest) (fun _ => False) s (s.overwrite t dest) :=
    overwrite (List.Subset.refl _) s
  rw [PathState.storeOperand]
  split
  case h_1 hp =>
    exact handsTo_none (fun _ => Operand.not_movesFrom_constant hp) (hover.step (setKnown? _ _ _))
  case h_2 place hp =>
    dsimp only
    split
    case isTrue hd =>
      refine handsTo_none (fun _ => Operand.not_movesFrom_deref hp hd) (hover.step ?_)
      split
      · exact join _ _ _
      · exact ownByType (List.Subset.refl _) _
    case isFalse hd =>
      rw [Bool.not_eq_true] at hd
      have hiff := Operand.handsTo_iff hp hd dest
      split
      case isTrue hself =>
        -- the node is stored in itself: what it would hand over lies below it
        refine (refl s).congr fun n hn => ⟨False.elim, fun h => hn ?_⟩
        rw [hiff, hself] at h
        exact ht.mem_subtree_of_paired h.2
      case isFalse =>
        split
        case isTrue hmove =>
          refine (hover.trans (moveInto ht (List.Subset.refl _) _ _)).congr fun n _ => ?_
          rw [hiff, hmove]
          simp
        case isFalse hmove =>
          refine (hover.step ?_).congr fun n _ => by simp [hiff, hmove]
          split
          · exact join _ _ _
          · exact setKnown? _ _ _

/-- The field of an aggregate is a destination of its own. -/
theorem fillField (ht : t.Layered) {child : NodeId} (hchild : t.subtree child ⊆ into)
    (s : PathState) (o : Operand) :
    Yields into (o.HandsTo t child) s (s.fillField t child o) := by
  rw [PathState.fillField]
  split
  case h_1 hp =>
    exact handsTo_none (fun _ => Operand.not_movesFrom_constant hp) (setKnown? _ _ _)
  case h_2 place hp =>
    dsimp only
    split
    case isTrue hd =>
      exact handsTo_none (fun _ => Operand.not_movesFrom_deref hp hd) (ownByType hchild _)
    case isFalse hd =>
      rw [Bool.not_eq_true] at hd
      have hiff := Operand.handsTo_iff hp hd child
      split
      case isTrue hmove =>
        exact (moveInto ht hchild s _).congr fun n _ => by simp [hiff, hmove]
      case isFalse hmove =>
        refine congr ?_ fun n _ => (by simp [hiff, hmove] : False ↔ _)
        split
        · exact join _ _ _
        · exact refl s

/-- An aggregate without a node for the field takes the operand as a whole. -/
theorem fillWhole (hdest : dest ∈ into) (s : PathState) (o : Operand) :
    Yields into (o.Takes t) s (s.fillWhole t dest o) := by
  rw [PathState.fillWhole]
  split
  case h_1 hp => exact takes_none (fun _ => Operand.not_movesFrom_constant hp) (refl s)
  case h_2 place hp =>
    dsimp only
    split
    case isTrue hd => exact takes_none (fun _ => Operand.not_movesFrom_deref hp hd) (refl s)
    case isFalse hd =>
      rw [Bool.not_eq_true] at hd
      have hiff := fun n => Operand.takes_iff (n := n) hp hd
      split
      case isTrue hmove =>
        have hown : Yields into (fun _ => False) s
            (if (s.node (t.lookup place).1).owned then s.setOwned dest true else s) := by
          split
          · exact update_into hdest _ s
          · exact refl s
        refine ((hown.step (join _ _ _)).trans (loseOwnership _ _)).congr fun n _ => ?_
        simp [hiff, hmove]
      case isFalse hmove =>
        refine congr ?_ fun n _ => (by simp [hiff, hmove] : False ↔ _)
        split
        · exact join _ _ _
        · exact refl s

/-- The operands of an aggregate, one after the other. -/
theorem fill (ht : t.Layered) (hdest : dest ∈ into) (os : List Operand) :
    ∀ (s : PathState) (children : List NodeId), (∀ c ∈ children, t.subtree c ⊆ into) →
      Yields into (fun n => ∃ (i : Nat) (o : Operand), os[i]? = some o ∧ o.Fills t children i n) s
        (s.fill t dest os children) := by
  -- the first operand, or one of the others at the position before its own
  have hcons : ∀ (o : Operand) (os : List Operand) (P : Nat → Operand → Prop),
      (∃ i x, (o :: os)[i]? = some x ∧ P i x) ↔ P 0 o ∨ ∃ i x, os[i]? = some x ∧ P (i + 1) x := by
    intro o os P
    constructor
    · rintro ⟨i, x, hx, h⟩
      cases i with
      | zero => exact .inl (Option.some.inj hx ▸ h)
      | succ i => exact .inr ⟨i, x, hx, h⟩
    · rintro (h | ⟨i, x, hx, h⟩)
      · exact ⟨0, o, rfl, h⟩
      · exact ⟨i + 1, x, hx, h⟩
  induction os with
  | nil =>
      intro s children _
      rw [PathState.fill]
      exact (refl s).congr fun n _ => by simp
  | cons o os ih =>
      intro s children hchildren
      cases children with
      | nil =>
          have hrest := ih (s.fillWhole t dest o) [] hchildren
          refine ((fillWhole hdest s o).trans hrest).congr fun n _ => ?_
          rw [hcons]
          rfl
      | cons child children =>
          obtain ⟨hchild, hchildren⟩ := List.forall_mem_cons.mp hchildren
          have hrest := ih (s.fillField t child o) children hchildren
          refine ((fillField ht hchild s o).trans hrest).congr fun n _ => ?_
          rw [hcons]
          rfl

/-- Only a cast of pointers takes its operand. -/
theorem storeCast (ht : t.Layered) (s : PathState) (dest : NodeId) (o : Operand) (ty : Ty) :
    Yields (t.subtree dest) (Rvalue.HandsOver t s dest (.cast o ty)) s (s.storeCast t dest o ty) := by
  have hover : Yields (t.subtree dest) (fun _ => False) s (s.overwrite t dest) :=
    overwrite (List.Subset.refl _) s
  have hnone : ∀ {s' : PathState}, (∀ src, ¬o.MovesFrom t src) →
      Yields (t.subtree dest) (fun _ => False) s s' →
      Yields (t.subtree dest) (Rvalue.HandsOver t s dest (.cast o ty)) s s' := fun h hs =>
    hs.congr fun _ _ => ⟨False.elim, fun ⟨src, ho, _⟩ => h src ho⟩
  rw [PathState.storeCast]
  split
  case h_1 hp =>
    exact hnone (fun _ => Operand.not_movesFrom_constant hp) (hover.step (setKnown? _ _ _))
  case h_2 place hp =>
    dsimp only
    split
    case isTrue hd => exact hnone (fun _ => Operand.not_movesFrom_deref hp hd) hover
    case isFalse hd =>
      rw [Bool.not_eq_true] at hd
      have hiff : ∀ n, Rvalue.HandsOver t s dest (.cast o ty) n ↔ o.isMove = true ∧
          (t.isPointer (t.lookup place).1 || ty.isPointer || t.isPointer dest) = true ∧
          (s.node (t.lookup place).1).owned = true ∧ n ∈ t.subtree (t.lookup place).1 := fun n => by
        simp only [Rvalue.HandsOver, Operand.movesFrom_iff hp hd, and_assoc, exists_and_left,
          exists_eq_left']
      split
      case isTrue hptr =>
        generalize hsrc : (t.lookup place).1 = src at hiff hptr ⊢
        have hjoin : Yields (t.subtree dest) (fun _ => False) s
            ((s.overwrite t dest).join dest src) :=
          hover.step (join _ _ _)
        generalize (s.overwrite t dest).join dest src = u at hjoin ⊢
        have hcast : Yields (t.subtree dest)
            (fun n => (o.isMove && (u.node src).owned) = true ∧ n ∈ t.subtree src) s
            (if o.isMove && (u.node src).owned then (u.setOwned dest true).loseOwnership t src
              else u) := by
          split
          case isTrue hmove =>
            have hown := hjoin.step (setOwned (t.self_mem_subtree dest) true u)
            exact (hown.trans (loseOwnership _ _)).congr fun n _ => by simp [hmove]
          case isFalse hmove => exact hjoin.congr fun n _ => by simp [hmove]
        refine hcast.congr fun n hn => ?_
        rw [hiff, hptr, Bool.and_eq_true]
        -- below the destination there is nothing to hand over; elsewhere `src` is owned as before
        by_cases hbelow : src ∈ t.subtree dest
        · have hnot : n ∉ t.subtree src := fun h => hn (ht.subtree_subset hbelow h)
          simp [hnot]
        · rw [hjoin.owned_eq hbelow]
          simp [and_assoc]
      case isFalse hptr =>
        exact (hover.step (setKnown? _ _ _)).congr fun n _ => by simp [hiff, hptr]

theorem takeMoved (s : PathState) (o : Operand) :
    Yields into (o.Takes t) s (s.takeMoved t o) := by
  cases o with
  | copy place => exact takes_none (fun _ => by rintro ⟨_, h, -⟩; cases h) (refl s)
  | constant value ty => exact takes_none (fun _ => Operand.not_movesFrom_constant rfl) (refl s)
  | move place =>
      rw [PathState.takeMoved]
      dsimp only
      split
      case isTrue hd => exact takes_none (fun _ => Operand.not_movesFrom_deref rfl hd) (refl s)
      case isFalse hd =>
        rw [Bool.not_eq_true] at hd
        refine (loseOwnership s _).congr fun n _ => ?_
        rw [Operand.takes_iff rfl hd]
        simp [Operand.isMove]

end Yields

end PathState

/-! ### Instructions -/

namespace Progress

open PathState

variable {t : NodeTable}

/-- **A write to a node** takes the value out of what it hands over. -/
theorem assignTo_yields (ht : t.Layered) (p : Progress) (loc : Location) (dest : NodeId)
    (r : Rvalue) :
    Yields (t.subtree dest) (r.HandsOver t p.state dest) p.state
      (p.assignTo t loc dest r).state := by
  have hover : Yields (t.subtree dest) (fun _ => False) p.state (p.state.overwrite t dest) :=
    .overwrite (List.Subset.refl _) _
  cases r with
  | use o =>
      simp only [assignTo, state_on, state_useOperand]
      exact .storeOperand ht _ _ _
  | ref mutable target =>
      simp only [assignTo, state_on, state_checkUse]
      exact hover.step (.join _ _ _)
  | addressOf mutable target => exact hover.step (.join _ _ _)
  | aggregate items name =>
      simp only [assignTo, state_on, state_foldl (fun p o => state_useOperand p loc _ o)]
      refine (hover.trans (.fill ht (t.self_mem_subtree dest) _ _ _ fun c hc => ?_)).congr
        fun n _ => or_iff_right id
      obtain ⟨x, hx, rfl⟩ := List.mem_map.mp hc
      exact ht.subtree_child_subset hx
  | cast o ty =>
      simp only [assignTo, state_on, state_useOperand]
      exact .storeCast ht _ _ _ _
  | binary op l r =>
      simp only [assignTo, state_on, state_useOperand]
      split
      · split
        · exact hover.step (.join _ _ _)
        · exact hover
      · exact hover.step (.setKnown? _ _ _)
  | unary op o =>
      simp only [assignTo, state_on, state_useOperand]
      exact hover.step (.setKnown? _ _ _)
  | inspect what target =>
      simp only [assignTo, state_on, state_checkUse]
      exact hover

/-- **A write through a pointer** takes the value out of every moved operand. -/
theorem assignThrough_yields (p : Progress) (loc : Location) (dest : NodeId) (r : Rvalue) :
    Yields [] (fun n => ∃ o ∈ r.operands, o.Takes t n) p.state
      (p.assignThrough t loc dest r).state := by
  have hstep : ∀ (q : Progress) (o : Operand),
      q.state.takeMoved t o =
        ((q.useOperand t loc "assignment" o).on fun s => s.takeMoved t o).state := fun q o => by
    rw [state_on, state_useOperand]
  rw [assignThrough, ← List.foldl_hom Progress.state hstep, state_checkUse]
  exact .foldl _ _ (fun s o _ => .takeMoved s o) _

end Progress

namespace CallSite

open PathState

variable {t : NodeTable}

/-- The sources of an operand are its node, unless it lies behind a pointer. -/
theorem source_eq_nodeOf (o : Operand) :
    o.source t = ((nodeOf t o).filter fun x => !x.2).toList.map (·.1) := by
  rw [Operand.source, nodeOf]
  cases o.place? with
  | none => rfl
  | some place => cases hd : (t.lookup place).2 <;> simp [hd, Option.filter]

/-- A call takes the value out of its moved and forgotten arguments. -/
theorem move_yields (c : CallSite) (s : PathState) :
    Yields [] (· ∈ c.taken t) s (c.move t s) := by
  refine (Yields.foldl (fun x n => n ∈ if x.1.isMove || c.forgets.contains (x.2 : Int) then
    (x.1.source t).flatMap t.subtree else []) c.args.zipIdx (fun s x _ => ?_) s).congr fun n _ => ?_
  · have hnone : Yields [] (· ∈ ([] : List NodeId)) s s := (Yields.refl s).congr fun n _ => by simp
    rw [source_eq_nodeOf]
    dsimp only
    cases nodeOf t x.1 with
    | none => simpa using hnone
    | some y =>
        obtain ⟨id, deref⟩ := y
        cases deref with
        | true => simpa using hnone
        | false =>
            cases x.1.isMove || c.forgets.contains (x.2 : Int) with
            | true => simpa using Yields.loseOwnership s id
            | false => exact hnone
  · rw [taken, List.mem_flatMap]

/-- A result that is stored takes no value out of nodes outside of the destination. -/
theorem stored_yields (c : CallSite) (dest : NodeId) (s : PathState) :
    Yields (t.subtree dest) (fun _ => False) s (c.link t dest (c.store t dest s)) := by
  have hstore : Yields (t.subtree dest) (fun _ => False) s (c.store t dest s) :=
    (Yields.overwrite (List.Subset.refl _) s).step (.ownAs (List.Subset.refl _) _ _)
  refine (c.link_course dest _).keeps (P := Yields (t.subtree dest) (fun _ => False) s)
    (fun u a ha hu => hu.step ?_) hstore
  cases ha with
  | join _ => exact .join _ _ _
  | taint => exact .taint _ _

theorem size_drop (c : CallSite) (p : Progress) : (c.drop t p).state.size = p.state.size := by
  rw [drop_eq]
  refine List.foldlRecOn (motive := fun q : Progress => q.state.size = p.state.size) _ _ rfl
    fun q hq x _ => ?_
  rw [Progress.release]
  split
  · split <;> exact hq
  · exact (size_markDropped _ _ _ _ _).trans hq

/-- **A call** takes the value out of every moved argument. -/
theorem givenUp_apply (c : CallSite) (destination : Place) (p : Progress) {n : NodeId}
    (hn : n ∈ c.taken t) (hlt : n < p.state.size) (hout : n ∉ t.written destination) :
    ((c.apply t destination p).state.node n).GivenUp := by
  have hsize : (c.drop t (c.use t p)).state.size = p.state.size := by rw [size_drop, state_use]
  have hmove : ((c.move t (c.drop t (c.use t p)).state).node n).GivenUp :=
    (c.move_yields _).left n List.not_mem_nil (hsize ▸ hlt) hn
  rw [apply]
  dsimp only
  split
  · rw [Progress.state_checkUse]
    exact hmove
  case isFalse hd =>
    rw [NodeTable.written, if_neg hd] at hout
    have hlt' : n < (c.move t (c.drop t (c.use t p)).state).size := by
      rw [(c.move_yields (t := t) _).size, hsize]
      exact hlt
    exact ((c.stored_yields _ _).givenUp_iff hout hlt').mpr (.inl hmove)

end CallSite

/-- What an argument takes is taken by the call. -/
theorem CallSite.mem_taken {t : NodeTable} {c : CallSite} {o : Operand} {n : NodeId}
    (ho : o ∈ c.args) (h : o.Takes t n) : n ∈ c.taken t := by
  obtain ⟨i, hi⟩ := List.mem_iff_getElem?.mp ho
  obtain ⟨src, ⟨place, rfl, hlookup⟩, hn⟩ := h
  refine List.mem_flatMap.mpr ⟨(.move place, i), List.mk_mem_zipIdx_iff_getElem?.mpr hi, ?_⟩
  rw [Operand.isMove, Bool.true_or, if_pos rfl, Operand.source_eq rfl (by rw [hlookup]), hlookup,
    List.flatMap_singleton]
  exact hn

/-- A node that an operand over declared places takes its value out of is in the table. -/
theorem Operand.Takes.lt {t : NodeTable} (ht : t.Closed) {o : Operand} {n : NodeId}
    (h : o.Takes t n) (hdeclared : ∀ place, o.place? = some place → t.declares place = true) :
    n < t.size := by
  obtain ⟨src, ⟨place, rfl, hlookup⟩, hn⟩ := h
  have hsrc : (t.lookup place).1 < t.size := (Guarded.gives_lookup ht (hdeclared place rfl)).holds
  rw [hlookup] at hsrc
  exact (Guarded.gives_subtree ht hsrc).holds n hn

namespace FunctionGraph.Built

variable {ds : Declarations} {b : Body} {g : FunctionGraph} {c : GraphBlock}

/-- The operands of an assignment in a function read declared places. -/
theorem declares_operand (h : Built ds b g) (hc : c ∈ g.blocks) {st : Statement}
    (hst : st ∈ c.statements) {place : Place} {r : Rvalue} (hkind : st.kind = .assign place r)
    {o : Operand} (ho : o ∈ r.operands) {q : Place} (hq : o.place? = some q) :
    g.nodes.declares q = true := by
  refine h.declares hc (x := (st.loc, q)) (List.mem_append_left _ ?_)
  refine List.mem_flatMap.mpr ⟨st, hst, ?_⟩
  refine List.mem_map_of_mem (List.mem_append_left _ (List.mem_append_left _ ?_))
  rw [Statement.reads, hkind]
  exact List.mem_filterMap.mpr ⟨o, ho, hq⟩

/-- So do the arguments of a call. -/
theorem declares_arg (h : Built ds b g) (hc : c ∈ g.blocks) {callee : String} {args : List Operand}
    {destination : Place} {target unwind : Option BlockId}
    (hkind : c.terminator.kind = .call callee args destination target unwind) {o : Operand}
    (ho : o ∈ args) {q : Place} (hq : o.place? = some q) : g.nodes.declares q = true := by
  refine h.declares hc (x := (c.terminator.loc, q)) (List.mem_append_right _ ?_)
  refine List.mem_map_of_mem (List.mem_append_left _ (List.mem_append_left _ ?_))
  rw [Terminator.reads, hkind]
  exact List.mem_filterMap.mpr ⟨o, ho, hq⟩

end FunctionGraph.Built

namespace Progress

/-- **Which nodes have given up their memory after an instruction**, in any state over the nodes of an
accepted function.

* After a write through a pointer and after a call, every node that a moved operand takes its value
  out of, if it does not lie below the destination.
* After a write to a node, of the nodes that do not lie below it, those that had given up their memory
  before and those that the write hands over; no others. -/
theorem moved_operands_give_up {ds : Declarations} {b : Body} {g : FunctionGraph}
    (hg : FunctionGraph.ofBody ds b = .ok g) {c : GraphBlock} (hc : c ∈ g.blocks) (p : Progress)
    (hp : p.state.size = g.nodes.size) :
    (∀ st ∈ c.statements, ∀ place r, st.kind = .assign place r →
      (g.nodes.lookup place).2 = true → ∀ o ∈ r.operands, ∀ n, o.Takes g.nodes n →
        ((p.statement g.nodes st).state.node n).GivenUp) ∧
    (∀ callee args destination target unwind,
      c.terminator.kind = .call callee args destination target unwind →
      ∀ effect, ∀ o ∈ args, ∀ n, o.Takes g.nodes n → n ∉ g.nodes.written destination →
        ((CallSite.apply g.nodes ⟨c.terminator.loc, callee, effect, args⟩ destination
          p).state.node n).GivenUp) ∧
    (∀ st ∈ c.statements, ∀ place r, st.kind = .assign place r →
      (g.nodes.lookup place).2 = false → ∀ n < g.nodes.size, n ∉ g.nodes.written place →
        (((p.statement g.nodes st).state.node n).GivenUp ↔
          (p.state.node n).GivenUp ∨
            r.HandsOver g.nodes p.state (g.nodes.lookup place).1 n)) := by
  have hbuilt := FunctionGraph.built_of_ofBody hg
  refine ⟨fun st hst place r hkind hd o ho n hn => ?_,
    fun callee args destination target unwind hkind effect o ho n hn hout => ?_,
    fun st hst place r hkind hd n hlt hout => ?_⟩
  · have hlt : n < g.nodes.size :=
      hn.lt hbuilt.closed fun q hq => hbuilt.declares_operand hc hst hkind ho hq
    rw [Progress.statement, hkind]
    dsimp only
    rw [assign]
    dsimp only
    rw [if_pos hd]
    exact (p.assignThrough_yields st.loc _ r).left n List.not_mem_nil (hp ▸ hlt) ⟨o, ho, hn⟩
  · have hlt : n < g.nodes.size :=
      hn.lt hbuilt.closed fun q hq => hbuilt.declares_arg hc hkind ho hq
    exact CallSite.givenUp_apply _ destination p (CallSite.mem_taken ho hn) (hp ▸ hlt) hout
  · rw [NodeTable.written, hd, if_neg Bool.false_ne_true] at hout
    rw [Progress.statement, hkind]
    dsimp only
    rw [assign]
    dsimp only
    rw [hd, if_neg Bool.false_ne_true]
    exact (p.assignTo_yields hbuilt.layered st.loc _ r).givenUp_iff hout (hp ▸ hlt)

/-- A function of two owning pairs and a pointer: one pair goes into a local and from there through
the pointer, the other one into a call. -/
def relay : Body where
  name := "relay"
  argCount := 3
  locals := [{ ty := Ty.unit }, { ty := pair }, { ty := .rawPtr true pair }, { ty := pair },
    { ty := pair }, { ty := Ty.unit }]
  blocks :=
    [{ id := 0,
       statements :=
         [⟨default, .assign { base := 4 } (.use (.move { base := 1 }))⟩,
          ⟨default, .assign { base := 2, steps := [.deref] } (.use (.move { base := 4 }))⟩],
       terminator := ⟨default, .call "consume" [.move { base := 3 }] { base := 5 } (some 1) none⟩ },
     { id := 1, statements := [], terminator := ⟨default, .ret⟩ }]
  distinct := by decide
where
  /-- A vector and a number. -/
  pair : Ty := .tuple [Ty.container .vec "Vec" [Ty.int32], Ty.int32]

/-- Its graph. -/
def relayGraph : FunctionGraph := (FunctionGraph.ofBody .empty relay).toOption.get rfl

/-- Its entry, in the state at the entry. -/
def relayEntry : GraphBlock × Progress :=
  (relayGraph.blocks.headD default, { state := relayGraph.initialState })

/-- Every moved pair is given up where it comes from, with its fields. -/
theorem relay_gives_up :
    FunctionGraph.ofBody .empty relay = .ok relayGraph ∧ relayEntry.1 ∈ relayGraph.blocks ∧
      (∃ direct through : Statement, relayEntry.1.statements = [direct, through] ∧
        (∀ n ∈ [1, 6, 7],
          ((relayEntry.2.statement relayGraph.nodes direct).state.node n).GivenUp) ∧
        ∀ n ∈ [4, 10, 11],
          ((relayEntry.2.statement relayGraph.nodes through).state.node n).GivenUp) ∧
      ∀ effect, ∀ n ∈ [3, 8, 9],
        ((CallSite.apply relayGraph.nodes ⟨default, "consume", effect, [.move { base := 3 }]⟩
          { base := 5 } relayEntry.2).state.node n).GivenUp := by
  have hg : FunctionGraph.ofBody .empty relay = .ok relayGraph := rfl
  have hentry : relayEntry.1 ∈ relayGraph.blocks := .head _
  obtain ⟨hthrough, hcall, hdirect⟩ := moved_operands_give_up hg hentry relayEntry.2 rfl
  refine ⟨hg, hentry, ⟨_, _, rfl, fun n hn => ?_, fun n hn => ?_⟩, fun effect n hn => ?_⟩
  · have hout : n < relayGraph.nodes.size ∧ n ∉ relayGraph.nodes.written { base := 4 } := by
      revert n
      decide
    -- the fields of the source have counterparts in the destination
    have hpaired : relayGraph.nodes.Paired 4 1 n := by
      have hself : relayGraph.nodes.Paired 4 1 1 := .self
      have hzero : relayGraph.nodes.Paired 4 1 6 :=
        .field (f := "0") (d := 10) (by decide) rfl .self
      have hone : relayGraph.nodes.Paired 4 1 7 :=
        .field (f := "1") (d := 11) (by decide) rfl .self
      simp only [List.mem_cons, List.not_mem_nil, or_false] at hn
      obtain rfl | rfl | rfl := hn <;> assumption
    exact (hdirect _ (.head _) { base := 4 } _ rfl rfl n hout.1 hout.2).mpr
      (.inr ⟨1, ⟨_, rfl, rfl⟩, hpaired⟩)
  · have hmem : n ∈ relayGraph.nodes.subtree 4 := hn
    exact hthrough _ (.tail _ (.head _)) _ _ rfl rfl _ (.head _) n ⟨4, ⟨_, rfl, rfl⟩, hmem⟩
  · have hmem : n ∈ relayGraph.nodes.subtree 3 := hn
    have hout : n ∉ relayGraph.nodes.written { base := 5 } := by
      revert n
      decide
    exact hcall _ _ _ _ _ rfl effect _ (.head _) n ⟨3, ⟨_, rfl, rfl⟩, hmem⟩ hout

/-- A function that makes a box of a trait object of its argument, a box. -/
def unsizing : Body where
  name := "unsizing"
  argCount := 1
  locals := [{ ty := Ty.unit }, { ty := Ty.container .box "Box" [Ty.int32] },
    { ty := Ty.container .box "Box" [.nominal "dyn Any" []] }]
  blocks :=
    [{ id := 0,
       statements :=
         [⟨default, .assign { base := 2 }
           (.cast (.move { base := 1 }) (Ty.container .box "Box" [.nominal "dyn Any" []]))⟩],
       terminator := ⟨default, .ret⟩ }]
  distinct := by decide

/-- Its graph. -/
def unsizingGraph : FunctionGraph := (FunctionGraph.ofBody .empty unsizing).toOption.get rfl

/-- **A cast between values that are no pointers leaves the moved operand its memory**: the box that
was moved still owns what it held, live, and the new one owns nothing. -/
theorem unsizing_keeps_owner :
    FunctionGraph.ofBody .empty unsizing = .ok unsizingGraph ∧
      ∃ st after, unsizingGraph.blocks.map (·.statements) = [[st]] ∧
        after = ((⟨unsizingGraph.initialState, []⟩ : Progress).statement
          unsizingGraph.nodes st).state ∧
        (Operand.move { base := 1 }).Takes unsizingGraph.nodes 1 ∧
        1 ∉ unsizingGraph.nodes.written { base := 2 } ∧
        (after.node 1).owned = true ∧ (after.node 1).fate = .live ∧ (after.node 2).owned = false ∧
        ¬(after.node 1).GivenUp := by
  refine ⟨rfl, _, _, rfl, rfl, ⟨1, ⟨_, rfl, rfl⟩, .head _⟩, by decide, rfl, rfl, rfl, fun h => ?_⟩
  exact h.2 rfl

end Progress

end Dangling
