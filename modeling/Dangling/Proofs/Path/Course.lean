import Dangling.Path.Call
import Dangling.Proofs.Graph.Nodes
import Dangling.Proofs.Path.State

/-!
# Proofs — Path — Course

What a write can do to a path state, said once: it is a course of elementary acts, and which acts it
may take is known beforehand from the right-hand side and the node table.  Whatever all of these acts
keep is kept by the write.

* `Act`: an elementary change; `Act.rewrites` are the nodes it writes anew, of all others it can only
  extend the class, taint them and release them.
* `Course`: a state comes from another by acts of a kind.
* `Rvalue.named`, `Rvalue.moved`: the nodes whose memory a write gives another name, and those that
  it moves.
* `Progress.assignTo_course`: a write to a node overwrites it and then lays its value down (`Laying`).
-/

namespace Dangling

/-! ### Acts -/

/-- Gives `dest` the ownership, fate and taint of `src`. -/
def PathState.inherit (s : PathState) (dest src : NodeId) : PathState :=
  s.update dest fun d =>
    { d with owned := (s.node src).owned, fate := (s.node src).fate,
             tainted := (s.node src).tainted }

/-- An elementary change of a path state. -/
inductive Act where
  | own (n : NodeId) (owned : Bool)
  | leave (n : NodeId)
  | learn (n : NodeId) (v : Option Scalar)
  | forget (n : NodeId)
  | inherit (dest src : NodeId)
  | join (a b : NodeId)
  | taint (n : NodeId)
  | release (ids : List NodeId) (origin : NodeId) (loc : Option Location) (manual : Bool)

namespace Act

/-- The state after an act. -/
def apply (s : PathState) : Act → PathState
  | own n owned => s.setOwned n owned
  | leave n => s.update n NodeState.leave
  | learn n v => s.setKnown? n v
  | forget n => s.forget n
  | inherit dest src => s.inherit dest src
  | join a b => s.join a b
  | taint n => s.taint n
  | release ids origin loc manual => s.markDropped ids origin loc manual

/-- The nodes that an act writes anew. -/
def rewrites : Act → List NodeId
  | own n _ | leave n | forget n | inherit n _ => [n]
  | learn _ _ | join _ _ | taint _ | release _ _ _ _ => []

end Act

/-- `s'` comes from `s` by acts that are allowed. -/
inductive Course (allowed : Act → Prop) (s : PathState) : PathState → Prop where
  | refl : Course allowed s s
  | step {s' : PathState} (h : Course allowed s s') (a : Act) (ha : allowed a) :
      Course allowed s (a.apply s')

namespace Course

variable {A B : Act → Prop} {s₀ s s' : PathState} {t : NodeTable}

/-- One course after another. -/
theorem trans (h : Course A s₀ s) (h' : Course A s s') : Course A s₀ s' := by
  induction h' with
  | refl => exact h
  | step _ a ha ih => exact ih.step a ha

/-- More acts may be allowed. -/
theorem mono (h : Course A s₀ s) (hAB : ∀ a, A a → B a) : Course B s₀ s := by
  induction h with
  | refl => exact .refl
  | step _ a ha ih => exact ih.step a (hAB a ha)

/-- **What every act keeps, a course keeps.** -/
theorem keeps {P : PathState → Prop} (h : Course A s₀ s)
    (hstep : ∀ s a, A a → P s → P (a.apply s)) (h₀ : P s₀) : P s := by
  induction h with
  | refl => exact h₀
  | step _ a ha ih => exact hstep _ a ha ih

/-- By the list: what each step continues, the loop continues. -/
theorem foldl {α : Type} {f : PathState → α → PathState} (xs : List α) (h : Course A s₀ s)
    (hf : ∀ s x, x ∈ xs → Course A s₀ s → Course A s₀ (f s x)) : Course A s₀ (xs.foldl f s) :=
  List.foldlRecOn xs _ h fun s hs x hx => hf s x hx hs

/-! ### Subtrees -/

/-- To overwrite a subtree is to forget its nodes. -/
theorem overwrite (h : Course A s₀ s) {id : NodeId} (ha : ∀ n ∈ t.subtree id, A (.forget n)) :
    Course A s₀ (s.overwrite t id) :=
  h.foldl _ fun _ n hn hs => hs.step (.forget n) (ha n hn)

/-- To take a subtree out is to leave its nodes. -/
theorem loseOwnership (h : Course A s₀ s) {id : NodeId} (ha : ∀ n ∈ t.subtree id, A (.leave n)) :
    Course A s₀ (s.loseOwnership t id) :=
  h.foldl _ fun _ n hn hs => hs.step (.leave n) (ha n hn)

theorem ownByType (h : Course A s₀ s) {id : NodeId} (ha : ∀ n ∈ t.subtree id, ∀ b, A (.own n b)) :
    Course A s₀ (s.ownByType t id) :=
  h.foldl _ fun _ n hn hs => hs.step (.own n _) (ha n hn _)

/-- Ownership is given to the nodes of one subtree. -/
theorem ownAs (h : Course A s₀ s) {id : NodeId} (ha : ∀ n ∈ t.subtree id, ∀ b, A (.own n b))
    (owned : Option Bool) : Course A s₀ (s.ownAs t id owned) := by
  cases owned with
  | none => exact h.ownByType ha
  | some b => exact h.foldl _ fun _ n hn hs => hs.step (.own n _) (ha n hn _)

end Course

/-! ### Moves -/

namespace PathState

/-- The moves of single nodes that a move of `src` into `dest` is made of, as pairs of destination
and source. -/
def moves (t : NodeTable) : (depth : Nat) → NodeId → NodeId → List (NodeId × NodeId)
  | 0, dest, src => [(dest, src)]
  | depth + 1, dest, src =>
    (dest, src) :: (t.children dest).flatMap fun x =>
      (t.child? src x.1).toList.flatMap fun c => moves t depth x.2 c

/-- A move is made of moves of single nodes. -/
theorem moveWithin_eq (t : NodeTable) (depth : Nat) :
    ∀ (s : PathState) (dest src : NodeId), s.moveWithin t depth dest src =
      (moves t depth dest src).foldl (fun s x => s.moveNode x.1 x.2) s := by
  induction depth with
  | zero => exact fun _ _ _ => rfl
  | succ depth ih =>
      intro s dest src
      rw [moveWithin, moves, List.foldl_cons]
      generalize s.moveNode dest src = u
      induction t.children dest generalizing u with
      | nil => rfl
      | cons x xs hxs =>
          rw [List.foldl_cons, hxs, List.flatMap_cons, List.foldl_append]
          congr 1
          dsimp only
          cases t.child? src x.1 with
          | none => rfl
          | some c =>
              rw [Option.toList_some, List.flatMap_singleton]
              exact ih u x.2 c

/-- Moves go from nodes below `src` to nodes below `dest`. -/
theorem mem_moves {t : NodeTable} {depth : Nat} {dest src : NodeId} {x : NodeId × NodeId}
    (h : x ∈ moves t depth dest src) :
    x.1 ∈ t.subtreeWithin depth dest ∧ x.2 ∈ t.subtreeWithin depth src := by
  induction depth generalizing dest src with
  | zero =>
      obtain rfl := List.mem_singleton.mp h
      exact ⟨List.mem_singleton_self _, List.mem_singleton_self _⟩
  | succ depth ih =>
      rcases List.mem_cons.mp h with rfl | h
      · exact ⟨List.mem_cons_self, List.mem_cons_self⟩
      · obtain ⟨y, hy, hx⟩ := List.mem_flatMap.mp h
        obtain ⟨c, hc, hx⟩ := List.mem_flatMap.mp hx
        have hchild := NodeTable.mem_children_of_child? (Option.mem_toList.mp hc)
        obtain ⟨h₁, h₂⟩ := ih hx
        exact ⟨NodeTable.mem_subtreeWithin_succ.mpr (.inr ⟨y, hy, h₁⟩),
          NodeTable.mem_subtreeWithin_succ.mpr (.inr ⟨_, hchild, h₂⟩)⟩

end PathState

/-! ### What an assignment hands over -/

namespace Operand

/-- The node that an operand reads, unless it reads through a pointer. -/
def source (t : NodeTable) (o : Operand) : List NodeId :=
  match o.place? with
  | some place => if (t.lookup place).2 then [] else [(t.lookup place).1]
  | none => []

/-- The nodes that an operand takes the value out of. -/
def taken (t : NodeTable) (o : Operand) : List NodeId :=
  if o.isMove then (o.source t).flatMap t.subtree else []

/-- The node of a pointer that is copied. -/
def copied (t : NodeTable) (o : Operand) : List NodeId :=
  if o.isMove then [] else (o.source t).filter t.isPointer

variable {t : NodeTable} {o : Operand} {place : Place}

/-- An operand that is not behind a pointer has one source. -/
theorem source_eq (hp : o.place? = some place) (hd : (t.lookup place).2 = false) :
    o.source t = [(t.lookup place).1] := by
  rw [source, hp]
  simp [hd]

/-- A moved operand takes its subtree. -/
theorem taken_eq (hp : o.place? = some place) (hd : (t.lookup place).2 = false)
    (hm : o.isMove = true) : o.taken t = t.subtree (t.lookup place).1 := by
  rw [taken, if_pos hm, source_eq hp hd, List.flatMap_singleton]

/-- Values are taken out of the node of a moved place. -/
theorem exists_of_taken (h : o.taken t ≠ []) :
    ∃ place, o.place? = some place ∧ (t.lookup place).2 = false ∧ o.isMove = true := by
  rw [taken] at h
  split at h
  case isFalse => exact absurd rfl h
  case isTrue hmove =>
    rw [source] at h
    split at h
    case h_2 => exact absurd rfl h
    case h_1 place hp =>
      split at h
      case isTrue => exact absurd rfl h
      case isFalse hd => exact ⟨place, hp, by simpa using hd, hmove⟩

/-- A copied pointer is its own source. -/
theorem copied_eq (hp : o.place? = some place) (hd : (t.lookup place).2 = false)
    (hm : o.isMove = false) (hptr : t.isPointer (t.lookup place).1 = true) :
    o.copied t = [(t.lookup place).1] := by
  rw [copied, hm, source_eq hp hd, if_neg Bool.false_ne_true,
    List.filter_cons_of_pos hptr, List.filter_nil]

end Operand

namespace Rvalue

/-- The nodes whose memory gets another name, `dest` or a field of it. -/
def named (t : NodeTable) (dest : NodeId) : Rvalue → List NodeId
  | .use o =>
    match o.place? with
    | some place =>
      if (t.lookup place).2 then if t.isPointer dest then [(t.lookup place).1] else []
      else o.copied t
    | none => []
  | .ref _ target | .addressOf _ target => [(t.lookup target).1]
  | .aggregate items _ =>
    items.flatMap (·.copied t) ++ (items.drop (t.children dest).length).flatMap (·.source t)
  | .cast o ty =>
    (o.source t).filter fun src => t.isPointer src || ty.isPointer || t.isPointer dest
  | .binary op l _ =>
    if op = .offset then (l.place?.map fun place => (t.lookup place).1).toList else []
  | .unary _ _ | .inspect _ _ => []

/-- The nodes that go over to `dest` and its fields with all that is known of them. -/
def moved (t : NodeTable) (dest : NodeId) : Rvalue → List NodeId
  | .use o => o.taken t
  | .aggregate items _ => (items.take (t.children dest).length).flatMap (·.taken t)
  | _ => []

/-- The nodes that the operands take their values out of. -/
def taken (t : NodeTable) (r : Rvalue) : List NodeId := r.operands.flatMap (·.taken t)

end Rvalue

/-- The acts that lay a value down in the nodes `into`: memory of `named` gets names there, `moved`
nodes go over, and values are taken out of `taken`. -/
inductive Laying (into named moved taken : List NodeId) : Act → Prop where
  | own {n : NodeId} {owned : Bool} (hn : n ∈ into) : Laying into named moved taken (.own n owned)
  | learn {n : NodeId} {v : Option Scalar} (hn : n ∈ into) :
      Laying into named moved taken (.learn n v)
  | inherit {dest src : NodeId} (hd : dest ∈ into) (hs : src ∈ moved) :
      Laying into named moved taken (.inherit dest src)
  | join {dest src : NodeId} (hd : dest ∈ into) (hs : src ∈ named ∨ src ∈ moved) :
      Laying into named moved taken (.join dest src)
  | leave {n : NodeId} (hn : n ∈ taken) : Laying into named moved taken (.leave n)

namespace Course

variable {I N M T : List NodeId} {s₀ s : PathState} {t : NodeTable} {dest src : NodeId}

/-- A move inherits, joins and leaves. -/
theorem moveNode (h : Course (Laying I N M T) s₀ s) (hd : dest ∈ I) (hm : src ∈ M) (ht : src ∈ T) :
    Course (Laying I N M T) s₀ (s.moveNode dest src) :=
  (((h.step (.inherit dest src) (.inherit hd hm)).step (.join dest src) (.join hd (.inr hm))).step
    (.learn dest _) (.learn hd)).step (.leave src) (.leave ht)

/-- It does so for fields that both sides have, which lie in the two subtrees. -/
theorem moveInto (h : Course (Laying I N M T) s₀ s) (hd : t.subtree dest ⊆ I)
    (hm : t.subtree src ⊆ M) (ht : t.subtree src ⊆ T) :
    Course (Laying I N M T) s₀ (s.moveInto t dest src) := by
  rw [PathState.moveInto, PathState.moveWithin_eq]
  refine h.foldl _ fun s x hx hs => ?_
  obtain ⟨h₁, h₂⟩ := PathState.mem_moves hx
  exact hs.moveNode (hd h₁) (hm h₂) (ht h₂)

/-- A field of an aggregate is laid down in its own subtree. -/
theorem fillField (h : Course (Laying I N M T) s₀ s) {child : NodeId} {o : Operand}
    (hchild : t.subtree child ⊆ I) (hn : o.copied t ⊆ N) (hm : o.taken t ⊆ M) (ht : o.taken t ⊆ T) :
    Course (Laying I N M T) s₀ (s.fillField t child o) := by
  have hmem : child ∈ I := hchild (t.self_mem_subtree child)
  rw [PathState.fillField]
  split
  · exact h.step (.learn child _) (.learn hmem)
  case h_2 place hp =>
    dsimp only
    split
    · exact h.ownByType fun n hn _ => .own (hchild hn)
    case isFalse hd =>
      rw [Bool.not_eq_true] at hd
      split
      case isTrue hmove =>
        rw [Operand.taken_eq hp hd hmove] at hm ht
        exact h.moveInto hchild hm ht
      case isFalse hmove =>
        rw [Bool.not_eq_true] at hmove
        split
        case isTrue hptr =>
          rw [Operand.copied_eq hp hd hmove hptr] at hn
          exact h.step (.join child _) (.join hmem (.inl (hn List.mem_cons_self)))
        case isFalse => exact h

/-- Without a node for the field the aggregate names the memory of the operand. -/
theorem fillWhole (h : Course (Laying I N M T) s₀ s) {o : Operand} (hdest : dest ∈ I)
    (hn : o.source t ⊆ N) (ht : o.taken t ⊆ T) :
    Course (Laying I N M T) s₀ (s.fillWhole t dest o) := by
  rw [PathState.fillWhole]
  split
  · exact h
  case h_2 place hp =>
    dsimp only
    split
    · exact h
    case isFalse hd =>
      rw [Bool.not_eq_true] at hd
      rw [Operand.source_eq hp hd] at hn
      have hjoin : Laying I N M T (.join dest (t.lookup place).1) :=
        .join hdest (.inl (hn List.mem_cons_self))
      split
      case isTrue hmove =>
        rw [Operand.taken_eq hp hd hmove] at ht
        refine Course.loseOwnership (Course.step ?_ (.join dest _) hjoin) fun n hn => .leave (ht hn)
        split
        · exact h.step (.own dest true) (.own hdest)
        · exact h
      case isFalse =>
        split
        · exact h.step (.join dest _) hjoin
        · exact h

/-- The fields of a new aggregate, one after the other. -/
theorem fill (os : List Operand) : ∀ {s : PathState} {children : List NodeId},
    Course (Laying I N M T) s₀ s → dest ∈ I → (∀ c ∈ children, t.subtree c ⊆ I) →
    (∀ o ∈ os, o.copied t ⊆ N) → (∀ o ∈ os, o.taken t ⊆ T) →
    (∀ o ∈ os.take children.length, o.taken t ⊆ M) →
    (∀ o ∈ os.drop children.length, o.source t ⊆ N) →
    Course (Laying I N M T) s₀ (PathState.fill t dest s os children) := by
  induction os with
  | nil =>
      intro s children h _ _ _ _ _ _
      rw [PathState.fill]
      exact h
  | cons o os ih =>
      intro s children h hdest hI hN hT hM hS
      obtain ⟨hNo, hN⟩ := List.forall_mem_cons.mp hN
      obtain ⟨hTo, hT⟩ := List.forall_mem_cons.mp hT
      cases children with
      | nil =>
          rw [List.length_nil, List.drop_zero] at hS
          obtain ⟨hSo, hS⟩ := List.forall_mem_cons.mp hS
          exact ih (h.fillWhole hdest hSo hTo) hdest hI hN hT (fun _ ho => nomatch ho) hS
      | cons child children =>
          obtain ⟨hIo, hI⟩ := List.forall_mem_cons.mp hI
          rw [List.length_cons, List.take_succ_cons] at hM
          obtain ⟨hMo, hM⟩ := List.forall_mem_cons.mp hM
          rw [List.length_cons, List.drop_succ_cons] at hS
          exact ih (h.fillField hIo hNo hMo hTo) hdest hI hN hT hM hS

end Course

/-! ### Checks -/

namespace Progress

variable {p : Progress} {t : NodeTable} {loc : Location} {context : String}

@[simp] theorem state_checkUse (p : Progress) (id : NodeId) (loc : Location) (context : String) :
    (p.checkUse t id loc context).state = p.state := by
  rw [checkUse]
  split <;> rfl

@[simp] theorem state_useOperand (p : Progress) (loc : Location) (context : String) (o : Operand) :
    (p.useOperand t loc context o).state = p.state := by
  rw [useOperand]
  split
  · rfl
  dsimp only
  split
  · exact state_checkUse _ _ _ _
  split
  · exact state_checkUse _ _ _ _
  split
  · rfl
  · exact state_checkUse _ _ _ _

/-- Steps that leave the state as it is leave it together. -/
theorem state_foldl {α : Type} {step : Progress → α → Progress}
    (hstep : ∀ p x, (step p x).state = p.state) (xs : List α) (p : Progress) :
    (xs.foldl step p).state = p.state :=
  List.foldlRecOn (motive := fun q : Progress => q.state = p.state) xs _ rfl
    fun q hq x _ => (hstep q x).trans hq

@[simp] theorem state_on (p : Progress) (f : PathState → PathState) : (p.on f).state = f p.state :=
  rfl

/-! ### Writes -/

/-- The acts of a write to a node, after it is overwritten. -/
abbrev AssignLaying (t : NodeTable) (dest : NodeId) (r : Rvalue) : Act → Prop :=
  Laying (t.subtree dest) (r.named t dest) (r.moved t dest) (r.taken t)

/-- An operand that is stored in itself does nothing. -/
theorem storeOperand_course (s : PathState) (dest : NodeId) (o : Operand) :
    s.storeOperand t dest o = s ∨
      Course (AssignLaying t dest (.use o)) (s.overwrite t dest) (s.storeOperand t dest o) := by
  have hdest : dest ∈ t.subtree dest := t.self_mem_subtree dest
  rw [PathState.storeOperand]
  split
  · exact .inr (Course.refl.step (.learn dest _) (.learn hdest))
  case h_2 place hp =>
    dsimp only
    split
    case isTrue hd =>
      -- a pointer that is read through another one is taken to name the same memory
      right
      split
      case isTrue hptr =>
        refine Course.refl.step (.join dest _) (.join hdest (.inl ?_))
        simp [Rvalue.named, hp, hd, hptr]
      case isFalse => exact Course.refl.ownByType fun n hn _ => .own hn
    case isFalse hd =>
      rw [Bool.not_eq_true] at hd
      split
      · -- the node is stored in itself
        exact .inl rfl
      right
      split
      case isTrue hmove =>
        have htaken : o.taken t = t.subtree (t.lookup place).1 := Operand.taken_eq hp hd hmove
        refine Course.refl.moveInto (fun _ h => h) (fun n hn => ?_) (fun n hn => ?_)
        · rw [Rvalue.moved, htaken]
          exact hn
        · rw [Rvalue.taken, Rvalue.operands, List.flatMap_singleton, htaken]
          exact hn
      case isFalse hmove =>
        rw [Bool.not_eq_true] at hmove
        split
        case isTrue hptr =>
          refine Course.refl.step (.join dest _) (.join hdest (.inl ?_))
          simp [Rvalue.named, hp, hd, Operand.copied_eq hp hd hmove hptr]
        case isFalse => exact Course.refl.step (.learn dest _) (.learn hdest)

/-- After the overwriting, a cast joins, owns and leaves. -/
theorem storeCast_course (s : PathState) (dest : NodeId) (o : Operand) (ty : Ty) :
    Course (AssignLaying t dest (.cast o ty)) (s.overwrite t dest) (s.storeCast t dest o ty) := by
  have hdest : dest ∈ t.subtree dest := t.self_mem_subtree dest
  rw [PathState.storeCast]
  split
  · exact Course.refl.step (.learn dest _) (.learn hdest)
  case h_2 place hp =>
    dsimp only
    split
    · exact .refl
    case isFalse hd =>
      rw [Bool.not_eq_true] at hd
      split
      case isTrue hptr =>
        have hjoin : AssignLaying t dest (.cast o ty) (.join dest (t.lookup place).1) := by
          refine .join hdest (.inl ?_)
          rw [Rvalue.named, Operand.source_eq hp hd]
          exact List.mem_filter.mpr ⟨List.mem_cons_self, hptr⟩
        split
        case isTrue hmove =>
          -- a moved owner hands the ownership over
          refine Course.loseOwnership ((Course.refl.step (.join dest _) hjoin).step
            (.own dest true) (.own hdest)) fun n hn => .leave ?_
          rw [Rvalue.taken, Rvalue.operands, List.flatMap_singleton,
            Operand.taken_eq hp hd (Bool.and_eq_true_iff.mp hmove).1]
          exact hn
        case isFalse => exact Course.refl.step (.join dest _) hjoin
      case isFalse => exact Course.refl.step (.learn dest _) (.learn hdest)

/-- The operands of an aggregate are laid down one after the other. -/
theorem fill_course (ht : t.Layered) (s : PathState) (dest : NodeId) (items : List Operand)
    (name : Option String) :
    Course (AssignLaying t dest (.aggregate items name)) (s.overwrite t dest)
      ((s.overwrite t dest).fill t dest items ((t.children dest).map (·.2))) := by
  have hlen : ((t.children dest).map (·.2)).length = (t.children dest).length := List.length_map _
  refine Course.fill items .refl (t.self_mem_subtree dest) (fun c hc => ?_) (fun o ho n hn => ?_)
    (fun o ho n hn => ?_) (fun o ho n hn => ?_) (fun o ho n hn => ?_)
  · obtain ⟨x, hx, rfl⟩ := List.mem_map.mp hc
    exact ht.subtree_child_subset hx
  · exact List.mem_append_left _ (List.mem_flatMap.mpr ⟨o, ho, hn⟩)
  · exact List.mem_flatMap.mpr ⟨o, ho, hn⟩
  · rw [hlen] at ho
    exact List.mem_flatMap.mpr ⟨o, ho, hn⟩
  · rw [hlen] at ho
    exact List.mem_append_right _ (List.mem_flatMap.mpr ⟨o, ho, hn⟩)

/-- **A write to a node.**  Either the node is written to itself, which changes nothing, or the node
is overwritten and then its value is laid down. -/
theorem assignTo_course (ht : t.Layered) (p : Progress) (loc : Location) (dest : NodeId)
    (r : Rvalue) :
    (p.assignTo t loc dest r).state = p.state ∨
      Course (AssignLaying t dest r) (p.state.overwrite t dest) (p.assignTo t loc dest r).state := by
  have hdest : dest ∈ t.subtree dest := t.self_mem_subtree dest
  cases r with
  | use o =>
      simp only [assignTo, state_on, state_useOperand]
      exact storeOperand_course _ _ _
  | ref mutable target =>
      right
      simp only [assignTo, state_on, state_checkUse]
      exact Course.refl.step (.join dest _) (.join hdest (.inl List.mem_cons_self))
  | addressOf mutable target =>
      right
      exact Course.refl.step (.join dest _) (.join hdest (.inl List.mem_cons_self))
  | aggregate items name =>
      right
      simp only [assignTo, state_on, state_foldl (fun p o => state_useOperand p loc _ o)]
      exact fill_course ht _ _ _ _
  | binary op l r =>
      right
      simp only [assignTo, state_on, state_useOperand]
      split
      case isTrue hop =>
        -- an offset points into the memory of the pointer that it is taken from
        split
        case h_1 place hp =>
          refine Course.refl.step (.join dest _) (.join hdest (.inl ?_))
          simp [Rvalue.named, hop, hp]
        case h_2 => exact .refl
      case isFalse => exact Course.refl.step (.learn dest _) (.learn hdest)
  | unary op o =>
      right
      simp only [assignTo, state_on, state_useOperand]
      exact Course.refl.step (.learn dest _) (.learn hdest)
  | cast o ty =>
      right
      simp only [assignTo, state_on, state_useOperand]
      exact storeCast_course _ _ _ _
  | inspect what target =>
      right
      simp only [assignTo, state_on, state_checkUse]
      exact .refl

end Progress

end Dangling
