import Dangling.Proofs.Graph.FunctionGraph
import Dangling.Proofs.Walk.Explore

/-!
# Proofs — Walk — Unrolling

A walk is bounded by the unrolling of loops alone.

A path counts the blocks it enters only in the loop it is in, and starts anew when it leaves.  That
is enough: a path that has left a class of blocks never comes back, since it would then never have
left (`Travelled.not_mem_of_left`).  So on the whole path a block of a loop is entered at most
`loopUnroll` times, and any other block once.  Paths are then no longer than `pathBound`, a visit has
at most `width` continuations, and a walk enters no more blocks than a tree of that height and width
has nodes.

* `edge_of_visit`: a path goes on only along edges of the graph.
* `Travelled`: what holds of every path, kept by each step.
* `explore_complete`: a budget for the trees below all items is never used up.
-/

namespace Dangling

/-! ### Where a visit goes on -/

namespace Visit

theorem mem_andAlso {bs more : List BlockId} {x : BlockId} :
    x ∈ andAlso bs more → x ∈ bs ∨ x ∈ more := by
  intro h
  rcases List.mem_append.mp h with h | h
  · exact .inl h
  · exact .inr (List.mem_filter.mp h).1

theorem length_andAlso (bs more : List BlockId) :
    (andAlso bs more).length ≤ bs.length + more.length := by
  rw [andAlso, List.length_append]
  exact Nat.add_le_add_left (List.length_filter_le _ _) _

theorem mem_arm {arms : List (Int × BlockId)} {otherwise : Option BlockId} {v : Scalar}
    {x : BlockId} (h : x ∈ arm arms otherwise v) : x ∈ arms.map (·.2) ++ otherwise.toList := by
  rw [arm] at h
  split at h
  case h_1 a ha =>
    obtain rfl := List.mem_singleton.mp h
    exact List.mem_append_left _ (List.mem_map_of_mem (List.mem_of_find?_eq_some ha))
  case h_2 => exact List.mem_append_right _ h

theorem length_arm (arms : List (Int × BlockId)) (otherwise : Option BlockId) (v : Scalar) :
    (arm arms otherwise v).length ≤ 1 := by
  rw [arm]
  split
  · simp
  · cases otherwise <;> simp

variable {σ : Type} {g : FunctionGraph} {cfg : Config} {resolve : Resolver σ}

/-- What a visit that brings something does. -/
theorem block_eq_ok {b : GraphBlock} {state : PathState} {s s' : σ} {v : Visit}
    (h : block g cfg resolve b state s = (.ok v, s')) :
    terminator g cfg resolve b (b.statements.foldl (Progress.statement g.nodes) { state }) s =
      (.ok v, s') := by
  rw [block] at h
  split at h
  · exact nomatch h
  split at h
  case h_1 v₁ s₁ ht =>
    rw [named] at h
    split at h
    · exact nomatch h
    · exact ht.trans h
  case h_2 => exact nomatch h

/-- Control goes from `b` along edges, and not to many blocks. -/
structure Within (b : GraphBlock) (succs : List BlockId) : Prop where
  mem : ∀ x ∈ succs, x ∈ b.allSuccs
  length : succs.length ≤ b.succs.length + b.unwinds.length + 1

namespace Within

variable {b : GraphBlock} {unwind : List BlockId}

theorem nil : Within b [] := ⟨fun _ h => (nomatch h), Nat.zero_le _⟩

theorem succs : Within b b.succs :=
  ⟨fun _ h => GraphBlock.mem_allSuccs.mpr (.inl h), Nat.le_trans (Nat.le_add_right _ _) (Nat.le_succ _)⟩

theorem unwinds (hu : ∀ x ∈ unwind, x ∈ b.unwinds) (hl : unwind.length ≤ b.unwinds.length) :
    Within b unwind :=
  ⟨fun x h => GraphBlock.mem_allSuccs.mpr (.inr (hu x h)), by omega⟩

/-- At most one successor, and then the blocks to follow on a panic. -/
theorem andAlso {bs : List BlockId} (hb : ∀ x ∈ bs, x ∈ b.succs) (h₁ : bs.length ≤ 1)
    (hu : ∀ x ∈ unwind, x ∈ b.unwinds) (hl : unwind.length ≤ b.unwinds.length) :
    Within b (andAlso bs unwind) := by
  refine ⟨fun x hx => GraphBlock.mem_allSuccs.mpr ?_, ?_⟩
  · exact (mem_andAlso hx).imp (hb x) (hu x)
  · have := length_andAlso bs unwind
    omega

end Within

/-- One case for each terminator that is no call. -/
theorem plain_within {b : GraphBlock} (hb : b.succs = b.terminator.kind.successors)
    {unwind : List BlockId} (hu : ∀ x ∈ unwind, x ∈ b.unwinds)
    (hl : unwind.length ≤ b.unwinds.length) (t : NodeTable) (p : Progress) :
    Within b (plain t b unwind p).succs := by
  rw [plain]
  split
  case h_1 target hk =>
    have hs : b.succs = [target] := by rw [hb, hk]; rfl
    exact hs ▸ .succs
  case h_2 discr arms otherwise hk =>
    have hs : b.succs = (arms.map (·.2) ++ otherwise.toList).foldl TerminatorKind.addBlock [] := by
      rw [hb, hk]; rfl
    dsimp only
    split
    case h_1 v _ =>
      refine ⟨fun x hx => GraphBlock.mem_allSuccs.mpr (.inl ?_), ?_⟩
      · rw [hs, TerminatorKind.mem_foldl_addBlock]
        exact .inr (mem_arm hx)
      · have := length_arm arms otherwise v
        dsimp only
        omega
    case h_2 => exact .succs
  case h_3 => exact .nil
  case h_4 place target unw hk =>
    have hs : b.succs = [target] := by rw [hb, hk]; rfl
    exact .andAlso (fun x hx => hs ▸ hx) (Nat.le_refl 1) hu hl
  case h_5 cond expected target unw hk =>
    have hs : b.succs = [target] := by rw [hb, hk]; rfl
    dsimp only
    split
    · dsimp only
      split
      · exact hs ▸ .succs
      · exact .unwinds hu hl
    · exact .andAlso (fun x hx => hs ▸ hx) (Nat.le_refl 1) hu hl
  all_goals exact .nil

/-- **A path goes on to blocks that its block names.** -/
theorem terminator_within {b : GraphBlock} (hb : b.succs = b.terminator.kind.successors)
    {p : Progress} {s s' : σ} {v : Visit} (h : terminator g cfg resolve b p s = (.ok v, s')) :
    Within b v.succs := by
  have hu : ∀ x ∈ (if cfg.followUnwind then b.unwinds else []), x ∈ b.unwinds := fun x hx => by
    split at hx
    · exact hx
    · exact nomatch hx
  have hl : (if cfg.followUnwind then b.unwinds else []).length ≤ b.unwinds.length := by
    split
    · exact Nat.le_refl _
    · exact Nat.zero_le _
  simp only [terminator] at h
  split at h
  case h_1 callee args dest target unw hk =>
    split at h
    · exact nomatch h
    split at h
    · exact nomatch h
    cases h
    have hs : b.succs = target.toList := by rw [hb, hk]; rfl
    refine .andAlso (fun x hx => hs ▸ hx) ?_ hu hl
    cases target <;> simp
  case h_2 =>
    cases h
    exact plain_within hb hu hl _ _

end Visit

namespace Walk

open Relation (TransGen)

variable {σ : Type} {ds : Declarations} {b : Body} {g : FunctionGraph} {cfg : Config}
  {resolve : Resolver σ}

/-- A path goes on along an edge of the graph. -/
theorem edge_of_visit (hg : FunctionGraph.Built ds b g) {id : BlockId} {c : GraphBlock}
    (hc : g.block? id = some c) {state : PathState} {s s' : σ} {v : Visit}
    (h : Visit.block g cfg resolve ((g.block? id).getD default) state s = (.ok v, s')) :
    Visit.Within c v.succs ∧ ∀ x ∈ v.succs, g.edges.Edge id x := by
  obtain ⟨-, -, blk, -, preds, rfl⟩ := hg.block?_eq_some hc
  rw [hc, Option.getD_some] at h
  have hw : Visit.Within { GraphBlock.ofBlock blk with preds } v.succs :=
    Visit.terminator_within rfl (Visit.block_eq_ok h)
  refine ⟨hw, fun x hx => ?_⟩
  rw [Digraph.Edge, hg.succs_edges hc]
  exact hw.mem x hx

/-! ### How often a path enters a block -/

/-- How often a path may enter a block. -/
def limit (g : FunctionGraph) (unroll : Int) (x : BlockId) : Nat :=
  if g.loops.inCycle x then unroll.toNat else 1

/-- What holds of a path that has entered the blocks `done` and comes to an item. -/
structure Travelled (g : FunctionGraph) (unroll : Int) (done : List BlockId) (i : Item) : Prop where
  /-- The blocks exist. -/
  exist : ∀ x ∈ i.block :: done, ∃ c, g.block? x = some c
  /-- The blocks entered lead to the item. -/
  lead : ∀ x ∈ done, TransGen g.edges.Edge x i.block
  within : ∀ x, done.count x ≤ limit g unroll x
  /-- In the loop that the path is in, the entries of the whole path are counted. -/
  counted : ∀ x, g.loops.father x = g.loops.father i.block → g.loops.inCycle x →
    i.entries.count x = done.count x

theorem travelled_start (hg : FunctionGraph.Built ds b g) (unroll : Int) :
    Travelled g unroll [] (start g) where
  exist x hx := by
    obtain rfl := List.mem_singleton.mp hx
    exact hg.exists_entry
  lead x hx := nomatch hx
  within x := Nat.zero_le _
  counted x _ _ := rfl

/-- A block that is entered has not been entered as often as it may be. -/
theorem Travelled.enter (hg : FunctionGraph.Built ds b g) {done : List BlockId} {i j : Item}
    (h : Travelled g cfg.loopUnroll done i) (he : enter? g cfg i = some j) (x : BlockId) :
    (j.block :: done).count x ≤ limit g cfg.loopUnroll x := by
  obtain ⟨hb, -, hj⟩ := enter?_eq_some he
  rw [hb, List.count_cons]
  by_cases e : i.block = x
  · subst e
    rw [if_pos (beq_self_eq_true _), limit]
    split at hj
    case isTrue hc =>
      have hcount := h.counted i.block rfl hc
      rw [if_pos hc]
      omega
    case isFalse hc =>
      -- a second entry would close a cycle
      have hn : i.block ∉ done := fun hm => hc (by
        rw [hg.loops_eq]
        exact Digraph.inCycle_of_transGen (h.lead _ hm))
      have hcount := List.count_eq_zero.mpr hn
      rw [if_neg hc]
      omega
  · rw [if_neg (by simpa using e)]
    exact h.within x

/-- A path that leaves a class of blocks was in no block of the class it comes to. -/
theorem Travelled.not_mem_of_left (hg : FunctionGraph.Built ds b g) {unroll : Int}
    {done : List BlockId} {i : Item} (h : Travelled g unroll done i) {x y : BlockId}
    (hy : g.edges.Edge i.block y) (hl : g.loops.father y ≠ g.loops.father i.block)
    (hx : g.loops.father x = g.loops.father y) : x ∉ i.block :: done := by
  rw [hg.loops_eq] at hl hx
  rw [Ne, Digraph.father_eq_iff] at hl
  rw [Digraph.father_eq_iff] at hx
  intro hm
  rcases List.mem_cons.mp hm with rfl | hm
  · exact hl hx.symm
  · -- `x` leads to the item and on to `y`, and `y` back to `x`
    exact hl ⟨hx.2.trans (h.lead x hm).to_reflTransGen, .single hy⟩

/-- What holds of a path holds when it goes on. -/
theorem Travelled.step (hg : FunctionGraph.Built ds b g) {done : List BlockId} {i j k : Item}
    {v : Visit} {s s' : σ} (h : Travelled g cfg.loopUnroll done i) (he : enter? g cfg i = some j)
    (hv : Visit.block g cfg resolve ((g.block? j.block).getD default) j.state s = (.ok v, s'))
    (hk : k ∈ continuations g j v) : Travelled g cfg.loopUnroll (j.block :: done) k := by
  have hwithin := h.enter hg he
  obtain ⟨hb, -, hj⟩ := enter?_eq_some he
  obtain ⟨c, hc⟩ := h.exist i.block List.mem_cons_self
  obtain ⟨y, hy, rfl⟩ := List.mem_map.mp hk
  rw [hb] at hv hwithin ⊢
  have hedge : g.edges.Edge i.block y := (edge_of_visit hg hc hv).2 y hy
  refine ⟨fun x hx => ?_, fun x hx => ?_, hwithin, fun x hf hcyc => ?_⟩
  · rcases List.mem_cons.mp hx with rfl | hx
    · exact hg.block_of_edge hedge
    · exact h.exist x hx
  · rcases List.mem_cons.mp hx with rfl | hx
    · exact .single hedge
    · exact (h.lead x hx).tail hedge
  · dsimp only at hf ⊢
    split
    case isTrue hs =>
      -- still in the same class: only the block just entered counts once more
      rw [hs] at hf
      have hcount := h.counted x hf hcyc
      rw [List.count_cons]
      split at hj
      case isTrue =>
        rw [hj.2, Entries.count_enter]
        grind
      case isFalse hn =>
        have hne : i.block ≠ x := fun e => hn (e ▸ hcyc)
        rw [hj, hcount, if_neg (by simpa using hne), Nat.add_zero]
    case isFalse hl =>
      rw [List.count_eq_zero.mpr (h.not_mem_of_left hg hedge hl hf)]
      rfl

theorem Walked.travelled (hg : FunctionGraph.Built ds b g) {done : List BlockId} {i : Item}
    (h : Walked g cfg resolve done i) : Travelled g cfg.loopUnroll done i := by
  induction h with
  | start => exact travelled_start hg _
  | step _ he hv hk ih => exact ih.step hg he hv hk

/-! ### How many blocks a walk enters -/

/-- The number of nodes of a tree of this width and height. -/
def treeSize (width : Nat) : (height : Nat) → Nat
  | 0 => 0
  | height + 1 => 1 + width * treeSize width height

/-- No visit goes on at more blocks. -/
def width (g : FunctionGraph) : Nat :=
  g.blocks.foldr (fun c n => max (c.succs.length + c.unwinds.length + 1) n) 0

/-- No path enters more blocks. -/
def pathBound (g : FunctionGraph) (unroll : Int) : Nat :=
  g.blocks.foldr (fun c n => limit g unroll c.id + n) 0

/-- No walk enters more blocks, over all its paths. -/
def visitBound (g : FunctionGraph) (unroll : Int) : Nat :=
  treeSize (width g) (pathBound g unroll)

/-- No block goes on in more ways than the graph is wide. -/
theorem le_width {c : GraphBlock} (h : c ∈ g.blocks) :
    c.succs.length + c.unwinds.length + 1 ≤ width g := by
  revert h
  rw [width]
  generalize g.blocks = cs
  intro h
  induction cs with
  | nil => exact nomatch h
  | cons d cs ih =>
      rw [List.foldr_cons]
      rcases List.mem_cons.mp h with rfl | h
      · exact Nat.le_max_left _ _
      · exact Nat.le_trans (ih h) (Nat.le_max_right _ _)

/-- A node with the trees below it, one level further down. -/
theorem treeSize_sub (w : Nat) {m n : Nat} (h : m < n) :
    treeSize w (n - m) = 1 + w * treeSize w (n - (m + 1)) := by
  rw [show n - m = n - (m + 1) + 1 by omega, treeSize]

/-- A list over some blocks that has none of them too often is not too long. -/
theorem length_le_of_count_le {most : BlockId → Nat} (cs : List GraphBlock) (xs : List BlockId)
    (h : ∀ x ∈ xs, ∃ c ∈ cs, c.id = x) (hc : ∀ x, xs.count x ≤ most x) :
    xs.length ≤ cs.foldr (fun c n => most c.id + n) 0 := by
  induction cs generalizing xs with
  | nil =>
      cases xs with
      | nil => exact Nat.le_refl 0
      | cons x xs =>
          obtain ⟨c, hc, -⟩ := h x List.mem_cons_self
          exact nomatch hc
  | cons c cs ih =>
      -- the blocks other than `c` are among the rest
      have hrest := ih (xs.filter fun x => x ≠ c.id)
        (fun x hx => by
          obtain ⟨hx, hne⟩ := List.mem_filter.mp hx
          obtain ⟨d, hd, rfl⟩ := h x hx
          rcases List.mem_cons.mp hd with rfl | hd
          · simp at hne
          · exact ⟨d, hd, rfl⟩)
        fun x => Nat.le_trans (List.filter_sublist.count_le x) (hc x)
      have hsplit : xs.length = xs.count c.id + (xs.filter fun x => x ≠ c.id).length := by
        rw [List.count, ← List.countP_eq_length_filter, List.length_eq_countP_add_countP (· == c.id)]
        simp
      have hcount := hc c.id
      rw [List.foldr_cons]
      omega

/-- A path that enters a block was not too long before. -/
theorem Travelled.length_lt (hg : FunctionGraph.Built ds b g) {done : List BlockId} {i j : Item}
    (h : Travelled g cfg.loopUnroll done i) (he : enter? g cfg i = some j) :
    done.length < pathBound g cfg.loopUnroll := by
  refine length_le_of_count_le g.blocks (j.block :: done) (fun x hx => ?_) (h.enter hg he)
  rw [(enter?_eq_some he).1] at hx
  obtain ⟨c, hc⟩ := h.exist x hx
  obtain ⟨hm, hid, -⟩ := hg.block?_eq_some hc
  exact ⟨c, hm, hid⟩

/-- A path: the blocks entered, the last one first, and the item it comes to. -/
abbrev Track := List BlockId × Item

/-- The number of nodes of the trees below items. -/
def weight (g : FunctionGraph) (unroll : Int) (tracks : List Track) : Nat :=
  tracks.foldr (fun x n => treeSize (width g) (pathBound g unroll - x.1.length) + n) 0

/-- Each track weighs as much as the tree that is left to it. -/
theorem weight_cons (g : FunctionGraph) (unroll : Int) (x : Track) (tracks : List Track) :
    weight g unroll (x :: tracks) =
      treeSize (width g) (pathBound g unroll - x.1.length) + weight g unroll tracks := rfl

/-- The weight of items that continue one path. -/
theorem weight_continue (g : FunctionGraph) (unroll : Int) (done : List BlockId) (ks : List Item)
    (tracks : List Track) :
    weight g unroll (ks.map (done, ·) ++ tracks) =
      ks.length * treeSize (width g) (pathBound g unroll - done.length) +
        weight g unroll tracks := by
  induction ks with
  | nil => simp
  | cons k ks ih =>
      rw [List.map_cons, List.cons_append, weight_cons, ih, List.length_cons, Nat.succ_mul]
      dsimp only
      omega

/-- A budget for the trees below all items is not used up. -/
theorem explore_complete (hg : FunctionGraph.Built ds b g) (budget : Nat) (items : List Item)
    (t : Tally) (s : σ) :
    ∀ {tracks : List Track}, tracks.map (·.2) = items →
      (∀ x ∈ tracks, Travelled g cfg.loopUnroll x.1 x.2) →
      weight g cfg.loopUnroll tracks ≤ budget →
      ∀ {t' : Tally} {done : Bool} {s' : σ},
        explore g cfg resolve budget items t s = (.ok (t', done), s') →
        done = true ∧ t'.visits ≤ t.visits + weight g cfg.loopUnroll tracks := by
  induction budget, items, t, s using explore_induct g cfg resolve with
  | nil budget t s =>
      intro tracks _ _ _ t' done s' h
      rw [explore_nil] at h
      cases h
      exact ⟨rfl, Nat.le_add_right _ _⟩
  | cut budget i rest t s he ih =>
      intro tracks hm ht hw t' done s' h
      obtain ⟨x, tracks, rfl, rfl, rfl⟩ := List.map_eq_cons_iff.mp hm
      rw [explore_cut he] at h
      rw [weight_cons] at hw ⊢
      obtain ⟨hd, hv⟩ := ih rfl (fun y hy => ht y (List.mem_cons_of_mem _ hy)) (by omega) h
      have hcut : (t.cut 1).visits = t.visits := rfl
      exact ⟨hd, by omega⟩
  | stop i j rest t s he =>
      intro tracks hm ht hw
      obtain ⟨x, tracks, rfl, rfl, rfl⟩ := List.map_eq_cons_iff.mp hm
      have hlt := (ht x List.mem_cons_self).length_lt hg he
      rw [weight_cons, treeSize_sub _ hlt] at hw
      omega
  | fault budget i j rest t s e s' he hv =>
      intro tracks _ _ _ t' done s'' h
      rw [explore_fault he hv] at h
      exact nomatch h
  | visit budget i j rest t s v s' he hv ih =>
      intro tracks hm ht hw t' done s'' h
      obtain ⟨x, tracks, rfl, rfl, rfl⟩ := List.map_eq_cons_iff.mp hm
      have hx := ht x List.mem_cons_self
      have hlt := hx.length_lt hg he
      -- no more continuations than the tree is wide
      have hwide : (continuations g j v).length ≤ width g := by
        obtain ⟨c, hc⟩ := hx.exist x.2.block List.mem_cons_self
        rw [← (enter?_eq_some he).1] at hc
        rw [continuations, List.length_map]
        exact Nat.le_trans (edge_of_visit hg hc hv).1.length (le_width (hg.block?_eq_some hc).1)
      have hmul := Nat.mul_le_mul_right
        (treeSize (width g) (pathBound g cfg.loopUnroll - (x.1.length + 1))) hwide
      have hcont := weight_continue g cfg.loopUnroll (j.block :: x.1) (continuations g j v) tracks
      rw [List.length_cons] at hcont
      rw [weight_cons, treeSize_sub _ hlt] at hw ⊢
      rw [explore_visit he hv] at h
      have hm' : ((continuations g j v).map (j.block :: x.1, ·) ++ tracks).map (·.2) =
          continuations g j v ++ tracks.map (·.2) := by
        simp [Function.comp_def]
      have ht' : ∀ y ∈ (continuations g j v).map (j.block :: x.1, ·) ++ tracks,
          Travelled g cfg.loopUnroll y.1 y.2 := fun y hy => by
        rcases List.mem_append.mp hy with hy | hy
        · obtain ⟨k, hk, rfl⟩ := List.mem_map.mp hy
          exact hx.step hg he hv hk
        · exact ht y (List.mem_cons_of_mem _ hy)
      obtain ⟨hd, hvis⟩ := ih hm' ht' (by omega) h
      rw [Tally.add_visits] at hvis
      exact ⟨hd, by omega⟩

/-- A budget for the whole tree below the start is not used up. -/
theorem explore_start_complete (hg : FunctionGraph.Built ds b g) {budget : Nat}
    (hbudget : visitBound g cfg.loopUnroll ≤ budget) {t t' : Tally} {done : Bool} {s s' : σ}
    (h : explore g cfg resolve budget [start g] t s = (.ok (t', done), s')) :
    done = true ∧ t'.visits ≤ t.visits + visitBound g cfg.loopUnroll := by
  have hw : weight g cfg.loopUnroll [([], start g)] = visitBound g cfg.loopUnroll := by
    rw [weight_cons]
    rfl
  have htr : ∀ x ∈ [(([] : List BlockId), start g)], Travelled g cfg.loopUnroll x.1 x.2 :=
    fun x hx => by
      obtain rfl := List.mem_singleton.mp hx
      exact travelled_start hg _
  rw [← hw] at hbudget ⊢
  exact explore_complete hg _ _ _ _ rfl htr hbudget h

/-- So it may be any budget. -/
theorem explore_start_visitBound (hg : FunctionGraph.Built ds b g) {budget : Nat}
    (hbudget : visitBound g cfg.loopUnroll ≤ budget) (t : Tally) (s : σ) :
    explore g cfg resolve budget [start g] t s =
      explore g cfg resolve (visitBound g cfg.loopUnroll) [start g] t s := by
  obtain ⟨more, rfl⟩ := Nat.exists_eq_add_of_le hbudget
  refine explore_add more _ _ t s fun t' s' h => ?_
  exact nomatch (explore_start_complete hg (Nat.le_refl _) h).1

/-- **A walk is bounded by the unrolling of loops alone.**  On every path of a walk over the graph of
an accepted function, a block of a loop is entered at most `loopUnroll` times and any other block at
most once.  A walk whose visit budget is not below a number that depends only on the graph and on
`loopUnroll` is complete, having entered no more blocks than that; and whether it succeeds or fails,
it goes as with every other such budget, so that it ends by itself. -/
theorem walk_bounded_by_unrolling {ds : Declarations} {b : Body} {g : FunctionGraph}
    (hg : FunctionGraph.ofBody ds b = .ok g) (cfg : Config) (resolve : Resolver σ) :
    (∀ {done : List BlockId} {i j : Item}, Walked g cfg resolve done i → enter? g cfg i = some j →
      ∀ x, ((j.block :: done).count x : Int) ≤
        if g.loops.inCycle x then max 0 cfg.loopUnroll else 1) ∧
    ((visitBound g cfg.loopUnroll : Int) ≤ cfg.visitBudget → ∀ s : σ,
      (∀ {s' : σ} {o : Outcome}, run g cfg resolve s = (.ok o, s') →
        o.complete = true ∧ o.visits ≤ visitBound g cfg.loopUnroll) ∧
      ∀ budget : Int, (visitBound g cfg.loopUnroll : Int) ≤ budget →
        run g { cfg with visitBudget := budget } resolve s = run g cfg resolve s) := by
  have hb := FunctionGraph.built_of_ofBody hg
  refine ⟨fun {done i j} hw he x => ?_, fun hlimit s => ⟨fun {s' o} h => ?_, fun budget h => ?_⟩⟩
  · have hcount := (hw.travelled hb).enter hb he x
    rw [limit] at hcount
    split
    case isTrue hc =>
      rw [if_pos hc] at hcount
      omega
    case isFalse hc =>
      rw [if_neg hc] at hcount
      omega
  · rw [run] at h
    split at h
    case h_1 t done s₁ hx =>
      cases h
      obtain ⟨hd, hv⟩ := explore_start_complete hb (by omega) hx
      exact ⟨hd, Nat.le_trans hv (Nat.le_of_eq (Nat.zero_add _))⟩
    case h_2 => exact nomatch h
  · have hother : visitBound g cfg.loopUnroll ≤ budget.toNat := by omega
    have hown : visitBound g cfg.loopUnroll ≤ cfg.visitBudget.toNat := by omega
    rw [run, run, explore_visitBudget, explore_start_visitBound hb hother,
      explore_start_visitBound hb hown]

/-- A function that asks its argument, again and again, whether to stop. -/
def spin : Body where
  name := "spin"
  argCount := 1
  locals := [{ ty := Ty.unit }, { ty := Ty.int32 }]
  blocks :=
    [{ id := 0, statements := [], terminator := ⟨default, .goto 1⟩ },
     { id := 1, statements := [],
       terminator := ⟨default, .switchInt (.copy { base := 1 }) [(0, 2)] (some 1)⟩ },
     { id := 2, statements := [], terminator := ⟨default, .ret⟩ }]
  distinct := by decide

/-- Its graph. -/
def spinGraph : FunctionGraph := (FunctionGraph.ofBody .empty spin).toOption.get rfl

/-- Knows nothing of any callee. -/
def noSummaries : Resolver Unit := .pure fun _ => .unknown

/-- A loop that never ends by itself is cut after two rounds. -/
theorem spin_bounded_by_unrolling :
    FunctionGraph.ofBody .empty spin = .ok spinGraph ∧ spinGraph.loops.inCycle 1 = true ∧
      (∃ i j, Walked spinGraph {} noSummaries [1, 0] i ∧ enter? spinGraph {} i = some j ∧
        j.block = 1 ∧ ([j.block, 1, 0].count 1 : Int) ≤ 2) ∧
      (∃ o, run spinGraph {} noSummaries () = (.ok o, ()) ∧ o.complete = true ∧ o.visits ≤ 40) ∧
      run spinGraph { visitBudget := 40 } noSummaries () = run spinGraph {} noSummaries () := by
  have hg : FunctionGraph.ofBody .empty spin = .ok spinGraph := rfl
  have bounded := walk_bounded_by_unrolling hg {} noSummaries
  have ended := bounded.2 (by decide +kernel) ()
  refine ⟨hg, by decide +kernel, ?_, ?_, ended.2 40 (by decide +kernel)⟩
  · have first := (@Walked.start _ spinGraph {} noSummaries).step (s := ()) rfl rfl (.head _)
    have second := first.step (s := ()) rfl rfl (.tail _ (.head _))
    exact ⟨_, _, second, rfl, rfl, bounded.1 second rfl 1⟩
  · have walked : run spinGraph {} noSummaries () = (.ok _, ()) := rfl
    exact ⟨_, walked, ended.1 walked⟩

end Walk

end Dangling
