import Dangling.Graph.FunctionGraph
import Dangling.Proofs.Graph.Components

/-!
# Proofs — Graph — FunctionGraph

What the graph of an accepted function is like.  `Built` lists the parts that `ofBody` puts together
and the checks it makes; the rest follows from it:

* `Built.block?_eq_some`: a block of the graph is a block of the function.
* `Built.succs_edges`: the edges from a block lead where its control goes.
* `Built.block_of_edge`: every edge leads to a block.
* `Built.loops_eq`: the loops are the classes of these edges.
-/

namespace Dangling

theorem TerminatorKind.mem_foldl_addBlock {x : BlockId} (more bs : List BlockId) :
    x ∈ more.foldl addBlock bs ↔ x ∈ bs ∨ x ∈ more := by
  induction more generalizing bs with
  | nil => simp
  | cons b more ih =>
      rw [List.foldl_cons, ih, List.mem_cons, addBlock]
      split
      · grind
      · rw [List.mem_append, List.mem_singleton, or_assoc]

/-- All successors are the usual ones and those on a panic. -/
theorem GraphBlock.mem_allSuccs {b : GraphBlock} {x : BlockId} :
    x ∈ b.allSuccs ↔ x ∈ b.succs ∨ x ∈ b.unwinds :=
  TerminatorKind.mem_foldl_addBlock _ _

namespace FunctionGraph

/-- The edges of a graph. -/
def edges (g : FunctionGraph) : Digraph := digraph g.blocks

/-- `g` is the graph of an accepted function. -/
structure Built (ds : Declarations) (b : Body) (g : FunctionGraph) : Prop where
  name_eq : g.name = b.name
  argCount_eq : g.argCount = b.argCount
  nodes_eq : g.nodes = .ofLocals ds b.locals
  blocks_eq : g.blocks = withPreds (b.sortedBlocks.map GraphBlock.ofBlock)
  loops_eq' : g.loops = (digraph (b.sortedBlocks.map GraphBlock.ofBlock)).components [g.entry]
  entry_eq : b.entry? = some g.entry
  checked : ∀ c ∈ b.sortedBlocks.map GraphBlock.ofBlock,
    check b.name b.locals.length (b.sortedBlocks.map GraphBlock.ofBlock) c = .ok ()

/-- A loop that came through came through at every step. -/
theorem forM_eq_ok {α ε : Type} {f : α → Except ε Unit} {xs : List α}
    (h : xs.forM f = .ok ()) : ∀ x ∈ xs, f x = .ok () := by
  induction xs with
  | nil => exact fun x hx => nomatch hx
  | cons y ys ih =>
      cases hy : f y with
      | error e => simp [List.forM, hy, bind, Except.bind] at h
      | ok =>
          simp only [List.forM, hy, bind, Except.bind] at h
          intro x hx
          rcases List.mem_cons.mp hx with rfl | hx
          · exact hy
          · exact ih h x hx

/-- **What is known of a graph that was built from a body.** -/
theorem built_of_ofBody {ds : Declarations} {b : Body} {g : FunctionGraph}
    (h : ofBody ds b = .ok g) : Built ds b g := by
  rw [ofBody] at h
  split at h
  · exact nomatch h
  split at h
  · exact nomatch h
  split at h
  · exact nomatch h
  case h_2 entry he =>
    split at h
    · exact nomatch h
    cases hc : (b.sortedBlocks.map GraphBlock.ofBlock).forM
        (check b.name b.locals.length (b.sortedBlocks.map GraphBlock.ofBlock)) with
    | error e => simp [hc, bind, Except.bind] at h
    | ok =>
        simp only [hc, bind, Except.bind, Except.ok.injEq] at h
        subst h
        exact ⟨rfl, rfl, rfl, rfl, rfl, he, forM_eq_ok hc⟩

namespace Built

variable {ds : Declarations} {b : Body} {g : FunctionGraph}

/-! ### Blocks -/

/-- The blocks of a graph are those of the body, with their predecessors. -/
theorem mem_blocks (h : Built ds b g) {c : GraphBlock} :
    c ∈ g.blocks ↔ ∃ blk ∈ b.blocks, ∃ preds, c = { GraphBlock.ofBlock blk with preds } ∧
      preds = ((b.sortedBlocks.map GraphBlock.ofBlock).filter fun d =>
        d.allSuccs.contains blk.id).map (·.id) := by
  simp only [h.blocks_eq, withPreds, List.mem_map, Body.sortedBlocks, Sorted.mem_sortBy]
  constructor
  · rintro ⟨-, ⟨blk, hb, rfl⟩, rfl⟩
    exact ⟨blk, hb, _, rfl, rfl⟩
  · rintro ⟨blk, hb, -, rfl, rfl⟩
    exact ⟨_, ⟨blk, hb, rfl⟩, rfl⟩

theorem map_id_blocks (h : Built ds b g) : g.blocks.map (·.id) = b.sortedBlocks.map (·.id) := by
  simp [h.blocks_eq, withPreds, GraphBlock.ofBlock, Function.comp_def]

theorem nodup_ids (h : Built ds b g) : (g.blocks.map (·.id)).Nodup := by
  rw [h.map_id_blocks]
  exact ((Sorted.sortBy_perm _ _).map _).nodup_iff.mpr b.distinct

/-- A block of the graph is a block of the function, but for its predecessors. -/
theorem block?_eq_some (h : Built ds b g) {id : BlockId} {c : GraphBlock}
    (hc : g.block? id = some c) :
    c ∈ g.blocks ∧ c.id = id ∧
      ∃ blk ∈ b.blocks, ∃ preds, c = { GraphBlock.ofBlock blk with preds } := by
  have hm := List.mem_of_find?_eq_some hc
  have hid : c.id = id := by simpa using List.find?_some hc
  obtain ⟨blk, hb, preds, he, -⟩ := h.mem_blocks.mp hm
  exact ⟨hm, hid, blk, hb, preds, he⟩

/-- Every block of the body is one of the graph. -/
theorem exists_block (h : Built ds b g) {id : BlockId} (hid : id ∈ b.blocks.map (·.id)) :
    ∃ c, g.block? id = some c := by
  rw [← Option.isSome_iff_exists, FunctionGraph.block?, List.find?_isSome]
  obtain ⟨blk, hb, rfl⟩ := List.mem_map.mp hid
  exact ⟨_, h.mem_blocks.mpr ⟨blk, hb, _, rfl, rfl⟩, by simp [GraphBlock.ofBlock]⟩

/-- The entry is one. -/
theorem exists_entry (h : Built ds b g) : ∃ c, g.block? g.entry = some c := by
  refine h.exists_block ?_
  have he := h.entry_eq
  rw [Body.entry?, Option.map_eq_some_iff] at he
  obtain ⟨blk, hb, hid⟩ := he
  rw [← hid]
  exact List.mem_map_of_mem (Sorted.mem_sortBy.mp (List.mem_of_head? hb))

/-! ### Edges -/

theorem edges_eq (h : Built ds b g) :
    g.edges = digraph (b.sortedBlocks.map GraphBlock.ofBlock) := by
  rw [edges, digraph, digraph, h.blocks_eq, withPreds, List.map_map]
  rfl

/-- The loops are the classes of the edges. -/
theorem loops_eq (h : Built ds b g) : g.loops = g.edges.components [g.entry] := by
  rw [h.edges_eq, h.loops_eq']

/-- The edges from a block lead where its control goes. -/
theorem succs_edges (h : Built ds b g) {id : BlockId} {c : GraphBlock}
    (hc : g.block? id = some c) : g.edges.succs id = c.allSuccs := by
  obtain ⟨hm, rfl, -⟩ := h.block?_eq_some hc
  refine Digraph.succs_ofEdges ?_ (List.mem_map.mpr ⟨c, hm, rfl⟩)
  rw [List.map_map]
  exact h.nodup_ids

/-- Every edge leads to a block. -/
theorem block_of_edge (h : Built ds b g) {v w : BlockId} (he : g.edges.Edge v w) :
    ∃ c, g.block? w = some c := by
  by_cases hv : v ∈ b.blocks.map (·.id)
  · obtain ⟨c, hc⟩ := h.exists_block hv
    obtain ⟨-, -, blk, hb, preds, rfl⟩ := h.block?_eq_some hc
    rw [Digraph.Edge, h.succs_edges hc] at he
    have hm : GraphBlock.ofBlock blk ∈ b.sortedBlocks.map GraphBlock.ofBlock :=
      List.mem_map_of_mem (Sorted.mem_sortBy.mpr hb)
    have hk := h.checked _ hm
    rw [check] at hk
    split at hk
    · cases hk
    case h_2 hn =>
      have hw := List.find?_eq_none.mp hn w he
      simp only [Bool.not_eq_true', Bool.not_eq_false, List.any_eq_true, beq_iff_eq] at hw
      obtain ⟨d, hd, rfl⟩ := hw
      obtain ⟨blk', hb', rfl⟩ := List.mem_map.mp hd
      exact h.exists_block (List.mem_map_of_mem (Sorted.mem_sortBy.mp hb'))
  · rw [Digraph.Edge, h.edges_eq, digraph, Digraph.succs_ofEdges_of_not_mem] at he
    · exact absurd he List.not_mem_nil
    · simpa [GraphBlock.ofBlock, Body.sortedBlocks] using hv

end Built

end FunctionGraph

end Dangling
