import Dangling.Analysis.CallCycles
import Dangling.Proofs.Graph.Components

/-!
# Proofs — Analysis — CallCycles

Calls between functions, and the heads of call cycles.  The call graph numbers functions in the order
of their names; numbers and names correspond (`index`, `nameAt`), and so do reachability in the graph
and chains of calls.

* `linked_head`: a function and the head of its call cycle call each other, directly or not.
* `head_eq_of_linked`: functions that call each other have the same head.
-/

namespace Dangling.Program

open Relation (ReflTransGen)

variable {p : Program} {f g : String} {b : Body}

/-! ### Functions by name -/

theorem name_of_body? (h : p.body? f = some b) : b.name = f := by
  simpa using List.find?_some h

/-- A callee of the program is resolved to a body of the program. -/
theorem body?_of_resolve {callee : String} (h : p.resolve callee = some b) :
    p.body? b.name = some b := by
  rw [resolve] at h
  split at h
  case h_1 b' hb =>
    obtain rfl := Option.some.inj h
    rwa [name_of_body? hb]
  case h_2 => rwa [name_of_body? h]

/-- A function of the program is one with a body. -/
theorem hasBody_iff : p.hasBody f = true ↔ ∃ b, p.body? f = some b := Option.isSome_iff_exists

/-- The names are those of the bodies, in another order. -/
theorem functionNames_perm (p : Program) : p.functionNames.Perm (p.bodies.map (·.name)) :=
  Sorted.sortBy_perm _ _

/-- Every function of the program is listed. -/
theorem mem_functionNames : f ∈ p.functionNames ↔ p.hasBody f = true := by
  rw [p.functionNames_perm.mem_iff, hasBody, body?, List.find?_isSome]
  simp

/-- Bodies of one name are one body. -/
theorem nodup_functionNames (p : Program) : p.functionNames.Nodup :=
  p.functionNames_perm.nodup_iff.mpr p.distinct

/-! ### Calls -/

/-- `f` has a call of `g`, a function of the program. -/
def Calls (p : Program) (f g : String) : Prop := ∃ b, p.body? f = some b ∧ g ∈ p.callsOf b

/-- Calls lead from `f` to `g`. -/
abbrev Reaches (p : Program) : String → String → Prop := ReflTransGen p.Calls

/-- Calls lead from each of two functions to the other. -/
def Linked (p : Program) (f g : String) : Prop := p.Reaches f g ∧ p.Reaches g f

theorem Linked.symm (h : p.Linked f g) : p.Linked g f := ⟨h.2, h.1⟩

/-- A way there and back, over a third function. -/
theorem Linked.trans {k : String} (h : p.Linked f g) (h' : p.Linked g k) : p.Linked f k :=
  ⟨h.1.trans h'.1, h'.2.trans h.2⟩

/-- The calls of a body are its callees, as far as they are functions of the program. -/
theorem mem_callsOf : g ∈ p.callsOf b ↔ ∃ c ∈ b.callees, ∃ b', p.resolve c = some b' ∧ b'.name = g := by
  simp [callsOf]

theorem Calls.hasBody_left (h : p.Calls f g) : p.hasBody f = true :=
  hasBody_iff.mpr ⟨_, h.choose_spec.1⟩

/-- Only functions of the program are called. -/
theorem Calls.hasBody_right (h : p.Calls f g) : p.hasBody g = true := by
  obtain ⟨b, -, hg⟩ := h
  obtain ⟨c, -, b', hr, rfl⟩ := mem_callsOf.mp hg
  exact hasBody_iff.mpr ⟨b', body?_of_resolve hr⟩

/-- Calls never lead out of the program. -/
theorem Reaches.hasBody (h : p.Reaches f g) (hf : p.hasBody f = true) : p.hasBody g = true := by
  induction h with
  | refl => exact hf
  | tail _ hc _ => exact hc.hasBody_right

/-! ### The call graph -/

/-- The number of a function in the call graph. -/
def index (p : Program) (f : String) : Int := Int.ofNat (p.functionNames.idxOf f)

/-- The function of a number. -/
def nameAt (p : Program) (v : Int) : String := p.functionNames.getD v.toNat ""

/-- A function is found under its number. -/
theorem nameAt_index (h : p.hasBody f = true) : p.nameAt (p.index f) = f := by
  have hlt := List.idxOf_lt_length_iff.mpr (mem_functionNames.mpr h)
  rw [nameAt, index, Int.ofNat_eq_natCast, Int.toNat_natCast, List.getD_eq_getElem?_getD,
    List.getElem?_eq_getElem hlt, List.getElem_idxOf hlt]
  rfl

/-- Different functions have different numbers. -/
theorem index_inj (hf : p.hasBody f = true) (hg : p.hasBody g = true) (h : p.index f = p.index g) :
    f = g := by
  rw [← nameAt_index hf, h, nameAt_index hg]

/-- The successors of a function in the call graph are its calls. -/
theorem succs_index (h : p.body? f = some b) :
    p.callGraph.succs (p.index f) = (p.callsOf b).map p.index := by
  refine Digraph.succs_ofEdges ?_ (List.mem_map.mpr ⟨(f, p.functionNames.idxOf f), ?_, ?_⟩)
  · have hnumbers : (p.functionNames.zipIdx.map (·.2)).Nodup := by
      rw [List.zipIdx_map_snd]
      exact List.nodup_range'
    rw [List.map_map]
    exact List.pairwise_map.mpr
      ((List.pairwise_map.mp hnumbers).imp fun hne e => hne (Int.ofNat.inj e))
  · have hlt := List.idxOf_lt_length_iff.mpr (mem_functionNames.mpr (hasBody_iff.mpr ⟨b, h⟩))
    rw [List.mem_zipIdx_iff_getElem?, List.getElem?_eq_getElem hlt, List.getElem_idxOf hlt]
  · simp only [h, Option.map_some, Option.getD_some]
    rfl

/-- The nodes of the call graph are functions. -/
theorem exists_of_mem_keys {v : Int} (h : v ∈ p.callGraph.keys) :
    ∃ f, p.hasBody f = true ∧ p.index f = v := by
  obtain ⟨e, he, rfl⟩ := List.mem_map.mp (Digraph.mem_of_mem_keys_ofEdges h)
  obtain ⟨⟨f, i⟩, hi, rfl⟩ := List.mem_map.mp he
  obtain ⟨hlt, hf⟩ := List.getElem?_eq_some_iff.mp (List.mem_zipIdx_iff_getElem?.mp hi)
  dsimp only at hlt hf ⊢
  have hidx := p.nodup_functionNames.idxOf_getElem i hlt
  rw [hf] at hidx
  refine ⟨f, mem_functionNames.mp ?_, ?_⟩
  · rw [← hf]
    exact List.getElem_mem hlt
  · rw [index, hidx]

/-- Edges of the call graph are calls. -/
theorem exists_calls_of_edge {v w : Int} (h : p.callGraph.Edge v w) :
    ∃ f g, p.Calls f g ∧ p.index f = v ∧ p.index g = w := by
  obtain ⟨f, hf, rfl⟩ := exists_of_mem_keys h.mem_keys
  obtain ⟨b, hb⟩ := hasBody_iff.mp hf
  rw [Digraph.Edge, succs_index hb] at h
  obtain ⟨g, hg, rfl⟩ := List.mem_map.mp h
  exact ⟨f, g, ⟨b, hb, hg⟩, rfl, rfl⟩

theorem Calls.edge (h : p.Calls f g) : p.callGraph.Edge (p.index f) (p.index g) := by
  obtain ⟨b, hb, hg⟩ := h
  rw [Digraph.Edge, succs_index hb]
  exact List.mem_map_of_mem hg

/-- By induction on the calls: the graph has the ways of the program. -/
theorem Reaches.index (h : p.Reaches f g) : p.callGraph.Reaches (p.index f) (p.index g) :=
  h.lift p.index fun _ _ hc => hc.edge

/-- What is reached in the call graph is reached by calls. -/
theorem exists_reaches {v w : Int} (h : p.callGraph.Reaches v w) (hf : p.hasBody f = true)
    (hv : p.index f = v) : ∃ g, p.hasBody g = true ∧ p.index g = w ∧ p.Reaches f g := by
  induction h with
  | refl => exact ⟨f, hf, hv, .refl⟩
  | tail _ he ih =>
      obtain ⟨g, hg, rfl, hr⟩ := ih
      obtain ⟨g', k, hc, hi, rfl⟩ := exists_calls_of_edge he
      obtain rfl := index_inj hc.hasBody_left hg hi
      exact ⟨k, hc.hasBody_right, rfl, hr.tail hc⟩

/-- **Cycles of calls are cycles of the graph.** -/
theorem linked_index (hf : p.hasBody f = true) (hg : p.hasBody g = true) :
    p.callGraph.Linked (p.index f) (p.index g) ↔ p.Linked f g := by
  have h : ∀ {f g}, p.hasBody f = true → p.hasBody g = true →
      p.callGraph.Reaches (p.index f) (p.index g) → p.Reaches f g := fun hf hg hr => by
    obtain ⟨k, hk, hi, hr⟩ := exists_reaches hr hf rfl
    rwa [← index_inj hk hg hi]
  exact ⟨fun hl => ⟨h hf hg hl.1, h hg hf hl.2⟩, fun hl => ⟨hl.1.index, hl.2.index⟩⟩

/-- Everything that the search of the call graph meets is a function. -/
theorem exists_of_met {v : Int} (h : v ∈ p.callGraph.met []) :
    ∃ f, p.hasBody f = true ∧ p.index f = v := by
  obtain ⟨k, hk, hr⟩ := Digraph.mem_discovered.mp h
  rw [Digraph.searchOrder, List.nil_append] at hk
  obtain ⟨f, hf, hi⟩ := exists_of_mem_keys (List.mem_filter.mp hk).1
  obtain ⟨g, hg, hi, -⟩ := exists_reaches hr hf hi
  exact ⟨g, hg, hi⟩

/-! ### Heads -/

/-- Where the analysis enters the call cycle of a function; a function on none is its own head. -/
@[irreducible] def head (p : Program) (f : String) : String := (p.cycleHeads.lookup f).getD f

/-- Each member of a cyclic class is listed with the first of the class. -/
theorem mem_cycleHeads {h : String} : (f, h) ∈ p.cycleHeads ↔
    ∃ v members, (v, members) ∈ (p.callGraph.components []).classes ∧
      (p.callGraph.components []).isCyclic v = true ∧
      ∃ m ∈ members, p.nameAt m = f ∧ p.nameAt (members.headD m) = h := by
  rw [cycleHeads, List.mem_flatMap]
  simp only [Prod.exists, List.mem_filter, List.mem_map, Prod.mk.injEq, and_assoc]
  rfl

/-- The functions listed with a head are those with the father of the head's number. -/
theorem exists_class {h : String} (hm : (f, h) ∈ p.cycleHeads) :
    ∃ v members, (v, members) ∈ (p.callGraph.components []).classes ∧ p.hasBody f = true ∧
      p.index f ∈ members ∧ h = p.nameAt (members.headD (p.index f)) := by
  obtain ⟨v, members, hc, -, m, hmem, rfl, rfl⟩ := mem_cycleHeads.mp hm
  obtain ⟨f', hf, rfl⟩ := exists_of_met ((Digraph.mem_members hc).mp hmem).1
  rw [nameAt_index hf]
  exact ⟨v, members, hc, hf, hmem, rfl⟩

theorem mem_of_lookup {h : String} (hl : p.cycleHeads.lookup f = some h) : (f, h) ∈ p.cycleHeads := by
  obtain ⟨l₁, l₂, he, -⟩ := List.lookup_eq_some_iff.mp hl
  simp [he]

/-- **A function is linked with its head.** -/
theorem linked_head (p : Program) (f : String) : p.Linked f (p.head f) := by
  rw [head]
  cases hl : p.cycleHeads.lookup f with
  | none => exact ⟨.refl, .refl⟩
  | some h =>
      obtain ⟨v, members, hc, hb, hf, rfl⟩ := exists_class (mem_of_lookup hl)
      cases members with
      | nil => exact absurd hf List.not_mem_nil
      | cons m members =>
          -- the first member is a function of the same father
          obtain ⟨hmet, hfather⟩ := (Digraph.mem_members hc).mp (List.mem_cons_self (a := m))
          obtain ⟨k, hk, rfl⟩ := exists_of_met hmet
          rw [Option.getD_some, List.headD_cons, nameAt_index hk]
          have hsame := ((Digraph.mem_members hc).mp hf).2.trans hfather.symm
          exact (linked_index hb hk).mp (Digraph.father_eq_iff.mp hsame)

/-- The head of a function on a cycle is the first of its class. -/
theorem head_of_inCycle {members : List Int}
    (hc : ((p.callGraph.components []).father (p.index f), members) ∈
      (p.callGraph.components []).classes)
    (hcyc : (p.callGraph.components []).inCycle (p.index f) = true) (hf : p.hasBody f = true)
    (hm : p.index f ∈ members) : p.head f = p.nameAt (members.headD 0) := by
  have hmem : (f, p.nameAt (members.headD (p.index f))) ∈ p.cycleHeads :=
    mem_cycleHeads.mpr ⟨_, members, hc, hcyc, _, hm, nameAt_index hf, rfl⟩
  rw [head]
  cases hl : p.cycleHeads.lookup f with
  | none => simpa using List.lookup_eq_none_iff.mp hl _ hmem
  | some h =>
      -- whichever entry is found, it is of the same class
      obtain ⟨v, members', hc', -, hf', rfl⟩ := exists_class (mem_of_lookup hl)
      obtain rfl := ((Digraph.mem_members hc').mp hf').2
      rw [(Digraph.mem_classes.mp hc').2.2, ← (Digraph.mem_classes.mp hc).2.2]
      cases members with
      | nil => exact absurd hm List.not_mem_nil
      | cons m members => rfl

/-- **Functions that are linked have the same head.** -/
theorem head_eq_of_linked (h : p.Linked f g) : p.head f = p.head g := by
  by_cases hne : f = g
  · rw [hne]
  have hf : p.hasBody f = true := by
    rcases h.1.cases_head with e | ⟨k, hc, -⟩
    · exact absurd e hne
    · exact hc.hasBody_left
  have hg : p.hasBody g = true := Reaches.hasBody h.1 hf
  have hnei : p.index f ≠ p.index g := fun e => hne (index_inj hf hg e)
  have hl : p.callGraph.Linked (p.index f) (p.index g) := (linked_index hf hg).mpr h
  have hsame : (p.callGraph.components []).father (p.index f) =
      (p.callGraph.components []).father (p.index g) := Digraph.father_eq_iff.mpr hl
  have hmetf : p.index f ∈ p.callGraph.met [] := Digraph.mem_met_of_mem_keys (hl.mem_keys hnei)
  have hmetg : p.index g ∈ p.callGraph.met [] :=
    Digraph.mem_met_of_mem_keys (hl.symm.mem_keys hnei.symm)
  have hc := Digraph.mem_classes.mpr ⟨Digraph.mem_met_father hmetf, Digraph.father_father _, rfl⟩
  have hcycf : (p.callGraph.components []).inCycle (p.index f) = true := hl.inCycle hnei
  have hcycg : (p.callGraph.components []).inCycle (p.index g) = true := hl.symm.inCycle hnei.symm
  rw [head_of_inCycle hc hcycf hf ((Digraph.mem_members hc).mpr ⟨hmetf, rfl⟩),
    head_of_inCycle (hsame ▸ hc) hcycg hg ((Digraph.mem_members hc).mpr ⟨hmetg, hsame.symm⟩)]

end Dangling.Program
