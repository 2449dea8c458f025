import Dangling.Proofs.Analysis.CallCycles
import Dangling.Proofs.Graph.Condensation
import Dangling.Proofs.Mir.Entries
import Mathlib.Data.List.Nodup
import Mathlib.Data.List.Perm.Basic

/-!
# Proofs — Analysis — CycleHeads

The heads of call cycles are canonical.  Functions are numbered in the order of their names, so the
least number of a class of the call graph is the number of its first name (`isLE_of_index_le`); and the
names, the calls between them and hence the numbers are the same however the functions are listed.

* `cycleHeads_eq_of_perm`: the order of the functions does not matter to a program.
* `Importer.document_perm`: nor does the order of the entries to a document.
* `cycle_heads_canonical`: which functions have heads, and which heads they have.
-/

namespace Dangling.Program

open Relation (TransGen)

variable {p q : Program} {f g h : String} {b : Body}

/-! ### Numbers and names -/

theorem index_mem_keys (hf : p.hasBody f = true) : p.index f ∈ p.callGraph.keys := by
  have hlt := List.idxOf_lt_length_iff.mpr (mem_functionNames.mpr hf)
  refine Digraph.mem_keys_ofEdges (List.mem_map.mpr
    ⟨_, List.mem_map.mpr ⟨(f, p.functionNames.idxOf f), ?_, rfl⟩, rfl⟩)
  rw [List.mem_zipIdx_iff_getElem?, List.getElem?_eq_getElem hlt, List.getElem_idxOf hlt]

theorem hasBody_of_transGen (h : TransGen p.Calls f g) : p.hasBody f = true := by
  obtain ⟨k, hc, -⟩ := TransGen.head'_iff.mp h
  exact hc.hasBody_left

/-- A way through the call graph is a way by calls. -/
theorem transGen_index (hf : p.hasBody f = true) (hg : p.hasBody g = true) :
    TransGen p.callGraph.Edge (p.index f) (p.index g) ↔ TransGen p.Calls f g := by
  refine ⟨fun h => ?_, fun h => h.lift p.index fun _ _ hc => hc.edge⟩
  obtain ⟨v, hr, he⟩ := TransGen.tail'_iff.mp h
  obtain ⟨k, hk, rfl, hcalls⟩ := exists_reaches hr hf rfl
  obtain ⟨k', g', hc, hi, hi'⟩ := exists_calls_of_edge he
  obtain rfl := index_inj hc.hasBody_left hk hi
  obtain rfl := index_inj hc.hasBody_right hg hi'
  exact .tail' hcalls hc

theorem pairwise_functionNames (p : Program) :
    p.functionNames.Pairwise fun f g => (Sorted.text f g).isLE = true :=
  Sorted.pairwise_sortTexts _

/-- Functions are numbered in the order of their names. -/
theorem isLE_of_index_le (hf : p.hasBody f = true) (hg : p.hasBody g = true)
    (hle : p.index f ≤ p.index g) : (Sorted.text f g).isLE = true := by
  by_cases e : f = g
  · have hself : Sorted.text g g = .eq := Std.ReflCmp.compare_self
    rw [e, hself]
    rfl
  have hlt : p.functionNames.idxOf f < p.functionNames.idxOf g := by
    have hne : p.functionNames.idxOf f ≠ p.functionNames.idxOf g := fun h =>
      e (index_inj hf hg (congrArg Int.ofNat h))
    have hle' : p.functionNames.idxOf f ≤ p.functionNames.idxOf g := Int.ofNat_le.mp hle
    omega
  have hfl := List.idxOf_lt_length_iff.mpr (mem_functionNames.mpr hf)
  have hgl := List.idxOf_lt_length_iff.mpr (mem_functionNames.mpr hg)
  have hpair := List.pairwise_iff_getElem.mp p.pairwise_functionNames _ _ hfl hgl hlt
  rwa [List.getElem_idxOf hfl, List.getElem_idxOf hgl] at hpair

/-! ### Heads -/

/-- `h` is the first name of the functions that `f` calls and that call `f`, directly or not. -/
structure Heads (p : Program) (h f : String) : Prop where
  linked : p.Linked f h
  least : ∀ g, p.Linked f g → (Sorted.text h g).isLE = true

/-- A function has one head at most. -/
theorem Heads.unique {h' : String} (hh : p.Heads h f) (hh' : p.Heads h' f) : h = h' :=
  Std.LawfulEqCmp.eq_of_compare
    (Std.OrientedCmp.isLE_antisymm (hh.least h' hh'.linked) (hh'.least h hh.linked))

/-- Every function is in a class of the call graph. -/
theorem exists_class_of_hasBody (hf : p.hasBody f = true) :
    ∃ v m members, (v, m :: members) ∈ (p.callGraph.components []).classes ∧
      p.index f ∈ m :: members := by
  have hmet : p.index f ∈ p.callGraph.met [] := Digraph.mem_met_of_mem_keys (index_mem_keys hf)
  obtain ⟨members, hc⟩ : ∃ members, ((p.callGraph.components []).father (p.index f), members) ∈
      (p.callGraph.components []).classes :=
    ⟨_, Digraph.mem_classes.mpr ⟨Digraph.mem_met_father hmet, Digraph.father_father _, rfl⟩⟩
  have hm := (Digraph.mem_members hc).mpr ⟨hmet, rfl⟩
  cases members with
  | nil => exact absurd hm List.not_mem_nil
  | cons m members => exact ⟨_, m, members, hc, hm⟩

/-- The first member of a class of the call graph is the first by name. -/
theorem heads_of_class {v m : Int} {members : List Int}
    (hc : (v, m :: members) ∈ (p.callGraph.components []).classes) (hf : p.hasBody f = true)
    (hm : p.index f ∈ m :: members) : p.Heads (p.nameAt m) f := by
  have hfather := ((Digraph.mem_members hc).mp hm).2
  obtain ⟨hmet, hfirst⟩ := (Digraph.mem_members hc).mp List.mem_cons_self
  obtain ⟨k, hk, rfl⟩ := exists_of_met hmet
  rw [nameAt_index hk]
  refine ⟨(linked_index hf hk).mp (Digraph.father_eq_iff.mp (hfather.trans hfirst.symm)),
    fun g hg => ?_⟩
  -- who is linked with `f` is in the class, and no member comes before the first
  have hgb : p.hasBody g = true := hg.1.hasBody hf
  have hmem : p.index g ∈ p.index k :: members := (Digraph.mem_members hc).mpr
    ⟨Digraph.mem_met_of_mem_keys (index_mem_keys hgb),
      (Digraph.father_eq_iff.mpr ((linked_index hf hgb).mpr hg).symm).trans hfather⟩
  refine isLE_of_index_le hk hgb ?_
  rcases List.mem_cons.mp hmem with e | hmem
  · exact Int.le_of_eq e.symm
  · exact Int.le_of_lt ((List.pairwise_cons.mp (Digraph.pairwise_members hc)).1 _ hmem)

/-- A class of the call graph is cyclic if its functions call themselves, directly or not. -/
theorem isCyclic_iff {v : Int} {members : List Int}
    (hc : (v, members) ∈ (p.callGraph.components []).classes) (hf : p.hasBody f = true)
    (hm : p.index f ∈ members) :
    (p.callGraph.components []).isCyclic v = true ↔ TransGen p.Calls f f := by
  have hfv := (Digraph.mem_members_iff hc).mp hm
  rw [Components.isCyclic, List.contains_iff_mem, Digraph.mem_cyclic, ← transGen_index hf hf]
  constructor
  · rintro ⟨-, u, hu, hcycle⟩
    by_cases e : p.index f = u
    · rwa [e]
    · have hsame := (Digraph.fathers_eq_some_iff.mp hfv).2.trans
        (Digraph.fathers_eq_some_iff.mp hu).2.symm
      exact (Digraph.father_eq_iff.mp hsame).transGen e
  · exact fun hcycle => ⟨Digraph.mem_closed.mp (List.mem_map_of_mem hc), _, hfv, hcycle⟩

/-- **The functions on call cycles are listed, with their heads.** -/
theorem mem_cycleHeads_iff :
    (f, h) ∈ p.cycleHeads ↔ TransGen p.Calls f f ∧ p.Heads h f := by
  rw [mem_cycleHeads]
  constructor
  · rintro ⟨v, members, hc, hcyclic, m, hm, rfl, rfl⟩
    obtain ⟨f, hf, rfl⟩ := exists_of_met ((Digraph.mem_members hc).mp hm).1
    rw [nameAt_index hf]
    refine ⟨(isCyclic_iff hc hf hm).mp hcyclic, ?_⟩
    cases members with
    | nil => exact absurd hm List.not_mem_nil
    | cons m members => exact heads_of_class hc hf hm
  · rintro ⟨hcycle, hh⟩
    have hf := hasBody_of_transGen hcycle
    obtain ⟨v, m, members, hc, hm⟩ := exists_class_of_hasBody hf
    exact ⟨v, _, hc, (isCyclic_iff hc hf hm).mpr hcycle, _, hm, nameAt_index hf,
      (heads_of_class hc hf hm).unique hh⟩

/-- No function is listed twice: it is in one class, and there once. -/
theorem nodup_cycleHeads (p : Program) : (p.cycleHeads.map (·.1)).Nodup := by
  have hname : ∀ {v : Int} {members : List Int} {m : Int},
      (v, members) ∈ (p.callGraph.components []).classes → m ∈ members → p.index (p.nameAt m) = m :=
    fun hc hm => by
      obtain ⟨f, hf, rfl⟩ := exists_of_met ((Digraph.mem_members hc).mp hm).1
      rw [nameAt_index hf]
  have heads : p.cycleHeads.map (·.1) =
      ((p.callGraph.components []).classes.filter fun c =>
        (p.callGraph.components []).isCyclic c.1).flatMap fun c => c.2.map p.nameAt := by
    rw [cycleHeads, List.map_flatMap]
    simp only [List.map_map]
    rfl
  rw [heads, List.nodup_flatMap]
  constructor
  · rintro ⟨v, members⟩ hc
    have hc := List.mem_of_mem_filter hc
    refine List.Nodup.map_on (fun m hm m' hm' e => ?_) ((Digraph.pairwise_members hc).imp Int.ne_of_lt)
    rw [← hname hc hm, e, hname hc hm']
  · have hfathers : (p.callGraph.components []).classes.Pairwise fun c c' => c.1 ≠ c'.1 :=
      List.pairwise_map.mp Digraph.nodup_closed
    refine (hfathers.filter _).imp_of_mem ?_
    rintro ⟨v, members⟩ ⟨v', members'⟩ hc hc' hne f hf hf'
    obtain ⟨m, hm, rfl⟩ := List.mem_map.mp hf
    obtain ⟨m', hm', e⟩ := List.mem_map.mp hf'
    have hc := List.mem_of_mem_filter hc
    have hc' := List.mem_of_mem_filter hc'
    have hsame : m' = m := by
      rw [← hname hc hm, ← e, hname hc' hm']
    subst hsame
    exact hne (((Digraph.mem_members hc).mp hm).2.symm.trans ((Digraph.mem_members hc').mp hm').2)

/-- What is looked up in the list of heads. -/
theorem lookup_cycleHeads :
    p.cycleHeads.lookup f = some h ↔ TransGen p.Calls f f ∧ p.Heads h f := by
  refine ⟨fun hl => mem_cycleHeads_iff.mp (mem_of_lookup hl), fun hh => ?_⟩
  cases hl : p.cycleHeads.lookup f with
  | none => simpa using List.lookup_eq_none_iff.mp hl _ (mem_cycleHeads_iff.mpr hh)
  | some h' => rw [(mem_cycleHeads_iff.mp (mem_of_lookup hl)).2.unique hh.2]

/-- Every function has a head. -/
theorem exists_heads (hf : p.hasBody f = true) : ∃ h, p.Heads h f := by
  obtain ⟨v, m, members, hc, hm⟩ := exists_class_of_hasBody hf
  exact ⟨_, heads_of_class hc hf hm⟩

/-! ### The order of the functions -/

theorem body?_eq_some : p.body? f = some b ↔ b ∈ p.bodies ∧ b.name = f := by
  refine ⟨fun h => ⟨List.mem_of_find?_eq_some h, name_of_body? h⟩, ?_⟩
  rintro ⟨hb, rfl⟩
  obtain ⟨b', hb'⟩ : ∃ b', p.body? b.name = some b' := by
    rw [← hasBody_iff, ← mem_functionNames, p.functionNames_perm.mem_iff]
    exact List.mem_map_of_mem hb
  have hmem := List.mem_of_find?_eq_some hb'
  rw [hb', List.inj_on_of_nodup_map p.distinct hmem hb (name_of_body? hb')]

variable (hperm : q.bodies.Perm p.bodies)

include hperm

theorem functionNames_eq_of_perm : q.functionNames = p.functionNames :=
  Sorted.sortTexts_eq_of_perm (hperm.map _)

theorem body?_eq_of_perm : q.body? = p.body? := by
  funext f
  refine Option.ext fun b => ?_
  rw [body?_eq_some, body?_eq_some, hperm.mem_iff]

theorem callsOf_eq_of_perm : q.callsOf = p.callsOf := by
  have hresolve : q.resolve = p.resolve := by
    funext callee
    rw [resolve, resolve, body?_eq_of_perm hperm]
  funext b
  rw [callsOf, callsOf, hresolve]

/-- **However the functions are listed, the heads are the same.** -/
theorem cycleHeads_eq_of_perm : q.cycleHeads = p.cycleHeads := by
  have hgraph : q.callGraph = p.callGraph := by
    rw [callGraph, callGraph, functionNames_eq_of_perm hperm, body?_eq_of_perm hperm,
      callsOf_eq_of_perm hperm]
  rw [cycleHeads, cycleHeads, hgraph, functionNames_eq_of_perm hperm]

end Dangling.Program

namespace Dangling.Importer

open Document

/-- **However the entries of a document are listed, it has the same functions**, in that order. -/
theorem document_perm {i : Importer} {file : String} {o o' : List (String × Json.Value)}
    {entries entries' : List Json.Value} {p : Program}
    (hread : (i.document file (.obj o)).1 = .ok p) (hentries : functionList file o = .ok entries)
    (i' : Importer) (hadts : member o' "adts" = member o "adts")
    (hentries' : functionList file o' = .ok entries') (hperm : entries'.Perm entries) :
    ∃ q, (i'.document file (.obj o')).1 = .ok q ∧ q.bodies.Perm p.bodies := by
  obtain ⟨op⟩ := exists_opening hread
  obtain rfl := Except.ok.inj (op.entries_eq.symm.trans hentries)
  obtain ⟨op', htable, -, hentered, rfl⟩ := opening_congr op hadts hentries'
  obtain ⟨-, -, -, -, -, hbodies⟩ := (document_eq_ok op).mp hread
  obtain ⟨bodies, hbodies', hperm'⟩ := List.perm_comp_forall₂ hperm hbodies
  rw [← htable, ← hentered] at hbodies'
  let q : Program :=
    { crate := (member o' "crate" (.str "crate")).text, sourceFiles := [file], adts := op'.adts,
      decls := op'.entered.decls, library := i'.library, bodies,
      distinct := (hperm'.map _).nodup_iff.mpr p.distinct }
  exact ⟨q, (document_eq_ok op').mpr ⟨rfl, rfl, rfl, rfl, rfl, hbodies'⟩, hperm'⟩

end Dangling.Importer

namespace Dangling.Program

open Relation (TransGen)

/-- **The heads of call cycles are canonical.**  The functions that call themselves, directly or through
others, are listed, each once, and no other functions; each with the first name, by code points, of the
functions that it calls and that call it, directly or not.  The list is the same in whatever order the
program has its functions, and in whatever order a document lists their entries. -/
theorem cycle_heads_canonical (p : Program) :
    (p.cycleHeads.map (·.1)).Nodup ∧
      (∀ f, (∃ h, p.cycleHeads.lookup f = some h) ↔ TransGen p.Calls f f) ∧
      (∀ f h, p.cycleHeads.lookup f = some h →
        p.Linked f h ∧ ∀ g, p.Linked f g → (Sorted.text h g).isLE = true) ∧
      (∀ q : Program, q.bodies.Perm p.bodies → q.cycleHeads = p.cycleHeads) ∧
      ∀ (i : Importer) (file : String) (o : List (String × Json.Value)) (entries : List Json.Value),
        (i.document file (.obj o)).1 = .ok p → Document.functionList file o = .ok entries →
        ∀ (i' : Importer) (o' : List (String × Json.Value)) (entries' : List Json.Value),
          Document.member o' "adts" = Document.member o "adts" →
          Document.functionList file o' = .ok entries' → entries'.Perm entries →
          ∃ q, (i'.document file (.obj o')).1 = .ok q ∧ q.cycleHeads = p.cycleHeads := by
  refine ⟨p.nodup_cycleHeads, fun f => ⟨?_, fun hcycle => ?_⟩, fun f h hl => ?_,
    fun q hperm => cycleHeads_eq_of_perm hperm, ?_⟩
  · rintro ⟨h, hl⟩
    exact (lookup_cycleHeads.mp hl).1
  · obtain ⟨h, hh⟩ := exists_heads (hasBody_of_transGen hcycle)
    exact ⟨h, lookup_cycleHeads.mpr ⟨hcycle, hh⟩⟩
  · obtain ⟨-, hh⟩ := lookup_cycleHeads.mp hl
    exact ⟨hh.linked, hh.least⟩
  · intro i file o entries hread hentries i' o' entries' hadts hentries' hperm
    obtain ⟨q, hq, hbodies⟩ := Importer.document_perm hread hentries i' hadts hentries' hperm
    exact ⟨q, hq, cycleHeads_eq_of_perm hbodies⟩

/-- An entry whose only block calls. -/
def callingEntry (name callee : String) : Json.Value :=
  .obj [("name", .str name), ("locals", .arr [.str "()"]),
    ("blocks", .arr [.obj [("terminator", .obj [("kind", .str "call"), ("func", .str callee),
      ("destination", .str "_0")])]])]

/-- Two functions that call each other, one of them by a path with arguments, and one that calls them. -/
def volley : List Json.Value :=
  [callingEntry "pong" "ping::<u8>", callingEntry "serve" "pong", callingEntry "ping" "pong"]

/-- The program of these functions. -/
def volleyProgram : Program :=
  (({} : Importer).document "volley.json" (.obj [("functions", .arr volley)])).1.toOption.get rfl

/-- In both orders of the functions, those that call each other have the first of their names as head. -/
theorem volley_headed_by_ping :
    (({} : Importer).document "volley.json" (.obj [("functions", .arr volley)])).1 =
        .ok volleyProgram ∧
      volleyProgram.cycleHeads.lookup "pong" = some "ping" ∧ volleyProgram.Linked "pong" "ping" ∧
      ¬TransGen volleyProgram.Calls "serve" "serve" ∧
      ∃ q, (({} : Importer).document "volley.json"
          (.obj [("functions", .arr volley.reverse)])).1 = .ok q ∧
        q.cycleHeads = volleyProgram.cycleHeads := by
  have hread : (({} : Importer).document "volley.json" (.obj [("functions", .arr volley)])).1 =
      .ok volleyProgram := rfl
  have hpong : volleyProgram.cycleHeads.lookup "pong" = some "ping" := rfl
  obtain ⟨-, hcycles, hheads, -, hdocument⟩ := cycle_heads_canonical volleyProgram
  refine ⟨hread, hpong, (hheads _ _ hpong).1, fun hcycle => ?_, ?_⟩
  · obtain ⟨h, hserve⟩ := (hcycles "serve").mpr hcycle
    cases hserve
  · exact hdocument {} "volley.json" [("functions", .arr volley)] volley hread rfl {}
      [("functions", .arr volley.reverse)] volley.reverse rfl rfl (List.reverse_perm volley)

end Dangling.Program
