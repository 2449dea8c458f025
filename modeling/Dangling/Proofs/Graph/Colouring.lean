import Dangling.Graph.Components
import Dangling.Proofs.Graph.Search

/-!
# Proofs — Graph — Colouring

The search for a closed path finds one exactly if there is one.

What a search knows at any time is `Coherent`: the grey nodes are those of its path, each stop of which
leads to the next; what a stop has looked at is black or further along the path; and black nodes lead to
black nodes only, and lie on no cycle.  So an edge to a grey node closes the path
(`Stops.transGen`), and a node that is left with nothing more to look at has black successors only,
none of which leads back to it (`Coherent.leave`).

* `Coherent.look`: one look keeps this, or closes a path.
* `Coherent.run`: so does a whole search.
* `isAcyclic_iff`: a graph passes for acyclic exactly if no node reaches itself.
* `Components.acyclic_iff_no_closed_path`: the same of condensed graphs.
-/

namespace Dangling

namespace Digraph

open Relation (TransGen)

namespace Colouring

variable {g : Digraph} {colours : Colours} {above : List Int} {path rest : List Stop} {v w : Int}

/-! ### Stops -/

/-- What holds at the stops of a path, `above` being the nodes that it goes on to, the next one first:
what is left to look at are successors, what has been looked at is black or above, and the next node is
a successor. -/
def Stops (g : Digraph) (colours : Colours) : (above : List Int) → (path : List Stop) → Prop
  | _, [] => True
  | above, (v, ws) :: rest =>
    (∀ w ∈ ws, g.Edge v w) ∧
      (∀ w, g.Edge v w → w ∈ ws ∨ w ∈ above ∨ colours[w]? = some .black) ∧
      (∀ w ∈ above.head?, g.Edge v w) ∧ Stops g colours (v :: above) rest

/-- What is above may become black, and more may come above. -/
theorem Stops.imp {colours' : Colours} {above' : List Int} (h : Stops g colours above path)
    (hhead : ∀ w ∈ above'.head?, w ∈ above.head?)
    (habove : ∀ w ∈ above, w ∈ above' ∨ colours'[w]? = some .black)
    (hblack : ∀ w : Int, colours[w]? = some .black → colours'[w]? = some .black) :
    Stops g colours' above' path := by
  induction path generalizing above above' with
  | nil => trivial
  | cons stop rest ih =>
      obtain ⟨hleft, hlooked, hnext, hrest⟩ := h
      refine ⟨hleft, fun w hw => ?_, fun w hw => hnext w (hhead w hw), ih hrest ?_ ?_⟩
      · rcases hlooked w hw with hw | hw | hw
        · exact .inl hw
        · exact .inr (habove w hw)
        · exact .inr (.inr (hblack w hw))
      · exact fun w hw => hw
      · intro w hw
        rcases List.mem_cons.mp hw with rfl | hw
        · exact .inl List.mem_cons_self
        · exact (habove w hw).imp_left (List.mem_cons_of_mem _)

/-- **The stops of a path lead to what is above it.** -/
theorem Stops.transGen (h : Stops g colours above path) {u : Int} (hu : u ∈ above.head?)
    (hw : w ∈ path.map (·.1)) : TransGen g.Edge w u := by
  induction path generalizing above u with
  | nil => exact absurd hw List.not_mem_nil
  | cons stop rest ih =>
      obtain ⟨-, -, hnext, hrest⟩ := h
      rcases List.mem_cons.mp hw with rfl | hw
      · exact .single (hnext u hu)
      · exact .tail (ih hrest rfl hw) (hnext u hu)

/-! ### Coherence -/

/-- What a search knows when it is about to go on to the first node of `above`, if to any. -/
structure Coherent (g : Digraph) (above : List Int) (c : Colouring) : Prop where
  grey : ∀ v, c.colours[v]? = some .grey ↔ v ∈ c.path.map (·.1)
  once : (c.path.map (·.1)).Nodup
  stops : Stops g c.colours above c.path
  closed : ∀ v w, c.colours[v]? = some .black → g.Edge v w → c.colours[w]? = some .black
  acyclic : ∀ v, c.colours[v]? = some .black → ¬TransGen g.Edge v v

theorem getElem?_insert (colours : Colours) (v w : Int) (k : Colour) :
    (colours.insert v k)[w]? = if w = v then some k else colours[w]? := by
  rw [Std.TreeMap.getElem?_insert]
  refine if_congr ?_ rfl rfl
  rw [Std.LawfulEqCmp.compare_eq_iff_eq, eq_comm]

namespace Coherent

/-- Nothing is met. -/
theorem empty (g : Digraph) : Coherent g [] ⟨.empty, []⟩ where
  grey v := by simp
  once := .nil
  stops := trivial
  closed v w hv := by simp at hv
  acyclic v hv := by simp at hv

/-- What black nodes reach is black. -/
theorem black_of_reaches {c : Colouring} (h : Coherent g above c) (hv : c.colours[v]? = some .black)
    (hr : g.Reaches v w) : c.colours[w]? = some .black := by
  induction hr with
  | refl => exact hv
  | tail _ he ih => exact h.closed _ _ ih he

/-- The search takes up the next successor of its last stop. -/
theorem next {ws : List Int} (h : Coherent g [] ⟨colours, (v, w :: ws) :: rest⟩) :
    Coherent g [w] ⟨colours, (v, ws) :: rest⟩ := by
  obtain ⟨hleft, hlooked, -, hrest⟩ := h.stops
  refine ⟨h.grey, h.once, ⟨fun x hx => hleft x (List.mem_cons_of_mem _ hx), fun x hx => ?_,
    fun x hx => ?_, hrest.imp (fun x hx => hx) ?_ fun _ hx => hx⟩, h.closed, h.acyclic⟩
  · rcases hlooked x hx with hx | hx | hx
    · rcases List.mem_cons.mp hx with rfl | hx
      · exact .inr (.inl List.mem_cons_self)
      · exact .inl hx
    · exact absurd hx List.not_mem_nil
    · exact .inr (.inr hx)
  · obtain rfl := Option.some.inj hx
    exact hleft _ List.mem_cons_self
  · intro x hx
    obtain rfl := List.mem_singleton.mp hx
    exact .inl List.mem_cons_self

/-- The search goes on to a node that has no colour. -/
theorem enter {c : Colouring} (h : Coherent g [w] c) (hw : c.colours[w]? = none) :
    Coherent g [] (enter g c w) := by
  have hblack : ∀ x : Int, (c.colours.insert w .grey)[x]? = some .black ↔
      c.colours[x]? = some .black := fun x => by
    rw [getElem?_insert]
    split
    case isTrue e => simp [e, hw]
    case isFalse => exact Iff.rfl
  refine ⟨fun x => ?_, ?_, ⟨fun x hx => hx, fun x hx => .inl hx, fun x hx => ?_, ?_⟩,
    fun x y hx he => ?_, fun x hx => h.acyclic x ((hblack x).mp hx)⟩
  · simp only [Colouring.enter, getElem?_insert, List.map_cons, List.mem_cons]
    split
    case isTrue e => simp [e]
    case isFalse e => simp [e, h.grey]
  · refine List.nodup_cons.mpr ⟨fun hmem => ?_, h.once⟩
    rw [← h.grey, hw] at hmem
    cases hmem
  · cases hx
  · exact h.stops.imp (fun x hx => hx) (fun x hx => .inl hx) fun x hx => (hblack x).mpr hx
  · exact (hblack y).mpr (h.closed x y ((hblack x).mp hx) he)

/-- The search passes over a black node. -/
theorem pass {c : Colouring} (h : Coherent g [w] c) (hw : c.colours[w]? = some .black) :
    Coherent g [] c := by
  refine ⟨h.grey, h.once, h.stops.imp (fun x hx => ?_) (fun x hx => ?_) fun x hx => hx, h.closed,
    h.acyclic⟩
  · cases hx
  · obtain rfl := List.mem_singleton.mp hx
    exact .inr hw

/-- The search leaves a node with nothing more to look at: all its successors are black, so the node
is on no cycle. -/
theorem leave (h : Coherent g [] ⟨colours, (v, []) :: rest⟩) :
    Coherent g [] ⟨colours.insert v .black, rest⟩ := by
  obtain ⟨-, hlooked, -, hrest⟩ := h.stops
  have hgrey : colours[v]? = some .grey := (h.grey v).mpr List.mem_cons_self
  have hsuccs : ∀ w, g.Edge v w → colours[w]? = some .black := fun w hw => by
    rcases hlooked w hw with hw | hw | hw
    · exact absurd hw List.not_mem_nil
    · exact absurd hw List.not_mem_nil
    · exact hw
  have hblack : ∀ x : Int, (colours.insert v .black)[x]? = some .black ↔
      x = v ∨ colours[x]? = some .black := fun x => by
    rw [getElem?_insert]
    split
    case isTrue e => simp [e]
    case isFalse e => simp [e]
  obtain ⟨hv, honce⟩ := List.nodup_cons.mp h.once
  refine ⟨fun x => ?_, honce, hrest.imp (fun x hx => ?_) (fun x hx => ?_) fun x hx => ?_,
    fun x y hx he => ?_, fun x hx hcycle => ?_⟩
  · rw [getElem?_insert]
    split
    case isTrue e => simpa [e] using hv
    case isFalse e =>
      have hx := h.grey x
      rwa [List.map_cons, List.mem_cons, or_iff_right e] at hx
  · cases hx
  · exact .inr ((hblack x).mpr (.inl (List.mem_singleton.mp hx)))
  · exact (hblack x).mpr (.inr hx)
  · rcases (hblack x).mp hx with rfl | hx
    · exact (hblack y).mpr (.inr (hsuccs y he))
    · exact (hblack y).mpr (.inr (h.closed x y hx he))
  · rcases (hblack x).mp hx with rfl | hx
    · -- a way back to the node would make it black before
      obtain ⟨w, he, hr⟩ := TransGen.head'_iff.mp hcycle
      have hback := h.black_of_reaches (hsuccs w he) hr
      rw [hgrey] at hback
      cases hback
    · exact h.acyclic x hx hcycle

end Coherent

/-! ### Searches -/

/-- What becomes of a search that has met `before`: it closes a path of the graph, or it leaves all that
it meets. -/
structure Answers (g : Digraph) (before : Colours) (answer : Option Colours) : Prop where
  found : answer = none → ∃ v, TransGen g.Edge v v
  left : ∀ colours, answer = some colours → Coherent g [] ⟨colours, []⟩ ∧ ∀ v ∈ before, v ∈ colours

/-- **One look** keeps what a search knows, or closes a path. -/
theorem Coherent.look {top : Stop} (h : Coherent g [] ⟨colours, top :: rest⟩) :
    (look g colours top rest = none → ∃ v, TransGen g.Edge v v) ∧
      ∀ c, look g colours top rest = some c → Coherent g [] c ∧ ∀ v ∈ colours, v ∈ c.colours := by
  obtain ⟨v, ws⟩ := top
  cases ws with
  | nil =>
      refine ⟨fun e => (by cases e), fun c e => ?_⟩
      obtain rfl := Option.some.inj e
      exact ⟨h.leave, fun x hx => Std.TreeMap.mem_insert.mpr (.inr hx)⟩
  | cons w ws =>
      have hnext := h.next
      rw [Colouring.look]
      cases hw : colours[w]? with
      | none =>
          refine ⟨fun e => (by cases e), fun c e => ?_⟩
          obtain rfl := Option.some.inj e
          exact ⟨hnext.enter hw, fun x hx => Std.TreeMap.mem_insert.mpr (.inr hx)⟩
      | some k =>
          cases k with
          | grey =>
              refine ⟨fun _ => ⟨w, hnext.stops.transGen rfl ((hnext.grey w).mp hw)⟩, fun c e => ?_⟩
              cases e
          | black =>
              refine ⟨fun e => (by cases e), fun c e => ?_⟩
              obtain rfl := Option.some.inj e
              exact ⟨hnext.pass hw, fun x hx => hx⟩

theorem run_cons (g : Digraph) (colours : Colours) (top : Stop) (rest : List Stop) :
    run g ⟨colours, top :: rest⟩ = (look g colours top rest).bind (run g) := by
  rw [run]
  split
  case h_1 h => rw [h, Option.bind_none]
  case h_2 h => rw [h, Option.bind_some]

/-- **A whole search**, look by look. -/
theorem Coherent.run {c : Colouring} (h : Coherent g [] c) : Answers g c.colours (run g c) := by
  induction c using run.induct g with
  | case1 colours =>
      rw [Colouring.run]
      refine ⟨fun e => (by cases e), fun colours' e => ?_⟩
      obtain rfl := Option.some.inj e
      exact ⟨h, fun v hv => hv⟩
  | case2 colours top rest hlook =>
      rw [run_cons, hlook, Option.bind_none]
      exact ⟨fun _ => h.look.1 hlook, fun colours' e => by cases e⟩
  | case3 colours top rest next hlook ih =>
      obtain ⟨hnext, hkept⟩ := h.look.2 next hlook
      obtain ⟨hfound, hleft⟩ := ih hnext
      rw [run_cons, hlook, Option.bind_some]
      refine ⟨hfound, fun colours' e => ?_⟩
      obtain ⟨hcoherent, hmore⟩ := hleft colours' e
      exact ⟨hcoherent, fun v hv => hmore v (hkept v hv)⟩

/-- A search from one more node. -/
theorem Coherent.from? (h : Coherent g [] ⟨colours, []⟩) (v : Int) :
    Answers g (colours.insert v .grey) (from? g colours v) := by
  rw [Colouring.from?]
  split
  case isTrue hv =>
    refine ⟨fun e => (by cases e), fun colours' e => ?_⟩
    obtain rfl := Option.some.inj e
    refine ⟨h, fun x hx => ?_⟩
    rcases Std.TreeMap.mem_insert.mp hx with e | hx
    · rwa [← Std.LawfulEqCmp.eq_of_compare e]
    · exact hx
  case isFalse hv =>
    have hstart : Coherent g [v] ⟨colours, []⟩ := ⟨h.grey, h.once, trivial, h.closed, h.acyclic⟩
    exact (hstart.enter (Std.TreeMap.getElem?_eq_none hv)).run

/-- Searches from several nodes, one after the other. -/
theorem Coherent.foldlM (ks : List Int) (h : Coherent g [] ⟨colours, []⟩) :
    (ks.foldlM (Colouring.from? g) colours = none → ∃ v, TransGen g.Edge v v) ∧
      ∀ colours', ks.foldlM (Colouring.from? g) colours = some colours' →
        Coherent g [] ⟨colours', []⟩ ∧ (∀ v ∈ colours, v ∈ colours') ∧ ∀ v ∈ ks, v ∈ colours' := by
  induction ks generalizing colours with
  | nil =>
      refine ⟨fun e => (by cases e), fun colours' e => ?_⟩
      obtain rfl := Option.some.inj e
      exact ⟨h, fun v hv => hv, fun v hv => absurd hv List.not_mem_nil⟩
  | cons k ks ih =>
      obtain ⟨hfound, hleft⟩ := h.from? k
      rw [List.foldlM_cons]
      cases hk : Colouring.from? g colours k with
      | none => exact ⟨fun _ => hfound hk, fun colours' e => by cases e⟩
      | some next =>
          obtain ⟨hnext, hmore⟩ := hleft next hk
          obtain ⟨hfound', hleft'⟩ := ih hnext
          refine ⟨hfound', fun colours' e => ?_⟩
          obtain ⟨hcoherent, hmore', hmet⟩ := hleft' colours' e
          refine ⟨hcoherent, fun v hv => hmore' v (hmore v (Std.TreeMap.mem_insert.mpr (.inr hv))),
            List.forall_mem_cons.mpr ⟨hmore' k (hmore k Std.TreeMap.mem_insert_self), hmet⟩⟩

end Colouring

variable {g : Digraph}

/-- **A graph passes for acyclic exactly if no node reaches itself by one edge or more.** -/
theorem isAcyclic_iff : g.isAcyclic = true ↔ ∀ v, ¬TransGen g.Edge v v := by
  obtain ⟨hfound, hleft⟩ := (Colouring.Coherent.empty g).foldlM g.keys
  rw [isAcyclic, Option.isSome_iff_exists]
  constructor
  · rintro ⟨colours, e⟩ v hcycle
    obtain ⟨hcoherent, -, hmet⟩ := hleft colours e
    -- a node on a cycle has an edge, so the search has met it, and has left it
    obtain ⟨w, he, -⟩ := TransGen.head'_iff.mp hcycle
    have hv := Std.TreeMap.mem_iff_isSome_getElem?.mp (hmet v he.mem_keys)
    obtain ⟨k, hk⟩ := Option.isSome_iff_exists.mp hv
    cases k with
    | grey => exact absurd ((hcoherent.grey v).mp hk) List.not_mem_nil
    | black => exact hcoherent.acyclic v hk hcycle
  · intro hno
    refine Option.ne_none_iff_exists'.mp fun e => ?_
    obtain ⟨v, hv⟩ := hfound e
    exact hno v hv

/-- The successors of a node are those of its last entry. -/
theorem succs_ofEdges_eq (edges : List (Int × List Int)) (v : Int) :
    (ofEdges edges).succs v = (edges.reverse.lookup v).getD [] := by
  have h : ∀ m : Std.TreeMap Int (List Int),
      (edges.foldl (fun m e => m.insert e.1 e.2) m)[v]? = (edges.reverse.lookup v).or m[v]? := by
    induction edges with
    | nil => exact fun m => rfl
    | cons e edges ih =>
        intro m
        rw [List.foldl_cons, ih, List.reverse_cons, List.lookup_append, Option.or_assoc]
        congr 1
        obtain ⟨w, succs⟩ := e
        rw [Std.TreeMap.getElem?_insert]
        by_cases he : w = v
        · subst he
          rw [List.lookup_cons_self, if_pos Std.ReflCmp.compare_self, Option.some_or]
        · rw [List.lookup_cons, beq_false_of_ne (Ne.symm he), List.lookup_nil, Option.none_or,
            if_neg fun e => he (Std.LawfulEqCmp.eq_of_compare e)]
  rw [succs, Std.TreeMap.getD_eq_getD_getElem?]
  exact congrArg (Option.getD · []) ((h .empty).trans (Option.or_none ..))

end Digraph

namespace Components

open Relation (TransGen)

/-- One edge of the condensed graph leads from `f` to `f'`: the last entry of `f` lists `f'`. -/
def Leads (c : Components) (f f' : Int) : Prop :=
  ∃ succs, c.condensed.reverse.lookup f = some succs ∧ f' ∈ succs

theorem leads_iff {c : Components} {f f' : Int} :
    c.Leads f f' ↔ (Digraph.ofEdges c.condensed).Edge f f' := by
  rw [Leads, Digraph.Edge, Digraph.succs_ofEdges_eq]
  cases c.condensed.reverse.lookup f <;> simp

/-- **Acyclicity is decided.**  Whatever successors the condensed graph lists for whatever nodes, some of
them repeatedly, some without an entry of their own, it passes for acyclic exactly if no path of one edge
or more leads from a node back to it. -/
theorem acyclic_iff_no_closed_path (c : Components) :
    c.isAcyclic = true ↔ ¬∃ f, TransGen c.Leads f f := by
  have hedge : c.Leads = (Digraph.ofEdges c.condensed).Edge := by
    funext f f'
    exact propext leads_iff
  rw [hedge, not_exists]
  exact Digraph.isAcyclic_iff

end Components

end Dangling
