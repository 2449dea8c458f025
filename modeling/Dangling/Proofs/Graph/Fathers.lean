import Dangling.Graph.Components
import Dangling.Proofs.Graph.SearchOrder

/-!
# Proofs — Graph — Fathers

The classes of mutual reachability, and of each the member that a plain search meets first.

Fathers are given class by class: when a node without a father comes up, all of its class get it as
their father (`foldl_assign`).  So a father is linked to its node, linked nodes have the same
father, and every node that came up has one (`Settled`).  A node that never comes up has no edges,
and is alone in its class.

* `first_eq_iff`: two nodes have the same first member exactly if they reach each other.
* `linked_first`: a node and the first member of its class reach each other.
* `foremost_first`: that member is met before the rest of the class.
* `first_left_last`: when it is left, so is the rest of the class.
* `componentsByReach`: the components of a graph, told by reachability and the order of the search.
-/

namespace Dangling.Digraph

open Relation (ReflTransGen TransGen)

/-- Each of two nodes reaches the other. -/
def Linked (g : Digraph) (v w : Int) : Prop := g.Reaches v w ∧ g.Reaches w v

namespace Linked

variable {g : Digraph} {u v w : Int}

theorem refl (v : Int) : g.Linked v v := ⟨.refl, .refl⟩

theorem symm (h : g.Linked v w) : g.Linked w v := ⟨h.2, h.1⟩

theorem trans (h : g.Linked u v) (h' : g.Linked v w) : g.Linked u w :=
  ⟨h.1.trans h'.1, h'.2.trans h.2⟩

/-- Of two linked nodes that differ, each has a successor. -/
theorem mem_keys (h : g.Linked v w) (hne : v ≠ w) : v ∈ g.keys := by
  rcases h.1.cases_head with rfl | ⟨x, he, -⟩
  · exact absurd rfl hne
  · exact he.mem_keys

end Linked

/-- The nodes that `v` reaches and that reach `v`; `back` is the graph turned round. -/
def classOf (g back : Digraph) (v : Int) : List Int :=
  let before := (back.search [v]).seen
  (g.search [v]).discovered.filter before.contains

/-- A class holds what is linked to its vertex. -/
theorem mem_classOf {g : Digraph} {v w : Int} : w ∈ g.classOf g.transpose v ↔ g.Linked v w := by
  simp only [classOf, List.mem_filter, mem_discovered, Std.TreeSet.contains_iff_mem, mem_search,
    List.mem_singleton, exists_eq_left, reaches_transpose, Linked]

/-! ### Fathers -/

/-- Each node with the member of its class that comes first in `order`. -/
def fathersIn (g : Digraph) (order : List Int) : Std.TreeMap Int Int :=
  let back := g.transpose
  order.foldl (fun fathers v =>
    if fathers.contains v then fathers
    else (g.classOf back v).foldl (fun fathers w => fathers.insert w v) fathers) .empty

/-- All members of a class get the same father. -/
theorem foldl_assign (ws : List Int) (m : Std.TreeMap Int Int) (v x : Int) :
    (ws.foldl (fun fathers w => fathers.insert w v) m)[x]? =
      if x ∈ ws then some v else m[x]? := by
  induction ws generalizing m with
  | nil => simp
  | cons w ws ih =>
      rw [List.foldl_cons, ih, Std.TreeMap.getElem?_insert]
      by_cases hx : x ∈ ws
      · simp [hx]
      · by_cases e : w = x
        · simp [e]
        · rw [if_neg hx, if_neg fun h => e (Std.LawfulEqCmp.eq_of_compare h), if_neg]
          simp [hx, Ne.symm e]

/-- The fathers given when the nodes of `done` have come up. -/
structure Settled (g : Digraph) (done : List Int) (m : Std.TreeMap Int Int) : Prop where
  linked : ∀ {v f}, m[v]? = some f → g.Linked f v
  same : ∀ {v w}, g.Linked v w → m[v]? = m[w]?
  given : ∀ {v}, v ∈ done → m[v]?.isSome

namespace Settled

variable {g : Digraph} {done : List Int} {m : Std.TreeMap Int Int} {v : Int}

theorem start : g.Settled [] .empty :=
  ⟨fun h => (nomatch h), fun _ => rfl, fun h => (nomatch h)⟩

/-- A node that has a father comes up. -/
theorem skip (h : g.Settled done m) (hv : m.contains v) : g.Settled (done ++ [v]) m := by
  refine ⟨h.linked, h.same, fun {w} hw => ?_⟩
  rcases List.mem_append.mp hw with hw | hw
  · exact h.given hw
  · obtain rfl := List.mem_singleton.mp hw
    rwa [Std.TreeMap.isSome_getElem?_eq_contains]

/-- A node without a father comes up, and becomes the father of its class. -/
theorem give (h : g.Settled done m) :
    g.Settled (done ++ [v])
      ((g.classOf g.transpose v).foldl (fun fathers w => fathers.insert w v) m) := by
  refine ⟨fun {x f} hx => ?_, fun {x y} hxy => ?_, fun {x} hx => ?_⟩
  · rw [foldl_assign] at hx
    split at hx
    case isTrue hc =>
      obtain rfl := Option.some.inj hx
      exact mem_classOf.mp hc
    case isFalse => exact h.linked hx
  · have hiff : x ∈ g.classOf g.transpose v ↔ y ∈ g.classOf g.transpose v := by
      rw [mem_classOf, mem_classOf]
      exact ⟨fun hv => hv.trans hxy, fun hv => hv.trans hxy.symm⟩
    rw [foldl_assign, foldl_assign, h.same hxy]
    simp only [hiff]
  · rw [foldl_assign]
    split
    case isTrue => rfl
    case isFalse hn =>
      rcases List.mem_append.mp hx with hx | hx
      · exact h.given hx
      · obtain rfl := List.mem_singleton.mp hx
        exact absurd (mem_classOf.mpr (.refl x)) hn

end Settled

/-- The induction that giving fathers is: the nodes come up in order, with a father or without. -/
theorem fathersIn_induct (g : Digraph) {motive : List Int → Std.TreeMap Int Int → Prop}
    (start : motive [] .empty)
    (skip : ∀ {done m v}, m.contains v → motive done m → motive (done ++ [v]) m)
    (give : ∀ {done m v}, ¬m.contains v → motive done m → motive (done ++ [v])
      ((g.classOf g.transpose v).foldl (fun fathers w => fathers.insert w v) m))
    (order : List Int) : motive order (g.fathersIn order) := by
  have h : ∀ (rest done : List Int) (m : Std.TreeMap Int Int), motive done m →
      motive (done ++ rest) (rest.foldl (fun fathers v =>
        if fathers.contains v then fathers
        else (g.classOf g.transpose v).foldl (fun fathers w => fathers.insert w v) fathers) m) := by
    intro rest
    induction rest with
    | nil => intro done m h; simpa using h
    | cons v rest ih =>
        intro done m h
        rw [List.foldl_cons, List.append_cons]
        refine ih (done ++ [v]) _ ?_
        split
        case isTrue hv => exact skip hv h
        case isFalse hv => exact give hv h
  have h₁ := h order [] .empty start
  rwa [List.nil_append] at h₁

/-- By the order: each vertex gives a father to those of its class that have none. -/
theorem settled_fathersIn (g : Digraph) (order : List Int) :
    g.Settled order (g.fathersIn order) :=
  g.fathersIn_induct .start (fun hv h => h.skip hv) (fun _ h => h.give) order

/-- No node of the class of `f` comes before `f`. -/
def Foremost (g : Digraph) (order : List Int) (f : Int) : Prop :=
  ∃ l₁ l₂, order = l₁ ++ f :: l₂ ∧ ∀ w ∈ l₁, ¬g.Linked f w

/-- Later vertices take nothing away from an earlier one. -/
theorem Foremost.append {g : Digraph} {order : List Int} {f : Int} (h : g.Foremost order f)
    (more : List Int) : g.Foremost (order ++ more) f := by
  obtain ⟨l₁, l₂, rfl, hn⟩ := h
  exact ⟨l₁, l₂ ++ more, by simp, hn⟩

/-- A father comes before the rest of its class. -/
theorem foremost_fathersIn {g : Digraph} {order : List Int} {v f : Int}
    (h : (g.fathersIn order)[v]? = some f) : g.Foremost order f := by
  refine (g.fathersIn_induct
    (motive := fun done m => g.Settled done m ∧ ∀ v f, m[v]? = some f → g.Foremost done f)
    ⟨.start, fun _ _ hw => by cases hw⟩
    (fun hv h => ⟨h.1.skip hv, fun w f hw => (h.2 w f hw).append _⟩)
    (fun {done m v} hv h => ⟨h.1.give, fun w f hw => ?_⟩) order).2 v f h
  rw [foldl_assign] at hw
  split at hw
  case isFalse => exact (h.2 w f hw).append _
  case isTrue =>
    obtain rfl := Option.some.inj hw
    refine ⟨done, [], rfl, fun w hw hlink => hv ?_⟩
    rw [← Std.TreeMap.isSome_getElem?_eq_contains, h.1.same hlink]
    exact h.1.given hw

/-! ### First members -/

section First

variable (g : Digraph) (roots : List Int)

/-- The nodes that a search from the roots, and then from all keys, meets, the last one first. -/
def met : List Int := (g.search (g.searchOrder roots)).discovered

/-- The member of the class of `v` that this search meets first. -/
def first (v : Int) : Int := (g.fathersIn (g.met roots).reverse).getD v v

/-- The components of a graph, as reachability and the order of the search tell them: each class under
the member that is met first, the classes in the order in which these members are left. -/
def componentsByReach : Components :=
  let fathers := g.fathersIn (g.met roots).reverse
  let order := (g.search (g.searchOrder roots)).finished.reverse.filter fun v => g.first roots v == v
  let classes := order.map fun f =>
    (f, Sorted.ofList compare ((g.met roots).filter fun v => g.first roots v == f))
  { classes
    fathers
    cyclic := (classes.filter fun (f, members) => g.isCyclicClass f members).map (·.1)
    condensed := classes.map fun (f, members) => (f, g.classSuccs fathers f members) }

variable {g roots}

theorem mem_met_of_mem_keys {v : Int} (h : v ∈ g.keys) : v ∈ g.met roots := by
  refine mem_discovered.mpr ⟨v, ?_, .refl⟩
  by_cases hr : v ∈ roots
  · exact List.mem_append_left _ hr
  · exact List.mem_append_right _ (List.mem_filter.mpr ⟨h, by simpa using hr⟩)

/-- The nodes met are the keys, the roots and the successors. -/
theorem mem_met {v : Int} : v ∈ g.met roots ↔ v ∈ g.keys ∨ v ∈ roots ∨ ∃ u, v ∈ g.succs u := by
  constructor
  · intro h
    obtain ⟨r, hr, hreach⟩ := mem_discovered.mp h
    rcases hreach.cases_tail with rfl | ⟨u, -, he⟩
    · rcases List.mem_append.mp hr with hr | hr
      · exact .inr (.inl hr)
      · exact .inl (List.mem_filter.mp hr).1
    · exact .inr (.inr ⟨u, he⟩)
  · rintro (h | h | ⟨u, he⟩)
    · exact mem_met_of_mem_keys h
    · exact mem_discovered.mpr ⟨v, List.mem_append_left _ h, .refl⟩
    · have hu : u ∈ g.met roots := mem_met_of_mem_keys (Edge.mem_keys he)
      obtain ⟨r, hr, hreach⟩ := mem_discovered.mp hu
      exact mem_discovered.mpr ⟨r, hr, hreach.tail he⟩

/-- In the order in which vertices are met, each class has its first for a father. -/
theorem settled_met : g.Settled (g.met roots) (g.fathersIn (g.met roots).reverse) := by
  have h := g.settled_fathersIn (g.met roots).reverse
  exact ⟨h.linked, h.same, fun hv => h.given (List.mem_reverse.mpr hv)⟩

theorem first_eq (v : Int) :
    g.first roots v = ((g.fathersIn (g.met roots).reverse)[v]?).getD v :=
  Std.TreeMap.getD_eq_getD_getElem?

/-- A node and the first member of its class reach each other. -/
theorem linked_first (v : Int) : g.Linked (g.first roots v) v := by
  rw [first_eq]
  cases h : (g.fathersIn (g.met roots).reverse)[v]? with
  | none => exact .refl v
  | some f => exact settled_met.linked h

/-- **Classes.**  Two nodes have the same first member exactly if each reaches the other. -/
theorem first_eq_iff {v w : Int} : g.first roots v = g.first roots w ↔ g.Linked v w := by
  constructor
  · intro h
    exact (linked_first v).symm.trans (h ▸ linked_first w)
  · intro h
    by_cases e : v = w
    · rw [e]
    · -- both have edges, so both have come up
      have hw : ((g.fathersIn (g.met roots).reverse)[w]?).isSome :=
        settled_met.given (mem_met_of_mem_keys (h.symm.mem_keys (Ne.symm e)))
      obtain ⟨f, hf⟩ := Option.isSome_iff_exists.mp hw
      rw [first_eq, first_eq, settled_met.same h, hf]
      rfl

/-- The first of a class is its own first. -/
theorem first_first (v : Int) : g.first roots (g.first roots v) = g.first roots v :=
  first_eq_iff.mpr (linked_first v)

/-- The first of a class has been met. -/
theorem mem_met_first {v : Int} (h : v ∈ g.met roots) : g.first roots v ∈ g.met roots := by
  by_cases e : g.first roots v = v
  · rwa [e]
  · exact mem_met_of_mem_keys ((linked_first v).mem_keys e)

/-- The nodes that are met have fathers, and no others. -/
theorem fathersIn_eq_some_iff {v f : Int} : (g.fathersIn (g.met roots).reverse)[v]? = some f ↔
    v ∈ g.met roots ∧ g.first roots v = f := by
  constructor
  · intro h
    have hlink : g.Linked f v := settled_met.linked h
    refine ⟨?_, by rw [first_eq, h]; rfl⟩
    -- a father of others was met itself; who has another father has an edge, and is a key
    by_cases e : v = f
    · obtain ⟨l₁, l₂, hmet, -⟩ := foremost_fathersIn h
      rw [e, ← List.mem_reverse, hmet]
      exact List.mem_append_right _ List.mem_cons_self
    · exact mem_met_of_mem_keys (hlink.symm.mem_keys e)
  · rintro ⟨hv, rfl⟩
    obtain ⟨f, hf⟩ := Option.isSome_iff_exists.mp (settled_met.given hv)
    rw [first_eq, hf]
    rfl

/-- The first member of a class is met before the rest of it. -/
theorem foremost_first {v : Int} (hv : v ∈ g.met roots) :
    g.Foremost (g.met roots).reverse (g.first roots v) :=
  foremost_fathersIn (fathersIn_eq_some_iff.mpr ⟨hv, rfl⟩)

/-- What stands before a vertex stands to the left of it. -/
theorem mem_of_pair_sublist {l₁ l₂ : List Int} {x y : Int} (hd : (l₁ ++ y :: l₂).Nodup)
    (h : [x, y].Sublist (l₁ ++ y :: l₂)) : x ∈ l₁ := by
  have hy : y ∉ l₂ := (List.nodup_cons.mp (List.nodup_append.mp hd).2.1).1
  obtain ⟨a, b, he, ha, hb⟩ := List.sublist_append_iff.mp h
  cases a with
  | cons z a =>
      obtain ⟨rfl, -⟩ := List.cons.inj he
      exact ha.subset List.mem_cons_self
  | nil =>
      rw [List.nil_append] at he
      subst he
      exact absurd (List.singleton_sublist.mp hb.tail) hy

theorem mem_of_pair_sublist_right {l₁ l₂ : List Int} {x y : Int} (hd : (l₁ ++ x :: l₂).Nodup)
    (h : [x, y].Sublist (l₁ ++ x :: l₂)) : y ∈ l₂ := by
  have hx : x ∉ l₁ := fun hx => (List.nodup_append.mp hd).2.2 x hx x List.mem_cons_self rfl
  obtain ⟨a, b, he, ha, hb⟩ := List.sublist_append_iff.mp h
  cases a with
  | cons z a =>
      obtain ⟨rfl, -⟩ := List.cons.inj he
      exact absurd (ha.subset List.mem_cons_self) hx
  | nil =>
      rw [List.nil_append] at he
      subst he
      exact List.singleton_sublist.mp (List.cons_sublist_cons.mp hb)

/-- The first member of a class is left after all that it reaches. -/
theorem first_left_last {v y : Int} {l₁ l₂ : List Int} (hv : v ∈ g.met roots)
    (hf : (g.search (g.searchOrder roots)).finished = l₁ ++ g.first roots v :: l₂)
    (hr : g.Reaches (g.first roots v) y) : y ∈ g.first roots v :: l₂ := by
  -- nothing that was met before it is in its class
  refine left_of_reaches (fun z hz hlink => ?_) hf hr
  obtain ⟨o₁, o₂, ho, hfirst⟩ := foremost_first hv
  have hz' := hz.reverse
  have hd : (g.met roots).reverse.Nodup :=
    (List.reverse_perm _).nodup_iff.mpr nodup_discovered
  rw [← met, ho] at hz'
  rw [ho] at hd
  exact hfirst z (mem_of_pair_sublist hd hz') hlink

end First

end Dangling.Digraph
