import Dangling.Proofs.Walk.Conduct
import Dangling.Proofs.Walk.Unfailing

/-!
# Proofs — Walk — Parameters

What the summary of a function says about a parameter.  Slots are read off the nodes of a parameter
when a path returns.  Until a path mentions the parameter these nodes are as at the entry, live and
alone, and bring no slot.  But once the parameter is overwritten they stand for the memory that the
function stored there, and the summary speaks of that as if it were the caller's.

* `Deed.Mentions`, `Deed.Replaces`: a deed mentions a local; it overwrites a whole local unread.
* `Deed.on_of_not_mentions`: a deed that does not mention a local names no node of it.
* `Summary.SilentOn`: no slot of a parameter is released or aliased.
* `Walk.slots_of_replaced_parameter`: when a summary is silent on a parameter.
* `Walk.redirect_speaks_of_replaced_parameter`: a summary that is not, although the parameter is
  overwritten first.
-/

namespace Dangling

/-! ### Mentioned locals -/

/-- The node is none of the local `i`. -/
def NodeTable.Off (t : NodeTable) (i : Nat) (n : NodeId) : Prop := (t.node n).base ≠ i

instance (t : NodeTable) (i : Nat) : DecidablePred (t.Off i) := fun n =>
  inferInstanceAs (Decidable ((t.node n).base ≠ i))

theorem NodeTable.Based.spans_off {t : NodeTable} (h : t.Based) (i : Nat) : t.Spans (t.Off i) :=
  fun _ _ hn hm hi => hn ((h.base_of_mem_subtree hm).symm.trans hi)

/-- Fields lead to nodes of the same local. -/
theorem NodeTable.Based.off_childAt {t : NodeTable} (h : t.Based) {i : Nat} {id : NodeId}
    (hid : t.Off i id) (fields : List String) : t.Off i (t.childAt id fields) := by
  rw [Off, h.base_childAt]
  exact hid

namespace CallSite

variable {t : NodeTable} {c : CallSite} {i : Nat}

/-- The places of the arguments. -/
def places (c : CallSite) : List Place := c.args.filterMap (·.place?)

/-- The node of an argument is that of one of the places. -/
theorem exists_place_of_argNode {j : Int} {id : NodeId} (h : c.argNode t j = some id) :
    ∃ place ∈ c.places, id = (t.lookup place).1 := by
  obtain ⟨x, hx, rfl⟩ := Option.map_eq_some_iff.mp h
  obtain ⟨o, ho, hx⟩ := Option.bind_eq_some_iff.mp hx
  obtain ⟨place, hp, rfl⟩ := Option.map_eq_some_iff.mp hx
  exact ⟨place, List.mem_filterMap.mpr ⟨o, mem_args_of_arg? ho, hp⟩, rfl⟩

/-- Arguments without the local `i` have nodes off it. -/
theorem off_argNode (h : ∀ place ∈ c.places, t.Off i (t.lookup place).1) {j : Int} {id : NodeId}
    (hid : c.argNode t j = some id) : t.Off i id := by
  obtain ⟨place, hp, rfl⟩ := exists_place_of_argNode hid
  exact h place hp

/-- A call that does not mention the local releases nothing of it. -/
theorem off_released (hb : t.Based) (h : ∀ place ∈ c.places, t.Off i (t.lookup place).1) :
    ∀ x ∈ c.released t, t.Off i x.1 := by
  intro x hx
  rw [released] at hx
  cases he : c.effect with
  | unknown =>
      rw [he] at hx
      exact absurd hx List.not_mem_nil
  | modelled m =>
      rw [he] at hx
      obtain ⟨y, hy, rfl⟩ := List.mem_map.mp hx
      obtain ⟨j, -, hy⟩ := List.mem_filterMap.mp hy
      split at hy
      case h_2 => cases hy
      case h_1 id hid =>
        split at hy
        · obtain rfl := Option.some.inj hy
          exact off_argNode h hid
        · cases hy
  | summarised sum =>
      rw [he] at hx
      obtain ⟨d, -, hx⟩ := List.mem_filterMap.mp hx
      split at hx
      · cases hx
      · obtain ⟨id, hid, rfl⟩ := Option.map_eq_some_iff.mp hx
        exact hb.off_childAt (off_argNode h hid) _

/-- Nor do the slots of the callee stand for nodes of it. -/
theorem off_slotNode (hb : t.Based) (h : ∀ place ∈ c.places, t.Off i (t.lookup place).1)
    {dest : NodeId} (hd : t.Off i dest) {slot : Slot} {n : NodeId}
    (hn : c.slotNode t dest slot = some n) : t.Off i n := by
  rw [slotNode] at hn
  split at hn
  · obtain rfl := Option.some.inj hn
    exact hb.off_childAt hd _
  · obtain ⟨id, hid, rfl⟩ := Option.map_eq_some_iff.mp hn
    exact hb.off_childAt (off_argNode h hid) _

/-- Nor is any of its nodes joined. -/
theorem off_joined (hb : t.Based) (h : ∀ place ∈ c.places, t.Off i (t.lookup place).1)
    {dest : NodeId} (hd : t.Off i dest) : ∀ x ∈ c.joined t dest, t.Off i x.1 ∧ t.Off i x.2 := by
  intro x hx
  rw [joined] at hx
  cases he : c.effect with
  | unknown =>
      rw [he] at hx
      exact absurd hx List.not_mem_nil
  | modelled m =>
      rw [he] at hx
      obtain ⟨j, -, hx⟩ := List.mem_filterMap.mp hx
      obtain ⟨id, hid, rfl⟩ := Option.map_eq_some_iff.mp hx
      exact ⟨hd, off_argNode h hid⟩
  | summarised sum =>
      rw [he] at hx
      obtain ⟨pair, -, hx⟩ := List.mem_filterMap.mp hx
      split at hx
      case h_2 => cases hx
      case h_1 a b ha hb' =>
        split at hx
        · cases hx
        · obtain rfl := Option.some.inj hx
          exact ⟨off_slotNode hb h hd ha, off_slotNode hb h hd hb'⟩

/-- Nor is any taken out. -/
theorem off_taken (hb : t.Based) (h : ∀ place ∈ c.places, t.Off i (t.lookup place).1) :
    ∀ n ∈ c.taken t, t.Off i n := by
  intro n hn
  obtain ⟨x, hx, hn⟩ := List.mem_flatMap.mp hn
  split at hn
  case isFalse => exact absurd hn List.not_mem_nil
  case isTrue =>
    obtain ⟨m, hm, hn⟩ := List.mem_flatMap.mp hn
    rw [Operand.source] at hm
    split at hm
    case h_2 => exact absurd hm List.not_mem_nil
    case h_1 place hp =>
      split at hm
      · exact absurd hm List.not_mem_nil
      · obtain rfl := List.mem_singleton.mp hm
        have harg : x.1 ∈ c.args := List.fst_mem_of_mem_zipIdx hx
        exact hb.spans_off i _ n (h place (List.mem_filterMap.mpr ⟨x.1, harg, hp⟩)) hn

end CallSite

namespace Deed

variable {t : NodeTable} {i : Nat}

/-- The places that a deed mentions. -/
def places : Deed → List Place
  | statement st => st.places
  | finish b => b.terminator.places
  | call site destination => destination :: site.places

/-- The deed mentions a local. -/
def Mentions (i : Nat) (d : Deed) : Prop := ∃ place ∈ d.places, place.base = i

instance (i : Nat) (d : Deed) : Decidable (d.Mentions i) :=
  inferInstanceAs (Decidable (∃ place ∈ d.places, place.base = i))

/-- The deed overwrites a whole local, and reads no place of it. -/
def Replaces (i : Nat) : Deed → Prop
  | statement st =>
    ∃ r, st.kind = .assign { base := i } r ∧ ∀ place ∈ r.places, place.base ≠ i
  | finish _ => False
  | call site destination => destination = { base := i } ∧ ∀ place ∈ site.places, place.base ≠ i

theorem Declared.declares {d : Deed} (h : d.Declared t) {place : Place} (hp : place ∈ d.places) :
    t.declares place = true := by
  cases d with
  | statement st => exact h place hp
  | finish b => exact h place hp
  | call site destination =>
      rcases List.mem_cons.mp hp with rfl | hp
      · exact h.2
      · obtain ⟨o, ho, hp⟩ := List.mem_filterMap.mp hp
        exact h.1 o ho place hp

/-- A statement that does not mention the local acts outside of it. -/
theorem on_statement (hb : t.Based) {st : Statement}
    (h : ∀ place ∈ st.places, t.Off i (t.lookup place).1) : (statement st).On t (t.Off i) := by
  cases hk : st.kind with
  | storageLive _ | storageDead _ | nop =>
      constructor <;> intro n hn <;> simp [written, sources, taken, dropped, joined, hk] at hn
  | assign place r =>
      have hplaces : st.places = r.operands.filterMap (·.place?) ++ [place] ++ r.target?.toList := by
        rw [Statement.places, Statement.reads, Statement.writes, hk]
      rw [hplaces] at h
      have hplace : t.Off i (t.lookup place).1 := h place (by simp)
      have hreached : ∀ n ∈ r.reached t, t.Off i n := by
        intro n hn
        obtain ⟨q, hq, hn⟩ := List.mem_flatMap.mp hn
        refine hb.spans_off i _ n (h q ?_) hn
        rcases List.mem_append.mp hq with hq | hq
        · exact List.mem_append_left _ (List.mem_append_left _ hq)
        · exact List.mem_append_right _ hq
      refine ⟨fun n hn => ?_, fun n hn => ?_, fun n hn => ?_, fun n hn => ?_, fun n hn => ?_⟩
      · simp only [written, hk, NodeTable.written] at hn
        split at hn
        · exact absurd hn List.not_mem_nil
        · exact hb.spans_off i _ n hplace hn
      · simp only [sources, hk] at hn
        split at hn
        · exact absurd hn List.not_mem_nil
        · rcases List.mem_append.mp hn with hn | hn
          · exact hreached n (r.named_subset hn)
          · exact hreached n (r.moved_subset hn)
      · simp only [taken, hk] at hn
        exact hreached n (r.taken_subset hn)
      · exact absurd hn List.not_mem_nil
      · exact absurd hn List.not_mem_nil

theorem on_finish {b : GraphBlock} (h : ∀ place ∈ b.terminator.places, t.Off i (t.lookup place).1) :
    (finish b).On t (t.Off i) := by
  refine ⟨fun n hn => ?_, fun n hn => ?_, fun n hn => ?_, fun n hn => ?_, fun n hn => ?_⟩
  case refine_4 =>
    rw [dropped] at hn
    split at hn
    case h_2 => exact absurd hn List.not_mem_nil
    case h_1 place target unwind hk =>
      split at hn
      · exact absurd hn List.not_mem_nil
      · obtain rfl := List.mem_singleton.mp hn
        exact h place (by simp [Terminator.places, hk])
  all_goals exact absurd hn List.not_mem_nil

/-- So does a call. -/
theorem on_call (hb : t.Based) {site : CallSite} {destination : Place}
    (h : ∀ place ∈ destination :: site.places, t.Off i (t.lookup place).1) :
    (call site destination).On t (t.Off i) := by
  obtain ⟨hdest, hargs⟩ := List.forall_mem_cons.mp h
  refine ⟨fun n hn => ?_, fun n hn => ?_, site.off_taken hb hargs, fun n hn => ?_, fun x hx => ?_⟩
  · rw [written, NodeTable.written] at hn
    split at hn
    · exact absurd hn List.not_mem_nil
    · exact hb.spans_off i _ n hdest hn
  · exact absurd hn List.not_mem_nil
  · obtain ⟨x, hx, rfl⟩ := List.mem_map.mp hn
    exact site.off_released hb hargs x hx
  · rw [joined] at hx
    split at hx
    · exact absurd hx List.not_mem_nil
    · exact site.off_joined hb hargs hdest x hx

/-- **A deed that does not mention a local names no node of it.** -/
theorem on_of_not_mentions (hb : t.Based) {d : Deed} (hd : d.Declared t) (h : ¬d.Mentions i) :
    d.On t (t.Off i) := by
  have hoff : ∀ place ∈ d.places, t.Off i (t.lookup place).1 := fun place hp hbase =>
    h ⟨place, hp, (hb.base_lookup (hd.declares hp)).symm.trans hbase⟩
  cases d with
  | statement st => exact on_statement hb hoff
  | finish b => exact on_finish hoff
  | call site destination => exact on_call hb hoff

/-- To replace a local is to mention it. -/
theorem Replaces.mentions {d : Deed} (h : d.Replaces i) : d.Mentions i := by
  cases d with
  | statement st =>
      obtain ⟨r, hk, -⟩ := h
      exact ⟨{ base := i }, by simp [places, Statement.places, Statement.writes, hk], rfl⟩
  | finish b => exact h.elim
  | call site destination => exact ⟨destination, List.mem_cons_self, by rw [h.1]⟩

/-- The first deed of the path that mentions the local `i` overwrites it unread. -/
def ReplacedFirst (i : Nat) (path : List Deed) : Prop :=
  ∀ done d rest, path = done ++ d :: rest → (∀ e ∈ done, ¬e.Mentions i) → d.Mentions i →
    d.Replaces i

theorem Replaces.replacedFirst {d : Deed} (h : d.Replaces i) (rest : List Deed) :
    ReplacedFirst i (d :: rest) := by
  intro done e later hpath hdone _
  cases done with
  | nil =>
      obtain ⟨rfl, -⟩ := List.cons.inj hpath
      exact h
  | cons first done =>
      obtain ⟨rfl, -⟩ := List.cons.inj hpath
      exact absurd h.mentions (hdone d List.mem_cons_self)

/-- A path that mentions a local has a first deed that does. -/
theorem exists_first_mention (path : List Deed) (h : ∃ d ∈ path, d.Mentions i) :
    ∃ done d rest, path = done ++ d :: rest ∧ (∀ e ∈ done, ¬e.Mentions i) ∧ d.Mentions i := by
  induction path with
  | nil =>
      obtain ⟨d, hd, -⟩ := h
      exact absurd hd List.not_mem_nil
  | cons d path ih =>
      by_cases hd : d.Mentions i
      · exact ⟨[], d, path, rfl, fun e he => absurd he List.not_mem_nil, hd⟩
      · obtain ⟨e, he, hmentions⟩ := h
        rcases List.mem_cons.mp he with rfl | he
        · exact absurd hmentions hd
        obtain ⟨done, f, rest, rfl, hdone, hf⟩ := ih ⟨e, he, hmentions⟩
        exact ⟨d :: done, f, rest, rfl, List.forall_mem_cons.mpr ⟨hd, hdone⟩, hf⟩

end Deed

/-! ### Paths -/

namespace FunctionGraph

variable {g : FunctionGraph} {C : NodeId → Prop}

/-- At the entry every node is live and alone. -/
theorem secluded_initialState (g : FunctionGraph) (C : NodeId → Prop) :
    g.initialState.Secluded C := by
  have hinitial : (PathState.initial g.nodes.size).Secluded C := by
    refine ⟨PathState.partitioned_initial _, fun n _ m hm => ?_, fun n _ => ?_⟩
    · have hn := PathState.size_initial g.nodes.size ▸ PathState.lt_of_mem_aliases hm
      rw [PathState.aliases, PathState.node_initial hn] at hm
      exact List.mem_singleton.mp hm
    · rw [PathState.isDropped, NodeState.isDropped, PathState.fate_initial]
      rfl
  exact (g.course_initialState fun _ _ => .own).keeps (fun _ _ ha hs => hs.idle ha) hinitial

/-- Nodes stay secluded on a path whose deeds isolate them. -/
theorem secluded_stateAfter (ht : g.nodes.Layered) (hspans : g.nodes.Spans C) {path : List Deed}
    (h : ∀ d ∈ path, d.Isolates g.nodes C) : (g.stateAfter path).Secluded C :=
  List.foldlRecOn (motive := fun p : Progress => p.state.Secluded C) path _
    (g.secluded_initialState C) fun _ hp d hd => d.secluded_apply ht (h d hd) hspans hp

/-- Nodes are as at the entry on a path whose deeds do not name them. -/
theorem node_stateAfter (ht : g.nodes.Layered) (hspans : g.nodes.Spans C) {path : List Deed}
    (h : ∀ d ∈ path, d.On g.nodes C) {n : NodeId} (hn : ¬C n) :
    (g.stateAfter path).node n = g.initialState.node n := by
  refine (List.foldlRecOn (motive := fun p : Progress => p.state.Whole C ∧
    p.state.node n = g.initialState.node n) path _
    ⟨(g.secluded_initialState C).whole, rfl⟩ fun p hp d hd => ?_).2
  obtain ⟨hwhole, hsame⟩ := d.frame ht (h d hd) hspans hp.1
  exact ⟨hwhole, (hsame n hn).trans hp.2⟩

/-! ### Slots -/

/-- No node of the local `i` is released, and none names the same memory as another node of the
result or a parameter. -/
def Private (g : FunctionGraph) (i : Nat) (s : PathState) : Prop :=
  ∀ n ∈ g.nodes.subtree i, s.isDropped n = false ∧
    ∀ m ∈ s.aliases n, m ≠ n → g.argCount < (g.nodes.node m).base

end FunctionGraph

/-- No slot of the parameter `i` is released, and none is paired with another one. -/
def Summary.SilentOn (s : Summary) (i : Nat) : Prop :=
  (∀ d ∈ s.dropped, d.path.slot ≠ i) ∧ ∀ pair ∈ s.aliases, pair.1.slot ≠ i ∧ pair.2.slot ≠ i

theorem AliasPair.forall_ofSlots {P : Slot → Prop} {a b : Slot} :
    P (ofSlots a b).1 ∧ P (ofSlots a b).2 ↔ P a ∧ P b := by
  rw [ofSlots]
  split
  · exact Iff.rfl
  · exact And.comm

namespace FunctionGraph

variable {ds : Declarations} {b : Body} {g : FunctionGraph} {i : Nat}

theorem slot?_eq_some {n : NodeId} {slot : Slot} (h : g.slot? n = some slot) :
    (g.nodes.node n).base ≤ g.argCount ∧ slot.slot = (g.nodes.node n).base := by
  rw [slot?] at h
  split at h
  case isTrue hle =>
    obtain rfl := Option.some.inj h
    exact ⟨hle, rfl⟩
  case isFalse => cases h

/-- The nodes of a parameter are those of its base. -/
theorem mem_subtree_parameter (hg : ofBody ds b = .ok g) (hi : 1 ≤ i ∧ i ≤ g.argCount)
    {n : NodeId} : n ∈ g.nodes.subtree i ↔ (g.nodes.node n).base = i := by
  have hbuilt := built_of_ofBody hg
  have hlocal : i < b.locals.length :=
    Nat.lt_of_le_of_lt (hbuilt.argCount_eq ▸ hi.2) (argCount_lt_of_ofBody hg)
  have hrooted := NodeTable.rooted_ofLocals ds b.locals
  rw [← hbuilt.nodes_eq] at hrooted
  have hbase : (g.nodes.node i).base = i :=
    hbuilt.based.root i (Nat.lt_of_lt_of_le hlocal hrooted.size) (hrooted.root i hlocal)
  constructor
  · exact fun hn => (hbuilt.based.base_of_mem_subtree hn).trans hbase
  · intro hn
    have hlt : n < g.nodes.size := Nat.lt_of_not_le fun hle => by
      -- what is no node has the base zero
      rw [NodeTable.node_eq_default hle] at hn
      have hzero : (0 : Nat) = i := hn
      omega
    exact hn ▸ hbuilt.based.mem_subtree_base hbuilt.layered hlt

/-- A state brings no slot of a parameter if and only if the parameter is private in it. -/
theorem private_iff (hg : ofBody ds b = .ok g) (hi : 1 ≤ i ∧ i ≤ g.argCount) {s : PathState}
    (hs : s.Partitioned) :
    g.Private i s ↔ (∀ d ∈ g.droppedSlots s, d.path.slot ≠ i) ∧
      ∀ pair ∈ g.aliasPairs s, pair.1.slot ≠ i ∧ pair.2.slot ≠ i := by
  have hslot : ∀ {n : NodeId}, (g.nodes.node n).base ≤ g.argCount →
      ∃ slot, g.slot? n = some slot ∧ slot.slot = (g.nodes.node n).base := fun hle =>
    ⟨_, if_pos hle, rfl⟩
  have hmem : ∀ {n : NodeId}, n ∈ g.nodes.subtree i → n ∈ g.slotNodes := fun hn =>
    List.mem_flatMap.mpr ⟨i, List.mem_range.mpr (Nat.lt_succ_of_le hi.2), hn⟩
  constructor
  · refine fun h => ⟨fun d hd hdi => ?_, fun pair hpair => ?_⟩
    · obtain ⟨n, -, slot, hn, -, hdropped, rfl⟩ := mem_droppedSlots.mp hd
      have hbase := (slot?_eq_some hn).2.symm.trans hdi
      rw [(h n ((mem_subtree_parameter hg hi).mpr hbase)).1] at hdropped
      cases hdropped
    · obtain ⟨n, -, m, hm, hne, x, y, hn, hm', rfl⟩ := mem_aliasPairs.mp hpair
      refine AliasPair.forall_ofSlots (P := fun slot => slot.slot ≠ i).mpr ⟨fun hx => ?_, fun hy => ?_⟩
      · have hbase := (slot?_eq_some hn).2.symm.trans hx
        have := (h n ((mem_subtree_parameter hg hi).mpr hbase)).2 m hm hne
        exact Nat.not_lt_of_le (slot?_eq_some hm').1 this
      · have hbase := (slot?_eq_some hm').2.symm.trans hy
        have := (h m ((mem_subtree_parameter hg hi).mpr hbase)).2 n (hs.symm hm) (Ne.symm hne)
        exact Nat.not_lt_of_le (slot?_eq_some hn).1 this
  · rintro ⟨hdropped, haliases⟩ n hn
    have hbase := (mem_subtree_parameter hg hi).mp hn
    obtain ⟨slot, hslotn, hnumber⟩ := hslot (n := n) (hbase ▸ hi.2)
    refine ⟨Bool.eq_false_iff.mpr fun hd => ?_, fun m hm hne => Nat.lt_of_not_le fun hle => ?_⟩
    · refine hdropped ⟨slot, s.isTainted n⟩ (mem_droppedSlots.mpr ?_) (hnumber.trans hbase)
      exact ⟨n, hmem hn, slot, hslotn, by rw [hnumber, hbase]; exact hi.1, hd, rfl⟩
    · obtain ⟨other, hother, -⟩ := hslot hle
      have hpair := haliases (.ofSlots slot other) (mem_aliasPairs.mpr
        ⟨n, hmem hn, m, hm, hne, slot, other, hslotn, hother, rfl⟩)
      exact (AliasPair.forall_ofSlots (P := fun slot => slot.slot ≠ i).mp hpair).1
        (hnumber.trans hbase)

/-- Secluded nodes of a parameter are private. -/
theorem Private.of_secluded (hg : ofBody ds b = .ok g) (hi : 1 ≤ i ∧ i ≤ g.argCount) {s : PathState}
    (h : s.Secluded (g.nodes.Off i)) : g.Private i s := by
  intro n hn
  have hbase : ¬g.nodes.Off i n := fun hoff => hoff ((mem_subtree_parameter hg hi).mp hn)
  exact ⟨h.live n hbase, fun m hm hne => absurd (h.alone n hbase m hm) hne⟩

end FunctionGraph

/-! ### Summaries -/

namespace Walk

variable {σ : Type} {g : FunctionGraph} {cfg : Config} {resolve : Resolver σ}

/-- The state of a visit is that of its path. -/
theorem Leg.OnRun.state_eq {s : σ} {leg : Leg} (h : leg.OnRun g cfg resolve s) :
    leg.visit.progress.state = g.stateAfter leg.path := by
  rw [Makes.progress h, (Makes.true_to_path h (faithful_start g)).1, Leg.path, g.stateAfter_append]

/-- What a path has released and aliased where it returns is tallied. -/
theorem Makes.tallied {budget : Nat} {tracks : List (List Deed × Item)} {t : Tally} {s : σ}
    {leg : Leg} (h : Makes g cfg resolve budget tracks t s leg) (hret : leg.visit.returns = true) :
    g.droppedSlots leg.visit.progress.state ⊆ leg.tally.dropped ∧
      g.aliasPairs leg.visit.progress.state ⊆ leg.tally.aliases := by
  induction h with
  | visit he hv =>
      exact ⟨fun d hd => Tally.mem_add_dropped.mpr (.inr ⟨hret, hd⟩),
        fun pair hp => Tally.mem_add_aliases.mpr (.inr ⟨hret, hp⟩)⟩
  | onward _ _ _ ih => exact ih hret
  | cut _ _ ih => exact ih hret

/-- **A summary tells what is released and aliased where a path of the walk returns**, and no
more. -/
theorem mem_summary_iff {s s' : σ} {o : Outcome} (hrun : run g cfg resolve s = (.ok o, s')) :
    (∀ d, d ∈ o.summary.dropped ↔ ∃ leg : Leg, leg.OnRun g cfg resolve s ∧
      leg.visit.returns = true ∧ d ∈ g.droppedSlots (g.stateAfter leg.path)) ∧
    ∀ pair, pair ∈ o.summary.aliases ↔ ∃ leg : Leg, leg.OnRun g cfg resolve s ∧
      leg.visit.returns = true ∧ pair ∈ g.aliasPairs (g.stateAfter leg.path) := by
  obtain ⟨t, complete, hend, rfl⟩ := run_eq_ok_iff.mp hrun
  refine ⟨fun d => ⟨?_, ?_⟩, fun pair => ⟨?_, ?_⟩⟩
  · refine Makes.keeps (Q := fun t => d ∈ t.dropped → _) (fun _ h => h) _ [([], start g)] _ s
      (fun leg hleg t h hd => ?_) hend fun hd => absurd hd List.not_mem_nil
    rcases Tally.mem_add_dropped.mp hd with hd | ⟨hret, hd⟩
    · exact h hd
    · exact ⟨leg, hleg, hret, Leg.OnRun.state_eq hleg ▸ hd⟩
  · rintro ⟨leg, hleg, hret, hd⟩
    rw [← hleg.state_eq] at hd
    exact (Makes.within hleg hend).dropped ((Makes.tallied hleg hret).1 hd)
  · refine Makes.keeps (Q := fun t => pair ∈ t.aliases → _) (fun _ h => h) _ [([], start g)] _ s
      (fun leg hleg t h hp => ?_) hend fun hp => absurd hp List.not_mem_nil
    rcases Tally.mem_add_aliases.mp hp with hp | ⟨hret, hp⟩
    · exact h hp
    · exact ⟨leg, hleg, hret, Leg.OnRun.state_eq hleg ▸ hp⟩
  · rintro ⟨leg, hleg, hret, hp⟩
    rw [← hleg.state_eq] at hp
    exact (Makes.within hleg hend).aliases ((Makes.tallied hleg hret).2 hp)

/-- The deeds of a walk mention declared places only. -/
theorem Leg.OnRun.declared {ds : Declarations} {b : Body} (hg : FunctionGraph.ofBody ds b = .ok g)
    {s : σ} {leg : Leg} (h : leg.OnRun g cfg resolve s) : ∀ d ∈ leg.path, d.Declared g.nodes := by
  refine h.forall_path fun j s d hd => ?_
  rcases mem_deedsOf hd with ⟨c, hc, hd⟩ | rfl
  · have hbuilt := FunctionGraph.built_of_ofBody hg
    exact GraphBlock.declared_deeds (fun x hx => hbuilt.declares hc hx) _ d hd
  · exact fun place hp => absurd hp List.not_mem_nil

/-- A summary is silent on a parameter if and only if it is private wherever a path returns. -/
theorem silentOn_iff {ds : Declarations} {b : Body} (hg : FunctionGraph.ofBody ds b = .ok g)
    {i : Nat} (hi : 1 ≤ i ∧ i ≤ g.argCount) {s s' : σ} {o : Outcome}
    (hrun : run g cfg resolve s = (.ok o, s')) :
    o.summary.SilentOn i ↔ ∀ leg : Leg, leg.OnRun g cfg resolve s → leg.visit.returns = true →
      g.Private i (g.stateAfter leg.path) := by
  have ht : g.nodes.Layered := (FunctionGraph.built_of_ofBody hg).layered
  have hprivate := fun path => FunctionGraph.private_iff hg hi (g.partitioned_stateAfter ht path)
  obtain ⟨hdropped, haliases⟩ := mem_summary_iff hrun
  constructor
  · rintro ⟨hd, hp⟩ leg hleg hret
    exact (hprivate leg.path).mpr ⟨fun d hmem => hd d ((hdropped d).mpr ⟨leg, hleg, hret, hmem⟩),
      fun pair hmem => hp pair ((haliases pair).mpr ⟨leg, hleg, hret, hmem⟩)⟩
  · refine fun h => ⟨fun d hmem => ?_, fun pair hmem => ?_⟩
    · obtain ⟨leg, hleg, hret, hmem⟩ := (hdropped d).mp hmem
      exact ((hprivate leg.path).mp (h leg hleg hret)).1 d hmem
    · obtain ⟨leg, hleg, hret, hmem⟩ := (haliases pair).mp hmem
      exact ((hprivate leg.path).mp (h leg hleg hret)).2 pair hmem

/-- **The slots of a parameter that is overwritten first**, whatever is known of callees.

* As long as a path has not mentioned a parameter, the nodes of the parameter are as at the entry.
* If every path that mentions the parameter overwrites it first, the summary is silent on it if and
  only if the parameter is private again wherever a path returns that has overwritten it.
* It is silent if all deeds that mention the parameter keep its memory to itself. -/
theorem slots_of_replaced_parameter {ds : Declarations} {b : Body} {g : FunctionGraph}
    (hg : FunctionGraph.ofBody ds b = .ok g) {i : Nat} (hi : 1 ≤ i ∧ i ≤ g.argCount) (cfg : Config)
    (resolve : Resolver σ) (s : σ) :
    (∀ leg : Leg, leg.OnRun g cfg resolve s → ∀ done rest, leg.path = done ++ rest →
      (∀ d ∈ done, ¬d.Mentions i) → ∀ n ∈ g.nodes.subtree i,
        (g.stateAfter done).node n = g.initialState.node n) ∧
    ∀ o s', run g cfg resolve s = (.ok o, s') →
      ((∀ leg : Leg, leg.OnRun g cfg resolve s → Deed.ReplacedFirst i leg.path) →
        (o.summary.SilentOn i ↔ ∀ leg : Leg, leg.OnRun g cfg resolve s → leg.visit.returns = true →
          (∃ d ∈ leg.path, d.Replaces i) → g.Private i (g.stateAfter leg.path))) ∧
      ((∀ leg : Leg, leg.OnRun g cfg resolve s → leg.visit.returns = true → ∀ d ∈ leg.path,
        d.Mentions i → d.Isolates g.nodes (g.nodes.Off i)) → o.summary.SilentOn i) := by
  have hbuilt := FunctionGraph.built_of_ofBody hg
  have ht : g.nodes.Layered := hbuilt.layered
  have hspans := hbuilt.based.spans_off i
  have hon : ∀ leg : Leg, leg.OnRun g cfg resolve s → ∀ d ∈ leg.path, ¬d.Mentions i →
      d.On g.nodes (g.nodes.Off i) := fun leg hleg d hd hmentions =>
    Deed.on_of_not_mentions hbuilt.based (hleg.declared hg d hd) hmentions
  -- deeds that keep the memory of the parameter to itself leave it private
  have hisolated : ∀ leg : Leg, leg.OnRun g cfg resolve s →
      (∀ d ∈ leg.path, d.Mentions i → d.Isolates g.nodes (g.nodes.Off i)) →
      g.Private i (g.stateAfter leg.path) := fun leg hleg h => by
    refine .of_secluded hg hi (FunctionGraph.secluded_stateAfter ht hspans fun d hd => ?_)
    by_cases hmentions : d.Mentions i
    · exact h d hd hmentions
    · exact (hon leg hleg d hd hmentions).isolates
  refine ⟨fun leg hleg done rest hpath hdone n hn => ?_, fun o s' hrun => ⟨fun hfirst => ?_, fun h => ?_⟩⟩
  · refine FunctionGraph.node_stateAfter ht hspans (fun d hd => ?_) fun hoff =>
      hoff ((FunctionGraph.mem_subtree_parameter hg hi).mp hn)
    exact hon leg hleg d (hpath ▸ List.mem_append_left _ hd) (hdone d hd)
  · rw [silentOn_iff hg hi hrun]
    refine ⟨fun h leg hleg hret _ => h leg hleg hret, fun h leg hleg hret => ?_⟩
    by_cases hmentions : ∃ d ∈ leg.path, d.Mentions i
    · obtain ⟨done, d, rest, hpath, hdone, hd⟩ := Deed.exists_first_mention leg.path hmentions
      refine h leg hleg hret ⟨d, ?_, hfirst leg hleg done d rest hpath hdone hd⟩
      rw [hpath]
      exact List.mem_append_right _ List.mem_cons_self
    · exact hisolated leg hleg fun d hd hdi => absurd ⟨d, hd, hdi⟩ hmentions
  · exact (silentOn_iff hg hi hrun).mpr fun leg hleg hret => hisolated leg hleg (h leg hleg hret)

/-! ### First deeds -/

/-- A path goes on from where its track has come to. -/
theorem Makes.path_prefix {start : List Deed} {budget : Nat} {tracks : List (List Deed × Item)}
    {t : Tally} {s : σ} {leg : Leg} (h : Makes g cfg resolve budget tracks t s leg)
    (htracks : ∀ x ∈ tracks, start <+: x.1) : start <+: leg.path := by
  induction h with
  | visit he hv => exact (htracks _ List.mem_cons_self).trans (List.prefix_append _ _)
  | onward he hv _ ih =>
      refine ih fun x hx => ?_
      rcases List.mem_append.mp hx with hx | hx
      · obtain ⟨k, -, rfl⟩ := List.mem_map.mp hx
        exact (htracks _ List.mem_cons_self).trans (List.prefix_append _ _)
      · exact htracks x (List.mem_cons_of_mem _ hx)
  | cut he _ ih => exact ih fun x hx => htracks x (List.mem_cons_of_mem _ hx)

/-- All paths of a walk begin with the deeds of the first block. -/
theorem Makes.first_deeds {budget : Nat} {i : Item} {t : Tally} {s : σ} {leg : Leg}
    (h : Makes g cfg resolve budget [([], i)] t s leg) :
    ∃ j, enter? g cfg i = some j ∧ deedsOf g resolve j s <+: leg.path := by
  cases h with
  | visit he hv => exact ⟨_, he, List.prefix_rfl⟩
  | onward he hv h =>
      refine ⟨_, he, h.path_prefix fun x hx => ?_⟩
      rw [List.append_nil] at hx
      obtain ⟨k, -, rfl⟩ := List.mem_map.mp hx
      exact List.prefix_rfl
  | cut he h => cases h

/-- If the first deed of a function overwrites a local unread, every path does so first. -/
theorem Leg.OnRun.replacedFirst {i : Nat} {s : σ} {leg : Leg} (h : leg.OnRun g cfg resolve s)
    (hentry : ∀ j : Item, j.block = g.entry →
      ∃ d rest, deedsOf g resolve j s = d :: rest ∧ d.Replaces i) :
    Deed.ReplacedFirst i leg.path := by
  obtain ⟨j, he, later, hpath⟩ := Makes.first_deeds h
  obtain ⟨d, rest, hdeeds, hd⟩ := hentry j (enter?_eq_some he).1
  rw [← hpath, hdeeds]
  exact hd.replacedFirst _

/-- A function that points its first parameter to what the second one names, and releases it. -/
def redirect : Body where
  name := "redirect"
  argCount := 2
  locals := [{ ty := Ty.unit }, { ty := .rawPtr true Ty.int32 }, { ty := .rawPtr true Ty.int32 },
    { ty := Ty.unit }]
  blocks :=
    [{ id := 0, statements := [⟨default, .assign { base := 1 } (.use (.copy { base := 2 }))⟩],
       terminator :=
         ⟨default, .call "drop_in_place" [.copy { base := 1 }] { base := 3 } (some 1) none⟩ },
     { id := 1, statements := [], terminator := ⟨default, .ret⟩ }]
  distinct := by decide

/-- Its graph. -/
def redirectGraph : FunctionGraph := (FunctionGraph.ofBody .empty redirect).toOption.get rfl

/-- **A summary speaks of memory that a parameter was given**: every path overwrites the first
parameter before it mentions it otherwise, and yet its slot is released, by hand, and aliased. -/
theorem redirect_speaks_of_replaced_parameter :
    FunctionGraph.ofBody .empty redirect = .ok redirectGraph ∧
      (∀ leg : Leg, leg.OnRun redirectGraph {} releasesPointee () → Deed.ReplacedFirst 1 leg.path) ∧
      ∃ o, run redirectGraph {} releasesPointee () = (.ok o, ()) ∧
        ⟨{ slot := 1 }, true⟩ ∈ o.summary.dropped ∧
        (⟨1, []⟩, ⟨2, []⟩) ∈ o.summary.aliases ∧ ¬o.summary.SilentOn 1 := by
  refine ⟨rfl, fun leg hleg => hleg.replacedFirst fun j hj => ?_, _, rfl, .head _, .head _,
    fun hsilent => hsilent.1 _ (.head _) rfl⟩
  rw [deedsOf, hj]
  exact ⟨_, _, rfl, _, rfl, by decide⟩

/-- A function that gives its first parameter a result, and releases what the second one names. -/
def refill : Body where
  name := "refill"
  argCount := 2
  locals := [{ ty := Ty.unit }, { ty := .rawPtr true Ty.int32 }, { ty := .rawPtr true Ty.int32 },
    { ty := Ty.unit }]
  blocks :=
    [{ id := 0, statements := [],
       terminator := ⟨default, .call "make" [] { base := 1 } (some 1) none⟩ },
     { id := 1, statements := [],
       terminator :=
         ⟨default, .call "drop_in_place" [.copy { base := 2 }] { base := 3 } (some 2) none⟩ },
     { id := 2, statements := [], terminator := ⟨default, .ret⟩ }]
  distinct := by decide

/-- Its graph. -/
def refillGraph : FunctionGraph := (FunctionGraph.ofBody .empty refill).toOption.get rfl

/-- The deeds that mention the first parameter keep its memory to itself, so the summary tells of the
release of the second one and is silent on the first. -/
theorem refill_silent_on_replaced_parameter :
    FunctionGraph.ofBody .empty refill = .ok refillGraph ∧
      (∀ leg : Leg, leg.OnRun refillGraph {} releasesPointee () → Deed.ReplacedFirst 1 leg.path) ∧
      (∀ leg : Leg, leg.OnRun refillGraph {} releasesPointee () → ∀ d ∈ leg.path, d.Mentions 1 →
        d.Isolates refillGraph.nodes (refillGraph.nodes.Off 1)) ∧
      ∃ o, run refillGraph {} releasesPointee () = (.ok o, ()) ∧
        ⟨{ slot := 2 }, true⟩ ∈ o.summary.dropped ∧ o.summary.SilentOn 1 ∧
        ∃ leg : Leg, leg.OnRun refillGraph {} releasesPointee () ∧ leg.visit.returns = true ∧
          (∃ d ∈ leg.path, d.Replaces 1) ∧ refillGraph.Private 1 (refillGraph.stateAfter leg.path) := by
  have hg : FunctionGraph.ofBody .empty refill = .ok refillGraph := rfl
  have hfirst : ∀ leg : Leg, leg.OnRun refillGraph {} releasesPointee () →
      Deed.ReplacedFirst 1 leg.path := fun leg hleg => hleg.replacedFirst fun j hj => by
    rw [deedsOf, hj]
    exact ⟨_, _, rfl, rfl, by decide⟩
  have hblocks : ∀ c ∈ refillGraph.blocks, ∀ d ∈ c.deeds (c.effect releasesPointee ()),
      d.Mentions 1 → d.Isolates refillGraph.nodes (refillGraph.nodes.Off 1) := by decide
  have hisolates : ∀ leg : Leg, leg.OnRun refillGraph {} releasesPointee () → ∀ d ∈ leg.path,
      d.Mentions 1 → d.Isolates refillGraph.nodes (refillGraph.nodes.Off 1) := fun leg hleg =>
    hleg.forall_path fun j s d hd hmentions => by
      rcases mem_deedsOf hd with ⟨c, hc, hd⟩ | rfl
      · exact hblocks c hc d hd hmentions
      · obtain ⟨place, hp, -⟩ := hmentions
        exact absurd hp List.not_mem_nil
  obtain ⟨o, walked, hdropped⟩ : ∃ o, run refillGraph {} releasesPointee () = (.ok o, ()) ∧
      ⟨{ slot := 2 }, true⟩ ∈ o.summary.dropped := ⟨_, rfl, .head _⟩
  obtain ⟨leg, hleg, hret, hreplaces⟩ : ∃ leg : Leg, leg.OnRun refillGraph {} releasesPointee () ∧
      leg.visit.returns = true ∧ ∃ d ∈ leg.path, d.Replaces 1 :=
    ⟨_, .onward rfl rfl (.onward rfl rfl (.visit rfl rfl)), rfl, _, .head _, rfl, by decide⟩
  have slots := (slots_of_replaced_parameter hg (i := 1) (by decide) {} releasesPointee ()).2 o ()
    walked
  have hsilent : o.summary.SilentOn 1 := slots.2 fun leg hleg _ => hisolates leg hleg
  exact ⟨hg, hfirst, hisolates, o, walked, hdropped, hsilent, leg, hleg, hret, hreplaces,
    (slots.1 hfirst).mp hsilent leg hleg hret hreplaces⟩

end Walk

end Dangling
