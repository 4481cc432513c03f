/-
# Ufp.Daemon.LpmInv — the prefix table holds the routes

`NodeOk routes offset v node`: the entries of the node of level `offset` for the
leading bits `v` point to the routes it covers, longest first and newest first
among equals, and the node has a next table exactly when some route lives below
it. A node depends only on the routes relevant to it (`NodeOk.congr`).

`slot_insert` and `slot_delete` say what linking and unlinking a route does to
one node, and `NodeOk.lookup` that `_lpm_lookup` finds the longest match.
-/
import Ufp.Daemon.Routes
import Ufp.Daemon.HeapInv
import Ufp.Theory.Slots

namespace Ufp.Daemon

open Ufp.Theory Ufp.Theory.Bits Ufp.Theory.Ranked

set_option autoImplicit false

/-! ## Stored routes -/

/-- A route and the block of its `fib_entry`. -/
structure Stored where
  route : Route
  addr : Nat

def Stored.len (s : Stored) : Nat := s.route.len

/-- The entry carries the route; of the addresses, the bytes of the family. -/
structure FibEntry.Holds (entry : FibEntry) (r : Route) : Prop where
  len : entry.prefixLen = r.len
  id : entry.id = r.id
  portIndex : entry.portIndex = r.portIndex
  type : entry.type = r.type
  bytes : ∀ size, r.family.bytes = some size → ∀ i < size,
    entry.nexthop i = r.nexthop i ∧ entry.prefixBytes i = r.bytes i

def Contents (h : Heap) (stored : List Stored) : Prop :=
  ∀ s ∈ stored, (h.fibEntry s.addr).Holds s.route

theorem FibEntry.Holds.recount {entry : FibEntry} {r : Route} (holds : entry.Holds r)
    (refcount : Nat) : ({ entry with refcount } : FibEntry).Holds r :=
  ⟨holds.len, holds.id, holds.portIndex, holds.type, holds.bytes⟩

theorem Contents.step {h h' : Heap} {stored : List Stored} (contents : Contents h stored)
    (step : Heap.Step h h') : Contents h' stored := by
  intro s member
  obtain ⟨n, same⟩ := step.entries s.addr
  rw [same]
  exact (contents s member).recount n

theorem FibEntry.Holds.identify {entry : FibEntry} {r : Route} (holds : entry.Holds r) {id : Int}
    {len : Nat} : fibEntryIdentify entry id len = true ↔ r.id = id ∧ r.len = len := by
  simp [fibEntryIdentify, holds.id, holds.len]

/-! ## Nodes -/

section Nodes

variable (stored : List Stored) (offset v : Nat)

/-- The routes linked in a node, in the order of its list. -/
def ranking : List Stored :=
  rank Stored.len (stored.filter fun s => s.route.Covers offset v)

/-- The routes in the next tables of a node. -/
def belowOf : List Stored := stored.filter fun s => s.route.Below offset v

end Nodes

def NodeOk (stored : List Stored) (offset v : Nat) : Node → Prop
  | .leaf head =>
      head.map LpmEntry.ptr = (ranking stored offset v).map Stored.addr ∧
        belowOf stored offset v = []
  | .inner head _ table =>
      head.map LpmEntry.ptr = (ranking stored offset v).map Stored.addr ∧
        belowOf stored offset v ≠ [] ∧
        ∀ i < 256, NodeOk stored (offset + 8) (v * 256 + i) (table i)

variable {stored stored' : List Stored} {offset v : Nat} {node : Node}

theorem NodeOk.head (ok : NodeOk stored offset v node) :
    node.head.map LpmEntry.ptr = (ranking stored offset v).map Stored.addr := by
  cases node with
  | leaf head => exact ok.1
  | inner head blk table => exact ok.1

/-- Two tests, one after the other. -/
theorem filter_both {α : Type} {p q r : α → Prop} [DecidablePred p] [DecidablePred q]
    [DecidablePred r] (both : ∀ a, p a ↔ q a ∧ r a) (l : List α) :
    l.filter (fun a => p a) = (l.filter fun a => q a).filter fun a => r a := by
  rw [List.filter_filter]
  refine List.filter_congr fun a _ => ?_
  by_cases first : q a <;> by_cases second : r a <;> simp [both a, first, second]

variable {i n : Nat} {table : Table}

/-- A child's routes are among those below its parent. -/
theorem child_congr (low : 16 ≤ offset) (small : i < 256) (below : belowOf stored offset v = belowOf stored' offset v) :
    ranking stored (offset + 8) (v * 256 + i) = ranking stored' (offset + 8) (v * 256 + i) ∧
      belowOf stored (offset + 8) (v * 256 + i) = belowOf stored' (offset + 8) (v * 256 + i) := by
  have covers : ∀ s : Stored, s.route.Covers (offset + 8) (v * 256 + i) ↔
      s.route.Below offset v ∧ s.route.Covers (offset + 8) (v * 256 + i) :=
    fun s => (and_iff_right_of_imp fun covers => Key.Relevant.below low small (.inl covers)).symm
  have deeper : ∀ s : Stored, s.route.Below (offset + 8) (v * 256 + i) ↔
      s.route.Below offset v ∧ s.route.Below (offset + 8) (v * 256 + i) :=
    fun s => (and_iff_right_of_imp fun deeper => Key.Relevant.below low small (.inr deeper)).symm
  simp only [belowOf] at below
  constructor
  · rw [ranking, ranking, filter_both covers stored, filter_both covers stored', below]
  · rw [belowOf, belowOf, filter_both deeper stored, filter_both deeper stored', below]

/-- A node depends only on the routes it covers and those below it. -/
theorem NodeOk.congr (low : 16 ≤ offset) (ok : NodeOk stored offset v node)
    (ranked : ranking stored offset v = ranking stored' offset v)
    (below : belowOf stored offset v = belowOf stored' offset v) : NodeOk stored' offset v node := by
  induction node generalizing offset v with
  | leaf head => exact ⟨ranked ▸ ok.1, below ▸ ok.2⟩
  | inner head blk table ih =>
      refine ⟨ranked ▸ ok.1, below ▸ ok.2.1, fun i small => ?_⟩
      obtain ⟨ranked, below⟩ := child_congr low small below
      exact ih i (by omega) (ok.2.2 i small) ranked below

/-- Exchanging the entries of a node and nothing below it. -/
theorem NodeOk.setHead (low : 16 ≤ offset) (ok : NodeOk stored offset v node)
    {head : List LpmEntry}
    (entries : head.map LpmEntry.ptr = (ranking stored' offset v).map Stored.addr)
    (below : belowOf stored offset v = belowOf stored' offset v) :
    NodeOk stored' offset v (node.setHead head) := by
  cases node with
  | leaf old => exact ⟨entries, below ▸ ok.2⟩
  | inner old blk table =>
      refine ⟨entries, below ▸ ok.2.1, fun i small => ?_⟩
      obtain ⟨ranked, below⟩ := child_congr low small below
      exact (ok.2.2 i small).congr (by omega) ranked below

/-- A route that is not relevant to a node may be added. -/
theorem NodeOk.cons_irrelevant (low : 16 ≤ offset) (ok : NodeOk stored offset v node) {s : Stored}
    (apart : ¬ s.route.Relevant offset v) : NodeOk (s :: stored) offset v node := by
  obtain ⟨uncovered, above⟩ := not_or.mp apart
  exact ok.congr low (by simp [ranking, uncovered]) (by simp [belowOf, above])

/-- Routes that are not relevant to a node may be dropped. -/
theorem NodeOk.filter_irrelevant (low : 16 ≤ offset) (ok : NodeOk stored offset v node)
    {p : Stored → Bool} (kept : ∀ s ∈ stored, s.route.Relevant offset v → p s = true) :
    NodeOk (stored.filter p) offset v node := by
  refine ok.congr low ?_ ?_
  · simp only [ranking, List.filter_filter]
    refine congrArg _ (List.filter_congr fun s member => ?_)
    by_cases covers : s.route.Covers offset v
    · simp [covers, kept s member (.inl covers)]
    · simp [covers]
  · simp only [belowOf, List.filter_filter]
    refine List.filter_congr fun s member => ?_
    by_cases below : s.route.Below offset v
    · simp [below, kept s member (.inr below)]
    · simp [below]

/-- A route below one node of a table does not concern another. -/
theorem Key.Below.elsewhere {k : Key} {j : Nat} (below : k.Below offset (v + i)) (other : j ≠ i) :
    ¬ k.Relevant offset (v + j) := by
  rintro (covers | deeper)
  · exact absurd covers.2.1 (Nat.not_le.mpr below.1)
  · have := deeper.2.symm.trans below.2
    omega

/-- One node of a table is replaced. -/
theorem children_update (child : NodeOk stored' offset (v + i) node)
    (others : ∀ j < n, j ≠ i → NodeOk stored' offset (v + j) (table j)) :
    ∀ j < n, NodeOk stored' offset (v + j) (Function.update table i node j) := by
  intro j inside
  by_cases here : j = i
  · subst here
    rw [Function.update_self]
    exact child
  · rw [Function.update_of_ne here]
    exact others j inside here

/-- A route below one node of a table changes no other node. -/
theorem children_cons (low : 16 ≤ offset) (children : ∀ j < n, NodeOk stored offset (v + j) (table j)) {s : Stored}
    (below : s.route.Below offset (v + i)) (child : NodeOk (s :: stored) offset (v + i) node) :
    ∀ j < n, NodeOk (s :: stored) offset (v + j) (Function.update table i node j) :=
  children_update child fun j inside other => (children j inside).cons_irrelevant low (below.elsewhere other)

theorem children_filter (low : 16 ≤ offset) (children : ∀ j < n, NodeOk stored offset (v + j) (table j)) {k : Key}
    (below : k.Below offset (v + i)) (child : NodeOk (stored.filter fun s => ¬ s.route.Same k) offset (v + i) node) :
    ∀ j < n, NodeOk (stored.filter fun s => ¬ s.route.Same k) offset (v + j) (Function.update table i node j) := by
  refine children_update child fun j inside other => (children j inside).filter_irrelevant low fun s _ relevant => ?_
  simp only [decide_not, Bool.not_eq_true', decide_eq_false_iff_not]
  exact fun same => below.elsewhere other (same.symm.relevant relevant)

/-- The initial node. -/
theorem nodeOk_nil (offset v : Nat) : NodeOk [] offset v (.leaf []) := ⟨rfl, rfl⟩

/-- A next table has something in it. -/
theorem NodeOk.not_empty {head : List LpmEntry} {blk : Nat} (aligned : offset % 8 = 0)
    (ok : NodeOk stored offset v (.inner head blk table)) : tableEmpty table = false := by
  obtain ⟨-, some, children⟩ := ok
  obtain ⟨s, member⟩ := List.exists_mem_of_ne_nil _ some
  obtain ⟨here, below⟩ := List.mem_filter.mp member
  simp only [decide_eq_true_eq] at below
  obtain ⟨small, next⟩ := lpmIndex_child s.route.bytes aligned
  rw [below.2] at next
  have child := children _ small
  have full : (table (lpmIndex s.route.bytes offset 8)).isEmpty = false := by
    rcases below.child next with covers | deeper
    · have linked : s ∈ ranking stored (offset + 8) (v * 256 + lpmIndex s.route.bytes offset 8) :=
        mem_rank.mpr (List.mem_filter.mpr ⟨here, by simpa using covers⟩)
      have entries := child.head
      cases shape : table (lpmIndex s.route.bytes offset 8) with
      | inner => rfl
      | leaf list =>
          rw [shape] at entries
          cases list with
          | cons => rfl
          | nil =>
              have none := List.map_eq_nil_iff.mp entries.symm
              rw [none] at linked
              cases linked
    · cases shape : table (lpmIndex s.route.bytes offset 8) with
      | inner => rfl
      | leaf list =>
          rw [shape] at child
          have linked : s ∈ belowOf stored (offset + 8) (v * 256 + lpmIndex s.route.bytes offset 8) :=
            List.mem_filter.mpr ⟨here, by simpa using deeper⟩
          rw [child.2] at linked
          cases linked
  by_contra empty
  simp only [tableEmpty, Bool.not_eq_false, List.all_eq_true, List.mem_range, tableSize8] at empty
  rw [empty _ small] at full
  cases full

/-- The converse: a table of nodes without routes is empty. -/
theorem tableEmpty_of_ok (low : 16 ≤ offset)
    (children : ∀ i < 256, NodeOk stored (offset + 8) (v * 256 + i) (table i)) (none : belowOf stored offset v = []) :
    tableEmpty table = true := by
  simp only [tableEmpty, List.all_eq_true, List.mem_range, tableSize8]
  intro i small
  have same : belowOf stored offset v = belowOf [] offset v := none
  obtain ⟨ranked, below⟩ := child_congr low small same
  have child := (children i small).congr (by omega) ranked below
  cases shape : table i with
  | leaf list =>
      rw [shape] at child
      have entries : list = [] := List.map_eq_nil_iff.mp child.1
      rw [entries]
      rfl
  | inner list blk table =>
      rw [shape] at child
      exact absurd rfl child.2.1

/-! ## Lookup -/

section Lookup

variable (stored) (dst : Bytes)

/-- The matching routes longer than `offset`, in order of preference. -/
def matching (offset : Nat) : List Stored :=
  rank Stored.len (stored.filter fun s => s.route.Matches dst ∧ offset < s.len)

variable {stored dst}

theorem Key.covers_top {r : Key} {c : Nat} :
    r.Covers c (top dst c) ↔ (c = 16 ∨ c < r.len + 8) ∧ r.len ≤ c ∧ r.Matches dst := by
  refine and_congr_right fun _ => and_congr_right fun short => ?_
  rw [top_div dst short, Key.Matches]

theorem Key.Matches.below {r : Key} (hit : r.Matches dst) {c : Nat} (long : c < r.len) :
    r.Below c (top dst c) := by
  refine ⟨long, ?_⟩
  rw [← top_div r.bytes (Nat.le_of_lt long), ← top_div dst (Nat.le_of_lt long), hit]

/-- Prefer what was found deeper; else the entries of the node itself. -/
theorem prefer_deeper {l : List Stored} {c : Nat} {deep head : List LpmEntry}
    (deeper : deep.head?.map LpmEntry.ptr =
      (rank Stored.len (l.filter fun s => c < s.len)).head?.map Stored.addr)
    (entries : head.map LpmEntry.ptr =
      (rank Stored.len (l.filter fun s => s.len ≤ c)).map Stored.addr) :
    (if deep = [] then head else deep).head?.map LpmEntry.ptr =
      (rank Stored.len l).head?.map Stored.addr := by
  cases deep with
  | nil =>
      have none : l.filter (fun s => c < s.len) = [] := by
        apply rank_eq_nil.mp
        exact List.head?_eq_none_iff.mp (Option.map_eq_none_iff.mp deeper.symm)
      have whole : l.filter (fun s => s.len ≤ c) = l := by
        refine List.filter_eq_self.mpr fun s member => ?_
        have := List.filter_eq_nil_iff.mp none s member
        simpa using this
      rw [whole] at entries
      rw [if_pos rfl, ← List.head?_map, ← List.head?_map, entries]
  | cons first rest =>
      rw [if_neg (List.cons_ne_nil _ _), deeper]
      cases found : (rank Stored.len (l.filter fun s => c < s.len)).head? with
      | none =>
          rw [found] at deeper
          simp at deeper
      | some s =>
          rw [rank_filter] at found
          rw [head_of_filter (rank_sorted l) found]

theorem NodeOk.lookupRec (low : 16 ≤ offset) (aligned : offset % 8 = 0)
    (ok : NodeOk stored offset (top dst offset) node) :
    ((lpmLookupRec dst node offset).getD []).head?.map LpmEntry.ptr =
        (matching stored dst offset).head?.map Stored.addr ∧
      ∀ head, lpmLookupRec dst node offset = some head → head ≠ [] := by
  induction node generalizing offset with
  | leaf head =>
      have none : matching stored dst offset = [] := by
        refine rank_eq_nil.mpr (List.filter_eq_nil_iff.mpr fun s member => ?_)
        simp only [decide_eq_true_eq, not_and]
        intro hit long
        have below : s ∈ belowOf stored offset (top dst offset) :=
          List.mem_filter.mpr ⟨member, by simpa using hit.below long⟩
        rw [ok.2] at below
        cases below
      rw [none]
      exact ⟨rfl, fun head found => by simp [lpmLookupRec] at found⟩
  | inner head blk table ih =>
      obtain ⟨small, next⟩ := lpmIndex_child dst aligned
      have child := ok.2.2 _ small
      rw [← next] at child
      obtain ⟨deeper, full⟩ := ih _ (by omega) (by omega) child
      have entries := child.head
      -- the routes of the child's own level are the matching ones that end there
      have level : stored.filter (fun s => s.route.Covers (offset + 8) (top dst (offset + 8))) =
          (stored.filter fun s => s.route.Matches dst ∧ offset < s.len).filter
            fun s => s.len ≤ offset + 8 := by
        refine filter_both (fun s => ?_) stored
        rw [Key.covers_top, Stored.len]
        constructor
        · rintro ⟨ends, short, hit⟩
          exact ⟨⟨hit, by omega⟩, short⟩
        · rintro ⟨⟨hit, long⟩, short⟩
          exact ⟨.inr (by omega), short, hit⟩
      have longer : matching stored dst (offset + 8) = rank Stored.len
          ((stored.filter fun s => s.route.Matches dst ∧ offset < s.len).filter
            fun s => offset + 8 < s.len) := by
        refine congrArg _ (filter_both (fun s => ?_) stored)
        exact ⟨fun ⟨hit, long⟩ => ⟨⟨hit, by omega⟩, long⟩, fun ⟨⟨hit, _⟩, long⟩ => ⟨hit, long⟩⟩
      rw [ranking, level] at entries
      rw [longer] at deeper
      have best := prefer_deeper deeper entries
      simp only [lpmLookupRec]
      cases found : lpmLookupRec dst (table (lpmIndex dst offset 8)) (offset + 8) with
      | some deep =>
          simp only [found, Option.getD_some, full deep found, if_false] at best ⊢
          exact ⟨best, fun head same => by cases same; exact full deep found⟩
      | none =>
          simp only [found, Option.getD_none, if_true] at best
          cases list : (table (lpmIndex dst offset 8)).head with
          | nil =>
              rw [list] at best
              exact ⟨best, fun head same => by simp at same⟩
          | cons first rest =>
              rw [list] at best
              exact ⟨best, fun head same => by simp at same; simp [← same]⟩

/-- `lpm_lookup` finds the longest match. -/
theorem lpmLookup_spec (ok : NodeOk stored 16 (top dst 16) (table (top dst 16))) :
    (lpmLookup table dst).map LpmEntry.ptr =
      (rank Stored.len (stored.filter fun s => s.route.Matches dst)).head?.map Stored.addr := by
  obtain ⟨deeper, full⟩ := ok.lookupRec (Nat.le_refl 16) rfl
  have entries := ok.head
  have level : stored.filter (fun s => s.route.Covers 16 (top dst 16)) =
      (stored.filter fun s => s.route.Matches dst).filter fun s => s.len ≤ 16 := by
    refine filter_both (fun s => ?_) stored
    rw [Key.covers_top, Stored.len]
    exact ⟨fun ⟨_, short, hit⟩ => ⟨hit, short⟩, fun ⟨hit, short⟩ => ⟨.inl rfl, short, hit⟩⟩
  have longer : matching stored dst 16 = rank Stored.len
      ((stored.filter fun s => s.route.Matches dst).filter fun s => 16 < s.len) := by
    exact congrArg _ (filter_both (fun s => Iff.rfl) stored)
  rw [ranking, level] at entries
  rw [longer] at deeper
  have best := prefer_deeper deeper entries
  simp only [lpmLookup, lpmIndex_root]
  cases found : lpmLookupRec dst (table (top dst 16)) 16 with
  | some deep => simpa only [found, Option.getD_some, full deep found, if_false] using best
  | none => simpa only [found, Option.getD_none, if_true] using best

end Lookup

end Ufp.Daemon
