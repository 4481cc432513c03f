/-
# Ufp.Daemon.FibInv — one call on a forwarding information base

`FibOk h fib stored`: the table of `fib` holds the routes `stored`, newest first,
each in a `fib_entry` of its own, and owns its blocks. The specs of the calls
follow from those of the table: `fibRouteUpdate_spec` (with the ways an update
can end, `UpdateEnd`), `fibRouteDelete_present`, `fibRouteDelete_absent` and
`fibLookup_spec`.

Other tables live in the same pool. They are the `restB` blocks and `restL` links
of the account, and `Heap.Keeps` says that a call leaves their entries alone.
-/
import Ufp.Daemon.LpmTree

namespace Ufp.Daemon

open Ufp.Theory Ufp.Theory.Bits Ufp.Theory.Ranked

set_option autoImplicit false

structure FibOk (h : Heap) (fib : Fib) (stored : List Stored) (restB restL : List Nat) : Prop where
  table : TableOk stored fib.table
  heap : HeapOk h (tableBlocks fib.table ++ fib.blk :: restB) (tableLinks fib.table ++ restL)
  contents : Contents h stored
  distinct : Distinct stored

/-- The entries that are out keep everything but their counters. -/
structure Heap.Keeps (h h' : Heap) : Prop where
  entries : ∀ a, h.pool.live a = true → ∃ refcount, h'.fibEntry a = { h.fibEntry a with refcount }
  refused : h.pool.refused = true → h'.pool.refused = true

theorem Heap.Step.keeps {h h' : Heap} (step : Heap.Step h h') : Heap.Keeps h h' :=
  ⟨fun a _ => step.entries a, step.refused⟩

/-! ## Links and routes -/

/-- A stored route is linked where it belongs. -/
theorem NodeOk.mem_links {stored : List Stored} {offset v : Nat} {node : Node}
    (aligned : offset % 8 = 0) (ok : NodeOk stored offset v node) {s : Stored} (member : s ∈ stored)
    (relevant : s.route.Relevant offset v) : s.addr ∈ node.links := by
  induction node generalizing offset v with
  | leaf head =>
      rcases relevant with covers | below
      · obtain ⟨entry, here, ptr⟩ := ok.entry_of_covers member covers
        rw [Node.links_eq, ← ptr]
        exact List.mem_append_left _ (List.mem_map_of_mem here)
      · have held : s ∈ belowOf stored offset v := List.mem_filter.mpr ⟨member, by simpa using below⟩
        rw [ok.2] at held
        cases held
  | inner head blk table ih =>
      rcases relevant with covers | below
      · obtain ⟨entry, here, ptr⟩ := ok.entry_of_covers member covers
        rw [Node.links_eq, ← ptr]
        exact List.mem_append_left _ (List.mem_map_of_mem here)
      · obtain ⟨small, next⟩ := lpmIndex_child s.route.bytes aligned
        rw [below.2] at next
        exact mem_inner_links small (ih _ (by omega) (ok.2.2 _ small) (below.child next))

theorem TableOk.mem_links {stored : List Stored} {table : Table} (ok : TableOk stored table)
    {s : Stored} (member : s ∈ stored) : s.addr ∈ tableLinks table := by
  have small : top s.route.bytes 16 < tableSize16 := top_lt s.route.bytes 16
  refine Slots.mem_gather.mpr ⟨_, small, (ok _ small).mem_links rfl member ?_⟩
  by_cases short : s.route.len ≤ 16
  · exact .inl ⟨.inl rfl, short, top_div _ short⟩
  · exact .inr ⟨by omega, rfl⟩

theorem tableOk_nil : TableOk [] fun _ => .leaf [] := fun _ _ => nodeOk_nil _ _

theorem tableBlocks_nil : (tableBlocks fun _ => .leaf []) = [] := Slots.gather_eq_nil fun _ _ => rfl

theorem tableLinks_nil : (tableLinks fun _ => .leaf []) = [] := Slots.gather_eq_nil fun _ _ => rfl

section Calls

variable {h : Heap} {fib : Fib} {stored : List Stored} {restB restL : List Nat}

theorem FibOk.live (ok : FibOk h fib stored restB restL) {s : Stored} (member : s ∈ stored) :
    h.pool.live s.addr = true :=
  (ok.heap.refs s.addr (List.mem_append_left _ (ok.table.mem_links member))).1

/-- A new FIB is empty. -/
theorem fibAlloc_spec {h' : Heap} (heap : HeapOk h restB restL) (made : fibAlloc h = (some fib, h')) :
    FibOk h' fib [] restB restL ∧ Heap.Step h h' ∧ h'.pool.refused = h.pool.refused := by
  rcases answer : h.alloc with ⟨found, h₁⟩
  rw [fibAlloc, answer] at made
  cases found with
  | none => simp at made
  | some blk =>
      simp only [Prod.mk.injEq, Option.some.injEq] at made
      obtain ⟨rfl, rfl⟩ := made
      obtain ⟨taken, -⟩ := heap.alloc_some answer
      obtain ⟨pool, granted, rfl⟩ := Heap.alloc_some answer
      refine ⟨⟨tableOk_nil, ?_, fun s member => (by cases member), List.Pairwise.nil⟩,
        Heap.Step.alloc_some answer, (Pool.alloc_some granted).2.2.1⟩
      rw [tableBlocks_nil, tableLinks_nil]
      exact taken

/-! ## Lookup -/

/-- `fib_lookup` returns the entry of the longest, newest match. -/
theorem fibLookup_spec (ok : FibOk h fib stored restB restL) (dst : Bytes) :
    (fibLookup fib dst = none ∧ Routes.lookup (stored.map Stored.route) dst = none) ∨
      ∃ ptr r, fibLookup fib dst = some ptr ∧
        Routes.lookup (stored.map Stored.route) dst = some r ∧ (h.fibEntry ptr).Holds r := by
  have best := lpmLookup_spec (ok.table _ (top_lt dst 16))
  have routes : Routes.lookup (stored.map Stored.route) dst =
      (rank Stored.len (stored.filter fun s => s.route.Matches dst)).head?.map Stored.route := by
    rw [Routes.lookup, List.filter_map, ← List.head?_map]
    refine congrArg List.head? ?_
    exact (List.map_insertionSort (Before Stored.len) (Before fun r : Route => r.len) Stored.route _
      fun _ _ _ _ => Iff.rfl).symm
  have found : fibLookup fib dst = (lpmLookup fib.table dst).map LpmEntry.ptr := by
    rw [fibLookup]
    cases lpmLookup fib.table dst <;> rfl
  rw [found, best, routes]
  cases first : (rank Stored.len (stored.filter fun s => s.route.Matches dst)).head? with
  | none => exact .inl ⟨rfl, rfl⟩
  | some s =>
      have member : s ∈ stored :=
        (List.mem_filter.mp (mem_rank.mp (List.mem_of_mem_head? first))).1
      exact .inr ⟨s.addr, s.route, rfl, rfl, ok.contents s member⟩

/-! ## Delete -/

theorem fibRouteDelete_absent (ok : FibOk h fib stored restB restL) {k : Key}
    (absent : Absent stored k) : fibRouteDelete fib k.bytes k.len k.id h = (false, fib, h) := by
  rw [fibRouteDelete, lpmDelete_absent ok.table ok.contents absent]

theorem fibRouteDelete_present (ok : FibOk h fib stored restB restL) {k : Key} {t : Stored}
    (member : t ∈ stored) (same : t.route.Same k) :
    ∃ fib' h', fibRouteDelete fib k.bytes k.len k.id h = (true, fib', h') ∧ Heap.Step h h' ∧
      h'.pool.refused = h.pool.refused ∧ fib'.blk = fib.blk ∧
      FibOk h' fib' (stored.filter fun s => ¬ s.route.Same k) restB restL := by
  obtain ⟨table, h', ran, step, quiet, table', heap⟩ :=
    lpmDelete_present ok.table ok.distinct member same ok.heap ok.contents
  refine ⟨{ fib with table }, h', by rw [fibRouteDelete, ran], step, quiet, rfl, table', heap, ?_,
    ok.distinct.filter _⟩
  exact fun s kept => (ok.contents.step step) s (List.mem_filter.mp kept).1

/-- Whether a key is stored is what a deletion would answer. -/
theorem fibRouteDelete_iff (ok : FibOk h fib stored restB restL) (k : Key) :
    (fibRouteDelete fib k.bytes k.len k.id h).1 = true ↔ ¬ Absent stored k := by
  by_cases absent : Absent stored k
  · rw [fibRouteDelete_absent ok absent]
    simp [absent]
  · obtain ⟨t, member, same⟩ := not_absent absent
    obtain ⟨fib', h', ran, -⟩ := fibRouteDelete_present ok member same
    rw [ran]
    simp [absent]

/-! ## Update -/

/-- The allocations an update makes before it links the first node. -/
def allocsBefore (fib : Fib) (k : Key) : Nat := 1 + tablesNeeded fib.table k.bytes k.len

/-- `fib_route_update` of a route. -/
def updateRoute (fib : Fib) (r : Route) (h : Heap) : Bool × Fib × Heap :=
  fibRouteUpdate fib r.family r.type r.bytes r.len r.nexthop r.portIndex r.id h

variable (h fib stored restB restL)

/-- The ways `fib_route_update` ends. -/
inductive UpdateEnd (r : Route) : Bool × Fib × Heap → Prop
  | added {addr : Nat} {fib' : Fib} {h' : Heap} (absent : Absent stored r.toKey)
      (ok : FibOk h' fib' (⟨r, addr⟩ :: stored) restB restL) (same : fib'.blk = fib.blk)
      (keeps : Heap.Keeps h h') (single : h'.pool.doubleFree = h.pool.doubleFree)
      (granted : h.pool.grants (allocsBefore fib r.toKey + slotCount r.len) = true)
      (quiet : h'.pool.refused = h.pool.refused) (made : h.alloc.1 = some addr) :
      UpdateEnd r (true, fib', h')
  | unchanged {h' : Heap} (ok : FibOk h' fib stored restB restL) (keeps : Heap.Keeps h h')
      (single : h'.pool.doubleFree = h.pool.doubleFree)
      (cause : Absent stored r.toKey → r.family ≠ .other →
        h.pool.grants (allocsBefore fib r.toKey + 1) = false ∧ h'.pool.refused = true) :
      UpdateEnd r (false, fib, h')
  | undone {h' : Heap} (absent : Absent stored r.toKey) (known : r.family ≠ .other)
      (ok : FibOk h' fib stored restB restL)
      (keeps : Heap.Keeps h h') (twice : h'.pool.doubleFree = true) (short16 : r.len ≤ 16)
      (first : h.pool.grants (allocsBefore fib r.toKey + 1) = true)
      (short : h.pool.grants (allocsBefore fib r.toKey + slotCount r.len) = false)
      (refused : h'.pool.refused = true) : UpdateEnd r (false, fib, h')
  | partly {addr : Nat} {fib' : Fib} {h' : Heap} (absent : Absent stored r.toKey)
      (known : r.family ≠ .other)
      (linked : addr ∈ tableLinks fib'.table) (fresh : addr ∉ tableLinks fib.table)
      (dangling : h'.pool.live addr = false) (long16 : 16 < r.len)
      (first : h.pool.grants (allocsBefore fib r.toKey + 1) = true)
      (short : h.pool.grants (allocsBefore fib r.toKey + slotCount r.len) = false)
      (refused : h'.pool.refused = true) : UpdateEnd r (false, fib', h')

variable {h fib stored restB restL}

/-- The entry `fib_route_update` makes, before it is linked. -/
theorem newEntry_holds (r : Route) {size : Nat} (known : r.family.bytes = some size) (old : FibEntry) :
    FibEntry.Holds { nexthop := memcpy old.nexthop r.nexthop size
                     prefixBytes := memcpy old.prefixBytes r.bytes size
                     prefixLen := r.len, portIndex := r.portIndex, type := r.type, id := r.id
                     refcount := 0 } r := by
  refine ⟨rfl, rfl, rfl, rfl, fun n same i inside => ?_⟩
  rw [known, Option.some.injEq] at same
  subst same
  exact ⟨if_pos inside, if_pos inside⟩

/-- `fib_route_update` from the filled-in entry on. -/
def linkEntry (fib : Fib) (r : Route) (ptr : Nat) (h : Heap) : Bool × Fib × Heap :=
  match lpmAdd fib.table r.bytes r.len r.id ptr h with
  | (true, table, h) => (true, { fib with table }, h)
  | (false, table, h) => (false, { fib with table }, h.free ptr)

/-- The steps of `fib_route_update`: no block, an unknown family, or an entry to link. -/
theorem updateRoute_cases (fib : Fib) (r : Route) (h : Heap) :
    (∃ h₁, h.alloc = (none, h₁) ∧ updateRoute fib r h = (false, fib, h₁)) ∨
    (∃ ptr h₁, h.alloc = (some ptr, h₁) ∧ r.family = .other ∧ updateRoute fib r h = (false, fib, h₁.free ptr)) ∨
    ∃ ptr h₁ entry, h.alloc = (some ptr, h₁) ∧ r.family ≠ .other ∧ entry.Holds r ∧ entry.refcount = 0 ∧
      updateRoute fib r h = linkEntry fib r ptr (h₁.setEntry ptr entry) := by
  rcases answer : h.alloc with ⟨_ | ptr, h₁⟩
  · exact .inl ⟨h₁, rfl, by rw [updateRoute, fibRouteUpdate, answer]⟩
  cases known : r.family.bytes with
  | none =>
      have other : r.family = .other := by
        revert known
        cases r.family <;> simp [Family.bytes]
      refine .inr (.inl ⟨ptr, h₁, rfl, other, ?_⟩)
      rw [updateRoute, fibRouteUpdate, answer]
      simp only [known]
  | some size =>
      have valid : r.family ≠ .other := by
        intro other
        rw [other] at known
        cases known
      refine .inr (.inr ⟨ptr, h₁, _, rfl, valid, newEntry_holds r known (h₁.fibEntry ptr), rfl, ?_⟩)
      rw [updateRoute, fibRouteUpdate, answer]
      simp only [known]
      rfl

/-- `h'` is `h` with the entry in a new block `ptr` filled in. -/
structure Entered (h : Heap) (ptr : Nat) (h' : Heap) : Prop where
  granted : h.pool.alloc = (some ptr, h'.pool)
  same : ∀ a, a ≠ ptr → h'.fibEntry a = h.fibEntry a

section Entered

variable {ptr : Nat} {h₁ h₂ h' : Heap}

theorem entered_setEntry (answer : h.alloc = (some ptr, h₁)) (entry : FibEntry) :
    Entered h ptr (h₁.setEntry ptr entry) := by
  obtain ⟨pool, granted, rfl⟩ := Heap.alloc_some answer
  exact ⟨granted, fun a ne => Function.update_of_ne ne _ _⟩

theorem Entered.others (entered : Entered h ptr h₂) {a : Nat} (live : h.pool.live a = true) : a ≠ ptr := by
  rintro rfl
  rw [(Pool.alloc_some entered.granted).1] at live
  cases live

theorem Entered.doubleFree (entered : Entered h ptr h₂) : h₂.pool.doubleFree = h.pool.doubleFree :=
  (Pool.alloc_some entered.granted).2.2.2

theorem Entered.refused (entered : Entered h ptr h₂) : h₂.pool.refused = h.pool.refused :=
  (Pool.alloc_some entered.granted).2.2.1

theorem Entered.entries (entered : Entered h ptr h₂)
    (later : ∀ a, ∃ refcount, h'.fibEntry a = { h₂.fibEntry a with refcount }) {a : Nat}
    (live : h.pool.live a = true) : ∃ refcount, h'.fibEntry a = { h.fibEntry a with refcount } := by
  obtain ⟨n, eq⟩ := later a
  exact ⟨n, by rw [eq, entered.same a (entered.others live)]⟩

theorem Entered.keeps (entered : Entered h ptr h₂) (later : Heap.Step h₂ h') : Heap.Keeps h h' :=
  ⟨fun _ live => entered.entries later.entries live, fun was => later.refused (entered.refused.trans was)⟩

/-- What the pool grants after the entry. -/
theorem Entered.grants (entered : Entered h ptr h₂) (k : Key) (n : Nat) :
    h.pool.grants (allocsBefore fib k + n) = h₂.pool.grants (tablesNeeded fib.table k.bytes k.len + n) := by
  have next : allocsBefore fib k + n = tablesNeeded fib.table k.bytes k.len + n + 1 := by
    unfold allocsBefore
    omega
  rw [next]
  exact Pool.grants_some entered.granted _

/-- The new entry stands for its route, the others for theirs. -/
theorem Entered.contents (entered : Entered h ptr h₂) (ok : FibOk h fib stored restB restL) {r : Route}
    (holds : (h₂.fibEntry ptr).Holds r) : Contents h₂ (⟨r, ptr⟩ :: stored) := by
  intro s member
  rcases List.mem_cons.mp member with rfl | member
  · exact holds
  · rw [entered.same s.addr (entered.others (ok.live member))]
    exact ok.contents s member

end Entered

/-- Giving back the entry of an update that failed without linking it. -/
theorem Pending.release {blocks links : List Nat} {ptr : Nat} (heap : HeapOk h blocks links)
    (pending : Pending h blocks links ptr) (fresh : ptr ∉ links) :
    HeapOk (h.free ptr) blocks links ∧ Heap.Step h (h.free ptr) := by
  have owned : HeapOk h (ptr :: blocks) links := by
    refine ⟨List.nodup_cons.mpr ⟨pending.apart, heap.nodup⟩, fun b member => ?_, fun b member => ?_,
      heap.refs⟩
    · rcases List.mem_cons.mp member with rfl | member
      · exact pending.live
      · exact heap.live b member
    · rcases List.mem_cons.mp member with rfl | member
      · exact fresh
      · exact heap.apart b member
  obtain ⟨freed, step, -⟩ := owned.free
  exact ⟨freed, step⟩

/-- Freeing a block that is not out is all that `doubleFree` records. -/
theorem Heap.free_twice {ptr : Nat} (idle : h.pool.live ptr = false) :
    (h.free ptr).pool = { h.pool with doubleFree := true } := by
  simp only [Heap.free, Pool.free, idle]
  rfl

/-- A block that was freed is not out. -/
theorem Heap.free_idle (h : Heap) (ptr : Nat) : (h.free ptr).pool.live ptr = false := by
  simp only [Heap.free, Pool.free]
  split
  · exact Function.update_self _ _ _
  · rename_i idle
    simpa using idle

/-- Linking the entry, and what is made of a failure. -/
theorem linkEntry_spec (ok : FibOk h fib stored restB restL) {r : Route} {ptr : Nat} {h₂ : Heap}
    (valid : r.family ≠ .other) (entered : Entered h ptr h₂)
    (heap₂ : HeapOk h₂ (tableBlocks fib.table ++ fib.blk :: restB) (tableLinks fib.table ++ restL))
    (pending₂ : Pending h₂ (tableBlocks fib.table ++ fib.blk :: restB) (tableLinks fib.table ++ restL) ptr)
    (holds : (h₂.fibEntry ptr).Holds r) (newLink : ptr ∉ tableLinks fib.table ++ restL) :
    UpdateEnd h fib stored restB restL r (linkEntry fib r ptr h₂) := by
  have contents₂ := entered.contents ok holds
  have kept : ∀ {h'}, (∀ a, ∃ refcount, h'.fibEntry a = { h₂.fibEntry a with refcount }) → Contents h' stored := by
    intro h' later s member
    obtain ⟨n, eq⟩ := later s.addr
    rw [eq]
    exact (contents₂ s (List.mem_cons_of_mem _ member)).recount n
  have grants : ∀ n, h.pool.grants (allocsBefore fib r.toKey + n) =
      h₂.pool.grants (tablesNeeded fib.table r.bytes r.len + n) := entered.grants r.toKey
  have spec := lpmAdd_spec ok.table heap₂ pending₂ contents₂ newLink
  simp only [Stored.len] at spec
  rw [linkEntry]
  generalize lpmAdd fib.table r.bytes r.len r.id ptr h₂ = result at spec ⊢
  cases spec with
  | added absent table heap' later enough quiet =>
      refine .added absent ⟨table, heap', contents₂.step later, ?_⟩ rfl (entered.keeps later)
        (later.doubleFree.trans entered.doubleFree) ((grants _).trans enough) (quiet.trans entered.refused)
        (congrArg Prod.fst entered.granted)
      refine List.pairwise_cons.mpr ⟨fun t member both => ?_, ok.distinct⟩
      exact absent t member both.symm
  | unchanged heap' pending' later cause =>
      obtain ⟨freed, back⟩ := pending'.release heap' newLink
      have whole := later.trans back
      refine .unchanged ⟨ok.table, freed, kept whole.entries, ok.distinct⟩ (entered.keeps whole)
        (whole.doubleFree.trans entered.doubleFree) fun absent _ => ?_
      obtain ⟨short, refused⟩ := cause absent
      exact ⟨(grants 1).trans short, back.refused refused⟩
  | undone absent heap' freed later short16 first short refused =>
      -- `lpm_add` has freed the entry with its last link, so this is the second time
      have twice := Heap.free_twice freed
      refine .undone absent valid ⟨ok.table, ?_, kept later.entries, ok.distinct⟩ ?_ ?_ short16
        ((grants 1).trans first) ((grants _).trans short) ?_
      · refine ⟨heap'.nodup, ?_, heap'.apart, ?_⟩
        · rw [twice]
          exact heap'.live
        · rw [twice]
          exact heap'.refs
      · refine ⟨fun a live => entered.entries later.entries live, fun _ => ?_⟩
        rw [twice]
        exact refused
      · rw [twice]
      · rw [twice]
        exact refused
  | partly absent linked later long16 first short refused =>
      refine .partly absent valid linked (fun old => newLink (List.mem_append_left _ old)) (Heap.free_idle _ ptr)
        long16 ((grants 1).trans first) ((grants _).trans short) ?_
      simp only [Heap.free, Pool.free_refused, refused]

/-- **`fib_route_update`** ends in one of four ways, decided by whether the key is
stored and by how many of its allocations the pool would grant. -/
theorem fibRouteUpdate_spec (ok : FibOk h fib stored restB restL) (r : Route) :
    UpdateEnd h fib stored restB restL r (updateRoute fib r h) := by
  rcases updateRoute_cases fib r h with ⟨h₁, answer, ran⟩ | ⟨ptr, h₁, answer, other, ran⟩ |
    ⟨ptr, h₁, entry, answer, valid, holds, unlinked, ran⟩
  · rw [ran]
    have step := Heap.Step.alloc_none answer
    obtain ⟨pool, denied, rfl⟩ := Heap.alloc_none answer
    refine .unchanged ⟨ok.table, (ok.heap.alloc_none answer).1, ok.contents.step step, ok.distinct⟩
      step.keeps step.doubleFree fun _ _ => ⟨?_, (Pool.alloc_none denied).2.1⟩
    rw [allocsBefore, Nat.add_right_comm, Nat.add_comm]
    exact Pool.grants_none denied _
  · rw [ran]
    obtain ⟨taken, -⟩ := ok.heap.alloc_some answer
    obtain ⟨freed, back, -⟩ := taken.free
    have whole := (Heap.Step.alloc_some answer).trans back
    exact .unchanged ⟨ok.table, freed, ok.contents.step whole, ok.distinct⟩ whole.keeps
      whole.doubleFree fun _ valid => absurd other valid
  · rw [ran]
    obtain ⟨taken, -, newLink, -⟩ := ok.heap.alloc_some answer
    obtain ⟨heap₂, pending₂⟩ := taken.setEntry unlinked
    refine linkEntry_spec ok valid (entered_setEntry answer entry) heap₂ pending₂ ?_ newLink
    simp only [Heap.setEntry, Function.update_self]
    exact holds

end Calls

end Ufp.Daemon
