/-
# Ufp.Daemon.FibAccount — the blocks of a FIB, one by one

In any run of `fib_route_update` and `fib_route_delete` on a new FIB, as long as the
pool grants what it is asked for, the blocks that are out are those that were out
before `fib_alloc` and those the FIB owns: its own block, a `fib_entry` for each
route, an `lpm_entry` for each route and each position the route covers, and a next
table for each position with a route below. A `fib_entry` counts the positions its
route covers (`fib_accounting`).

`Accounted` is the invariant of the run, `Account` what it says in terms of the
routes. Deleting the route just added and releasing the FIB are two ways to get
blocks back, and the account says that all of them come back.
-/
import Ufp.Daemon.FibLayout
import Ufp.Daemon.FibLife
import Ufp.Daemon.FibUndo

namespace Ufp.Daemon

open Ufp.Theory

set_option autoImplicit false

instance : DecidablePred Call.Valid
  | .update r => inferInstanceAs (Decidable (r.family ≠ .other))
  | .delete _ => .isTrue trivial

/-- The blocks of a FIB that holds `stored`. -/
def Fib.owned (fib : Fib) (stored : List Stored) : List Nat :=
  fib.blk :: (stored.map Stored.addr ++
    ((tableEntries fib.table).map (fun e => e.2.blk) ++ (tableTables fib.table).map Prod.snd))

/-- What a FIB made in `before` owns, and why. -/
structure Account (before : Heap) (st : FibState) (stored : List Stored) : Prop where
  /-- One `fib_entry` a route, counting the positions the route covers. -/
  entry : ∀ s ∈ stored, (st.heap.fibEntry s.addr).Holds s.route ∧
    (st.heap.fibEntry s.addr).refcount = 2 ^ freeBits s.route.len
  /-- One `lpm_entry` for each route and position. -/
  slots : ((tableEntries st.fib.table).map fun e => (e.1, e.2.ptr)).Perm
    (stored.flatMap fun s => s.route.positions.map fun p => (p, s.addr))
  /-- A next table where, and only where, a route is below. -/
  tables : ∀ p, p ∈ (tableTables st.fib.table).map Prod.fst ↔
    16 ≤ p.1 ∧ p.1 % 8 = 0 ∧ ∃ s ∈ stored, s.route.Below p.1 p.2
  single : ((tableTables st.fib.table).map Prod.fst).Nodup
  pruned : ∀ i < tableSize16, (st.fib.table i).Pruned
  nodup : (st.fib.owned stored).Nodup
  live : ∀ b, st.heap.pool.live b = true ↔ before.pool.live b = true ∨ b ∈ st.fib.owned stored
  apart : ∀ b ∈ st.fib.owned stored, before.pool.live b = false

/-- The FIB holds `stored`, has leaked nothing, and has left alone what was out in
`before`. -/
structure Accounted (before : Heap) (st : FibState) (stored : List Stored) : Prop where
  ok : FibOk st.heap st.fib stored [] []
  addrs : (stored.map Stored.addr).Nodup
  only : ∀ b, st.heap.pool.live b = true → b ∈ tableBlocks st.fib.table ++ [st.fib.blk] ∨
    b ∈ tableLinks st.fib.table ++ [] ∨ before.pool.live b = true
  spared : ∀ b, before.pool.live b = true → ∃ stored, FibOk st.heap st.fib stored [b] []
  doubleFree : st.heap.pool.doubleFree = before.pool.doubleFree

section Account

variable {before : Heap} {st : FibState} {stored : List Stored}

theorem Accounted.exact (acc : Accounted before st stored) :
    Exact (fun b => before.pool.live b = true) st.heap (tableBlocks st.fib.table ++ [st.fib.blk])
      (tableLinks st.fib.table ++ []) :=
  ⟨acc.ok.heap, acc.only⟩

/-- The owned blocks are those of the table, that of the FIB and the entries. -/
theorem owned_perm (fib : Fib) (stored : List Stored) :
    (fib.owned stored).Perm (stored.map Stored.addr ++ (tableBlocks fib.table ++ [fib.blk])) := by
  refine List.perm_middle.symm.trans (List.Perm.append_left _ ?_)
  exact (List.Perm.cons fib.blk (tableBlocks_perm fib.table).symm).trans (List.perm_append_singleton _ _).symm

theorem mem_owned {fib : Fib} {b : Nat} : b ∈ fib.owned stored ↔
    b ∈ stored.map Stored.addr ∨ b ∈ tableBlocks fib.table ++ [fib.blk] := by
  rw [(owned_perm fib stored).mem_iff, List.mem_append]

/-- The linked entries are those of the routes. -/
theorem Accounted.mem_links (acc : Accounted before st stored) {b : Nat} :
    b ∈ tableLinks st.fib.table ↔ b ∈ stored.map Stored.addr := by
  constructor
  · intro linked
    rw [tableLinks_eq] at linked
    obtain ⟨e, listed, rfl⟩ := List.mem_map.mp linked
    have pair := (acc.ok.table.entries_perm acc.addrs).mem_iff.mp (List.mem_map.mpr ⟨e, listed, rfl⟩)
    obtain ⟨s, member, covered⟩ := List.mem_flatMap.mp pair
    obtain ⟨p, -, same⟩ := List.mem_map.mp covered
    exact List.mem_map.mpr ⟨s, member, (Prod.mk.inj same).2⟩
  · intro listed
    obtain ⟨s, member, rfl⟩ := List.mem_map.mp listed
    exact acc.ok.table.mem_links member

theorem Accounted.owned_nodup (acc : Accounted before st stored) : (st.fib.owned stored).Nodup := by
  rw [(owned_perm st.fib stored).nodup_iff, List.nodup_append']
  refine ⟨acc.addrs, acc.ok.heap.nodup, fun b listed owned => ?_⟩
  refine acc.ok.heap.apart b owned (List.mem_append_left _ ?_)
  exact acc.mem_links.mpr listed

theorem Accounted.live_iff (acc : Accounted before st stored) (b : Nat) :
    st.heap.pool.live b = true ↔ before.pool.live b = true ∨ b ∈ st.fib.owned stored := by
  rw [mem_owned]
  constructor
  · intro live
    rcases acc.only b live with block | linked | old
    · exact .inr (.inr block)
    · rw [List.append_nil] at linked
      exact .inr (.inl (acc.mem_links.mp linked))
    · exact .inl old
  · rintro (old | listed | block)
    · obtain ⟨held, ok⟩ := acc.spared b old
      exact ok.heap.live b (List.mem_append_right _ (by simp))
    · obtain ⟨s, member, rfl⟩ := List.mem_map.mp listed
      exact acc.ok.live member
    · exact acc.ok.heap.live b block

/-- Nothing that was out before is owned. -/
theorem Accounted.owned_apart (acc : Accounted before st stored) {b : Nat} (member : b ∈ st.fib.owned stored) :
    before.pool.live b = false := by
  rw [← Bool.not_eq_true]
  intro old
  obtain ⟨held, ok⟩ := acc.spared b old
  rcases mem_owned.mp member with listed | block
  · refine ok.heap.apart b (List.mem_append_right _ (by simp)) (List.mem_append_left _ ?_)
    exact acc.mem_links.mpr listed
  · have nodup := ok.heap.nodup
    rw [← List.singleton_append, ← List.append_assoc, List.nodup_append'] at nodup
    exact nodup.2.2 block List.mem_cons_self

theorem Accounted.account (acc : Accounted before st stored) : Account before st stored where
  entry := fun s member => by
    refine ⟨acc.ok.contents s member, ?_⟩
    have counted := (acc.ok.heap.refs s.addr (List.mem_append_left _ (acc.ok.table.mem_links member))).2
    rw [List.append_nil] at counted
    exact counted.trans (acc.ok.table.count_links acc.addrs member)
  slots := acc.ok.table.entries_perm acc.addrs
  tables := acc.ok.table.mem_tables
  single := tableTables_nodup st.fib.table
  pruned := fun i small => (acc.ok.table i small).pruned (by decide)
  nodup := acc.owned_nodup
  live := acc.live_iff
  apart := fun _ member => acc.owned_apart member

end Account

/-! ## The calls keep the account -/

section Calls

variable {before : Heap} {st : FibState} {stored : List Stored}

theorem accounted_nil {heap : Heap} (made : fibAlloc heap = (some st.fib, st.heap)) : Accounted heap st [] := by
  obtain ⟨ok, step, -⟩ := fibAlloc_spec (heapOk_nil heap) made
  refine ⟨ok, List.nodup_nil, fun b live => ?_, fun b old => ⟨[], ?_⟩, step.doubleFree⟩
  · have exact : Exact (fun b => heap.pool.live b = true) heap [] [] := ⟨heapOk_nil heap, fun b live => .inr (.inr live)⟩
    rcases answer : heap.alloc with ⟨_ | blk, h⟩
    · simp [fibAlloc, answer] at made
    · simp only [fibAlloc, answer, Prod.mk.injEq, Option.some.injEq] at made
      rw [← made.2] at live
      rw [← made.1]
      refine ((exact.alloc_some answer).only b live).imp (fun own => ?_) (Or.imp_left fun linked => by cases linked)
      exact List.mem_append_right _ own
  · refine (fibAlloc_spec ⟨List.nodup_singleton b, ?_, fun _ _ linked => (by cases linked),
      fun _ linked => (by cases linked)⟩ made).1
    intro a member
    rwa [List.mem_singleton.mp member]

variable {fib' : Fib} {h' : Heap} {r : Route} {k : Key}

theorem updateRoute_other {fib : Fib} {h : Heap} (unknown : r.family = .other) : (updateRoute fib r h).1 = false := by
  rcases updateRoute_cases fib r h with ⟨h₁, -, eq⟩ | ⟨ptr, h₁, -, -, eq⟩ | ⟨ptr, h₁, entry, -, known, -⟩
  · rw [eq]
  · rw [eq]
  · exact absurd unknown known

/-- An update that succeeds adds an entry in a block that was free. -/
theorem Accounted.added (acc : Accounted before st stored) {r : Route} {fib' : Fib} {h' : Heap}
    (ran : updateRoute st.fib r st.heap = (true, fib', h')) :
    ∃ addr, Accounted before ⟨fib', h'⟩ (⟨r, addr⟩ :: stored) ∧ Absent stored r.toKey := by
  have owned := updateRoute_owned acc.exact ran
  have spec := fibRouteUpdate_spec acc.ok r
  rw [ran] at spec
  cases spec with
  | @added addr _ _ absent ok' same keeps single granted quiet made =>
      refine ⟨addr, ⟨ok', ?_, owned fun _ b new => ?_, fun b old => ?_, single.trans acc.doubleFree⟩, absent⟩
      · refine List.nodup_cons.mpr ⟨fun listed => ?_, acc.addrs⟩
        obtain ⟨s, member, taken⟩ := List.mem_map.mp listed
        obtain ⟨pool, found, -⟩ := Heap.alloc_some (Prod.ext made rfl : st.heap.alloc = (some addr, _))
        have live := acc.ok.live member
        rw [taken, (Pool.alloc_some found).1] at live
        cases live
      · obtain rfl : addr = b := Option.some.inj (made.symm.trans new)
        exact ok'.table.mem_links List.mem_cons_self
      · obtain ⟨held, ok⟩ := acc.spared b old
        have spec := fibRouteUpdate_spec ok r
        rw [ran] at spec
        cases spec with
        | added absent ok => exact ⟨_, ok⟩

/-- An update that fails, with all its allocations granted, leaves the table alone. -/
theorem Accounted.unchanged (acc : Accounted before st stored)
    (ran : updateRoute st.fib r st.heap = (false, fib', h')) (granted : h'.pool.refused = false) :
    Accounted before ⟨fib', h'⟩ stored ∧ (r.family ≠ .other → ¬ Absent stored r.toKey) := by
  have owned := updateRoute_owned acc.exact ran
  have spec := fibRouteUpdate_spec acc.ok r
  rw [ran] at spec
  cases spec with
  | unchanged ok' keeps single cause =>
      refine ⟨⟨ok', acc.addrs, owned fun failed => Bool.noConfusion failed, fun b old => ?_,
        single.trans acc.doubleFree⟩, fun known absent => ?_⟩
      · obtain ⟨held, ok⟩ := acc.spared b old
        have spec := fibRouteUpdate_spec ok r
        rw [ran] at spec
        cases spec with
        | unchanged ok => exact ⟨_, ok⟩
        | undone absent known ok => exact ⟨_, ok⟩
        | partly absent known linked fresh dangling long16 first short refused => simp [refused] at granted
      · simp [(cause absent known).2] at granted
  | undone absent known ok' keeps twice short16 first short refused => simp [refused] at granted
  | partly absent known linked fresh dangling long16 first short refused => simp [refused] at granted

theorem filter_absent (absent : Absent stored k) : (stored.filter fun s => ¬ s.route.Same k) = stored :=
  List.filter_eq_self.mpr fun s member => by simpa using absent s member

/-- What a deletion does to the FIB and the routes of the account, stored or not. -/
theorem FibOk.deleted {h : Heap} {fib : Fib} {restB restL : List Nat} (ok : FibOk h fib stored restB restL)
    {ret : Bool} (ran : fibRouteDelete fib k.bytes k.len k.id h = (ret, fib', h')) :
    FibOk h' fib' (stored.filter fun s => ¬ s.route.Same k) restB restL ∧ fib'.blk = fib.blk ∧
      h'.pool.doubleFree = h.pool.doubleFree ∧ (ret = true ↔ ¬ Absent stored k) := by
  by_cases absent : Absent stored k
  · rw [fibRouteDelete_absent ok absent] at ran
    obtain ⟨rfl, same⟩ := Prod.mk.inj ran
    obtain ⟨rfl, rfl⟩ := Prod.mk.inj same
    rw [filter_absent absent]
    exact ⟨ok, rfl, rfl, by simp [absent]⟩
  · obtain ⟨t, member, same⟩ := not_absent absent
    obtain ⟨fib₁, h₁, found, step, -, blk, ok'⟩ := fibRouteDelete_present ok member same
    rw [found] at ran
    obtain ⟨rfl, same⟩ := Prod.mk.inj ran
    obtain ⟨rfl, rfl⟩ := Prod.mk.inj same
    exact ⟨ok', blk, step.doubleFree, by simp [absent]⟩

theorem Accounted.deleted (acc : Accounted before st stored) {ret : Bool}
    (ran : fibRouteDelete st.fib k.bytes k.len k.id st.heap = (ret, fib', h')) :
    Accounted before ⟨fib', h'⟩ (stored.filter fun s => ¬ s.route.Same k) ∧ (ret = true ↔ ¬ Absent stored k) := by
  obtain ⟨ok, blk, single, returned⟩ := acc.ok.deleted ran
  have exact := fibRouteDelete_exact acc.exact k
  rw [ran, ← blk] at exact
  refine ⟨⟨ok, ?_, exact.only, fun b old => ?_, single.trans acc.doubleFree⟩, returned⟩
  · exact acc.addrs.sublist (List.filter_sublist.map _)
  · obtain ⟨held, spared⟩ := acc.spared b old
    exact ⟨_, (spared.deleted ran).1⟩

/-- One granted call, next to the same call on the list of routes. -/
theorem Accounted.call (acc : Accounted before st stored) (c : Call)
    (granted : (st.call c).2.heap.pool.refused = false) :
    ∃ stored', Accounted before (st.call c).2 stored' ∧ stored'.map Stored.route =
      if c.Valid then (Routes.call (stored.map Stored.route) c).2 else stored.map Stored.route := by
  cases c with
  | update r =>
      simp only [FibState.call, Routes.call, Routes.update] at granted ⊢
      rcases ran : updateRoute st.fib r st.heap with ⟨_ | _, fib', h'⟩
      · rw [ran] at granted
        obtain ⟨acc', present⟩ := acc.unchanged ran granted
        refine ⟨stored, acc', ?_⟩
        by_cases known : r.family = .other
        · exact (if_neg fun valid => valid known).symm
        · have valid : (Call.update r).Valid := known
          rw [if_pos valid, if_pos (absent_iff.mpr (present known))]
      · obtain ⟨addr, acc', absent⟩ := acc.added ran
        refine ⟨⟨r, addr⟩ :: stored, acc', ?_⟩
        have valid : (Call.update r).Valid := by
          intro unknown
          have failed : (updateRoute st.fib r st.heap).1 = false := updateRoute_other unknown
          rw [ran] at failed
          cases failed
        rw [if_pos valid, if_neg fun present => absent_iff.mp present absent, List.map_cons]
  | delete k =>
      simp only [FibState.call, Routes.call, Routes.delete]
      rcases ran : fibRouteDelete st.fib k.bytes k.len k.id st.heap with ⟨ret, fib', h'⟩
      obtain ⟨acc', -⟩ := acc.deleted ran
      refine ⟨_, acc', ?_⟩
      have valid : (Call.delete k).Valid := trivial
      rw [if_pos valid]
      by_cases absent : Absent stored k
      · rw [if_neg fun present => absent_iff.mp present absent, filter_absent absent]
      · rw [if_pos (absent_iff.mpr absent), List.filter_map]
        rfl

theorem Accounted.run (acc : Accounted before st stored) {calls : List Call} (granted : st.Granted calls) :
    ∃ stored', Accounted before (st.run calls).2 stored' ∧ stored'.map Stored.route =
      (Routes.run (stored.map Stored.route) (calls.filter Call.Valid)).2 := by
  induction calls generalizing st stored with
  | nil => exact ⟨stored, acc, rfl⟩
  | cons c calls ih =>
      obtain ⟨stored₁, acc₁, routes₁⟩ := acc.call c granted.1
      obtain ⟨stored₂, acc₂, routes₂⟩ := ih acc₁ granted.2
      refine ⟨stored₂, acc₂, ?_⟩
      rw [routes₂, routes₁]
      by_cases valid : c.Valid
      · rw [if_pos valid, List.filter_cons_of_pos (by simpa using valid)]
        rfl
      · rw [if_neg valid, List.filter_cons_of_neg (by simpa using valid)]

/-! ## Getting the blocks back -/

/-- Deleting the route just added gives back the table and every block. -/
theorem Accounted.undo (acc : Accounted before st stored) (ran : updateRoute st.fib r st.heap = (true, fib', h')) :
    ∃ h'', fibRouteDelete fib' r.bytes r.len r.id h' = (true, st.fib, h'') ∧
      h''.pool.live = st.heap.pool.live := by
  obtain ⟨addr, acc', absent⟩ := acc.added ran
  obtain ⟨h'', back⟩ := updateRoute_undo acc.ok.table ran
  obtain ⟨acc'', -⟩ := Accounted.deleted (k := r.toKey) acc' back
  have same : ((⟨r, addr⟩ :: stored : List Stored).filter fun s => ¬ s.route.Same r.toKey) = stored := by
    rw [List.filter_cons_of_neg (by simp [Key.Same]), filter_absent absent]
  rw [same] at acc''
  refine ⟨h'', back, funext fun b => Bool.eq_iff_iff.mpr ?_⟩
  rw [acc.live_iff, acc''.live_iff]

/-- Releasing the FIB gives back every block, and each of them once. -/
theorem Accounted.release (acc : Accounted before st stored) :
    (fibRelease st.fib st.heap).pool.live = before.pool.live ∧
      (fibRelease st.fib st.heap).pool.doubleFree = before.pool.doubleFree := by
  obtain ⟨exact, step⟩ := fibRelease_exact acc.exact
  refine ⟨funext fun b => Bool.eq_iff_iff.mpr ⟨fun live => ?_, fun old => ?_⟩,
    step.doubleFree.trans acc.doubleFree⟩
  · rcases exact.only b live with own | linked | old
    · cases own
    · cases linked
    · exact old
  · obtain ⟨held, ok⟩ := acc.spared b old
    exact (fibRelease_spec ok).1.live b List.mem_cons_self

end Calls

/-- **Accounting of a FIB.** In every state that calls on a new FIB lead to, while
the pool grants what they ask for, the account of the routes stored is exact.
Deleting a route just added restores the table and the set of blocks that are out,
and `fib_release` gives back what the FIB took, freeing no block twice. -/
theorem fib_accounting {heap : Heap} {st : FibState} (made : fibAlloc heap = (some st.fib, st.heap))
    {calls : List Call} (granted : st.Granted calls) :
    (∃ stored, stored.map Stored.route = (Routes.run [] (calls.filter Call.Valid)).2 ∧
      Account heap (st.run calls).2 stored) ∧
    (∀ r fib' heap', updateRoute (st.run calls).2.fib r (st.run calls).2.heap = (true, fib', heap') →
      ∃ heap'', fibRouteDelete fib' r.bytes r.len r.id heap' = (true, (st.run calls).2.fib, heap'') ∧
        heap''.pool.live = (st.run calls).2.heap.pool.live) ∧
    (fibRelease (st.run calls).2.fib (st.run calls).2.heap).pool.live = heap.pool.live ∧
    (fibRelease (st.run calls).2.fib (st.run calls).2.heap).pool.doubleFree = heap.pool.doubleFree := by
  obtain ⟨stored, acc, routes⟩ := (accounted_nil made).run granted
  exact ⟨⟨stored, routes, acc.account⟩, fun r fib' heap' ran => acc.undo ran, acc.release⟩

theorem fib_accounting_sample :
    sampleFib.Granted sampleCalls ∧
      (∃ stored, stored.map Stored.route = [sampleRoute 23 1] ∧
        Account (sampleHeap some) (sampleFib.run sampleCalls).2 stored) ∧
      (∃ fib' heap' heap'', updateRoute (sampleFib.run sampleCalls).2.fib (sampleRoute 24 1)
          (sampleFib.run sampleCalls).2.heap = (true, fib', heap') ∧
        fibRouteDelete fib' (sampleRoute 24 1).bytes 24 1 heap' =
          (true, (sampleFib.run sampleCalls).2.fib, heap'')) ∧
      (fibRelease (sampleFib.run sampleCalls).2.fib (sampleFib.run sampleCalls).2.heap).pool.live =
        fun _ => false := by
  have granted : sampleFib.Granted sampleCalls := by
    refine ⟨?_, ?_, ?_, ?_, trivial⟩ <;> decide +kernel
  have made : fibAlloc (sampleHeap some) = (some sampleFib.fib, sampleFib.heap) := rfl
  obtain ⟨account, undo, released, -⟩ := fib_accounting made granted
  have routes : (Routes.run [] (sampleCalls.filter Call.Valid)).2 = [sampleRoute 23 1] := rfl
  rw [routes] at account
  have added : (updateRoute (sampleFib.run sampleCalls).2.fib (sampleRoute 24 1)
      (sampleFib.run sampleCalls).2.heap).1 = true := by decide +kernel
  refine ⟨granted, account, ?_, released⟩
  obtain ⟨heap'', back, -⟩ := undo _ _ _ (Prod.ext added rfl)
  exact ⟨_, _, heap'', Prod.ext added rfl, back⟩

end Ufp.Daemon
