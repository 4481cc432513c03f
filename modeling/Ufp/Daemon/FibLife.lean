/-
# Ufp.Daemon.FibLife — a FIB whose pool may run out

Runs of `fib_alloc`, `fib_route_update`, `fib_route_delete` and `fib_release` in
which any allocation may fail. Two things are asked of an update that fails: that
it leaves the table as it was, and that no `fib_entry` is freed twice or freed
while it is linked.

Neither holds of every update. A route that needs several nodes and loses its
allocation after the first of them is undone by `lpm_add`, whose `entry_put` frees
the entry that `fib_route_update` then frees again; `_lpm_add` undoes nothing and
leaves the nodes it has linked. `AllOrNothing` is the condition, on the call and
the pool before it, that excludes these, and the theorems say that it is exact.
-/
import Ufp.Daemon.FibRefine
import Mathlib.Logic.Relation

namespace Ufp.Daemon

open Ufp.Theory

set_option autoImplicit false

/-! ## Releasing a FIB -/

section Release

variable {other : Nat → Prop} {h : Heap} {blocks links : List Nat}

/-- `lpm_entry_delete_all` gives back the entries of a list. -/
theorem lpmEntryDeleteAll_spec {head : List LpmEntry}
    (ok : Exact other h (head.map LpmEntry.blk ++ blocks) (head.map LpmEntry.ptr ++ links)) :
    Exact other (lpmEntryDeleteAll h head) blocks links ∧ Heap.Step h (lpmEntryDeleteAll h head) := by
  induction head generalizing h with
  | nil => exact ⟨ok, Heap.Step.refl h⟩
  | cons entry rest ih =>
      have put := (HeapOk.put ok.toHeapOk).2.1
      have unlinked := Exact.put ok
      have free := (HeapOk.free unlinked.toHeapOk).2.1
      obtain ⟨done, later⟩ := ih unlinked.free
      exact ⟨done, (put.trans free).trans later⟩

/-- The loop over the nodes of a table, when what is below each of them is given
back. -/
theorem clearNodes_spec {table : Table}
    (below : ∀ i {h : Heap} {blocks links : List Nat},
      Exact other h ((table i).deepBlocks ++ blocks) ((table i).deepLinks ++ links) →
        Exact other (lpmDeleteAllRec (table i) h) blocks links ∧
          Heap.Step h (lpmDeleteAllRec (table i) h))
    {indices : List Nat}
    (ok : Exact other h (indices.flatMap (fun i => (table i).blocks) ++ blocks)
      (indices.flatMap (fun i => (table i).links) ++ links)) :
    let h' := indices.foldl
      (fun h i => lpmEntryDeleteAll (lpmDeleteAllRec (table i) h) (table i).head) h
    Exact other h' blocks links ∧ Heap.Step h h' := by
  induction indices generalizing h with
  | nil => exact ⟨ok, Heap.Step.refl h⟩
  | cons i rest ih =>
      -- the part below the node goes first
      have front : Exact other h ((table i).deepBlocks ++ ((table i).head.map LpmEntry.blk ++
            (rest.flatMap (fun i => (table i).blocks) ++ blocks)))
          ((table i).deepLinks ++ ((table i).head.map LpmEntry.ptr ++
            (rest.flatMap (fun i => (table i).links) ++ links))) := by
        refine ok.perm ?_ ?_
        · rw [List.flatMap_cons, Node.blocks_eq, List.append_assoc, List.append_assoc]
          exact List.perm_append_comm_assoc _ _ _
        · rw [List.flatMap_cons, Node.links_eq, List.append_assoc, List.append_assoc]
          exact List.perm_append_comm_assoc _ _ _
      obtain ⟨cleared, first⟩ := below i front
      obtain ⟨emptied, second⟩ := lpmEntryDeleteAll_spec cleared
      obtain ⟨done, later⟩ := ih emptied
      exact ⟨done, (first.trans second).trans later⟩

theorem lpmDeleteAllRec_spec {node : Node}
    (ok : Exact other h (node.deepBlocks ++ blocks) (node.deepLinks ++ links)) :
    Exact other (lpmDeleteAllRec node h) blocks links ∧ Heap.Step h (lpmDeleteAllRec node h) := by
  induction node generalizing h blocks links with
  | leaf head => exact ⟨ok, Heap.Step.refl h⟩
  | inner head blk table ih =>
      have last : Exact other h ((List.range tableSize8).flatMap (fun i => (table i).blocks) ++
            blk :: blocks)
          ((List.range tableSize8).flatMap (fun i => (table i).links) ++ links) :=
        ok.perm List.perm_middle.symm (List.Perm.refl _)
      obtain ⟨cleared, first⟩ := clearNodes_spec (fun i {_ _ _} => ih i) last
      exact ⟨cleared.free, first.trans (HeapOk.free cleared.toHeapOk).2.1⟩

theorem fibRelease_exact {fib : Fib}
    (ok : Exact other h (tableBlocks fib.table ++ fib.blk :: blocks) (tableLinks fib.table ++ links)) :
    Exact other (fibRelease fib h) blocks links ∧ Heap.Step h (fibRelease fib h) := by
  obtain ⟨cleared, first⟩ := clearNodes_spec (fun i {_ _ _} => lpmDeleteAllRec_spec) ok
  exact ⟨cleared.free, first.trans (HeapOk.free cleared.toHeapOk).2.1⟩

/-- **`fib_release`** gives back all a FIB owns, each block once. -/
theorem fibRelease_spec {fib : Fib} {stored : List Stored} (ok : FibOk h fib stored blocks links) :
    HeapOk (fibRelease fib h) blocks links ∧ Heap.Step h (fibRelease fib h) := by
  obtain ⟨done, step⟩ := fibRelease_exact ok.heap.exact
  exact ⟨done.toHeapOk, step⟩

end Release

/-! ## Runs -/

/-- The owner of a FIB, if it has one, and the heap. -/
structure FibHost where
  fib : Option Fib
  heap : Heap

inductive Op where
  | alloc
  | call (c : Call)
  | release

/-- One step. A call needs a FIB, and `fib_alloc` is called without one. -/
def FibHost.step : FibHost → Op → FibHost
  | ⟨none, h⟩, .alloc =>
      let (fib, h) := fibAlloc h
      ⟨fib, h⟩
  | ⟨some fib, h⟩, .call c =>
      let (_, st) := FibState.call ⟨fib, h⟩ c
      ⟨some st.fib, st.heap⟩
  | ⟨some fib, h⟩, .release => ⟨none, fibRelease fib h⟩
  | st, _ => st

/-- A step whose update, if it is one, meets `P`. -/
def FibHost.Next (P : FibState → Route → Prop) (st st' : FibHost) : Prop :=
  ∃ op, (∀ fib r, st.fib = some fib → op = .call (.update r) → P ⟨fib, st.heap⟩ r) ∧ st' = st.step op

/-- The key of the route is stored, or the pool refuses one of the allocations up
to the one for the first node, or it grants those for all nodes. -/
def FibState.AllOrNothing (st : FibState) (r : Route) : Prop :=
  r.family = .other ∨ (fibRouteDelete st.fib r.bytes r.len r.id st.heap).1 = true ∨
    st.heap.pool.grants (allocsBefore st.fib r.toKey + 1) = false ∨
    st.heap.pool.grants (allocsBefore st.fib r.toKey + slotCount r.len) = true

/-- What holds of the FIB of a host in every run considered. -/
def FibHost.Ok (st : FibHost) : Prop := ∀ fib, st.fib = some fib → ∃ stored, FibOk st.heap fib stored [] []

theorem fibAlloc_none {h h' : Heap} (denied : fibAlloc h = (none, h')) :
    h'.pool.doubleFree = h.pool.doubleFree := by
  rcases answer : h.alloc with ⟨_ | blk, h₁⟩
  · rw [fibAlloc, answer] at denied
    obtain rfl := (Prod.mk.inj denied).2
    exact (Heap.Step.alloc_none answer).doubleFree
  · rw [fibAlloc, answer] at denied
    cases denied

theorem FibHost.step_update (fib : Fib) (h : Heap) (r : Route) :
    FibHost.step ⟨some fib, h⟩ (.call (.update r)) =
      ⟨some (updateRoute fib r h).2.1, (updateRoute fib r h).2.2⟩ := rfl

theorem FibHost.step_delete (fib : Fib) (h : Heap) (k : Key) :
    FibHost.step ⟨some fib, h⟩ (.call (.delete k)) =
      ⟨some (fibRouteDelete fib k.bytes k.len k.id h).2.1,
        (fibRouteDelete fib k.bytes k.len k.id h).2.2⟩ := rfl

section Step

variable {h : Heap} {fib : Fib} {stored : List Stored}

theorem FibOk.host (ok : FibOk h fib stored [] []) : FibHost.Ok ⟨some fib, h⟩ := by
  rintro fib' made
  obtain rfl := Option.some.inj made
  exact ⟨stored, ok⟩

/-- The condition excludes the two bad ends of an update. -/
theorem FibState.AllOrNothing.excludes {r : Route} {restB restL : List Nat}
    (cond : FibState.AllOrNothing ⟨fib, h⟩ r) (ok : FibOk h fib stored restB restL) (absent : Absent stored r.toKey) (known : r.family ≠ .other)
    (first : h.pool.grants (allocsBefore fib r.toKey + 1) = true)
    (short : h.pool.grants (allocsBefore fib r.toKey + slotCount r.len) = false) : False := by
  rcases cond with other | held | none | all
  · exact known other
  · exact (fibRouteDelete_iff ok r.toKey).mp held absent
  · rw [first] at none
    cases none
  · rw [short] at all
    cases all

theorem FibState.allOrNothing_false {r : Route} (ok : FibOk h fib stored [] [])
    (cond : ¬ FibState.AllOrNothing ⟨fib, h⟩ r) :
    r.family ≠ .other ∧ Absent stored r.toKey ∧
      h.pool.grants (allocsBefore fib r.toKey + 1) ≠ false ∧
      h.pool.grants (allocsBefore fib r.toKey + slotCount r.len) ≠ true := by
  simp only [FibState.AllOrNothing, not_or] at cond
  obtain ⟨known, missing, first, short⟩ := cond
  exact ⟨known, by_contra fun held => missing ((fibRouteDelete_iff ok r.toKey).mpr held), first, short⟩

theorem fibRouteDelete_host (ok : FibOk h fib stored [] []) (k : Key) :
    (FibHost.step ⟨some fib, h⟩ (.call (.delete k))).Ok ∧
      (FibHost.step ⟨some fib, h⟩ (.call (.delete k))).heap.pool.doubleFree = h.pool.doubleFree := by
  rw [FibHost.step_delete]
  by_cases absent : Absent stored k
  · rw [fibRouteDelete_absent ok absent]
    exact ⟨ok.host, rfl⟩
  · obtain ⟨t, member, same⟩ := not_absent absent
    obtain ⟨fib', h', ran, step, -, -, ok'⟩ := fibRouteDelete_present ok member same
    rw [ran]
    exact ⟨ok'.host, step.doubleFree⟩

/-- An update that is short, or all or nothing, keeps the table consistent; one
that is all or nothing frees nothing twice. -/
theorem fibRouteUpdate_host (ok : FibOk h fib stored [] []) {r : Route}
    (cond : r.len ≤ 16 ∨ FibState.AllOrNothing ⟨fib, h⟩ r) :
    (FibHost.step ⟨some fib, h⟩ (.call (.update r))).Ok ∧
      (FibState.AllOrNothing ⟨fib, h⟩ r →
        (FibHost.step ⟨some fib, h⟩ (.call (.update r))).heap.pool.doubleFree =
          h.pool.doubleFree) := by
  have spec := fibRouteUpdate_spec ok r
  rw [FibHost.step_update]
  generalize updateRoute fib r h = result at spec ⊢
  cases spec with
  | added absent ok' same keeps single => exact ⟨ok'.host, fun _ => single⟩
  | unchanged ok' keeps single => exact ⟨ok'.host, fun _ => single⟩
  | undone absent known ok' keeps twice short16 first short =>
      exact ⟨ok'.host, fun whole => (whole.excludes ok absent known first short).elim⟩
  | partly absent known linked fresh dangling long16 first short =>
      have whole := cond.resolve_left (by omega)
      exact (whole.excludes ok absent known first short).elim

end Step

/-- One step of a run in which no update ends in the middle of a long route. -/
theorem FibHost.Ok.step {st st' : FibHost} {P : FibState → Route → Prop} (ok : st.Ok)
    (next : FibHost.Next P st st') (enough : ∀ s r, P s r → r.len ≤ 16 ∨ s.AllOrNothing r) :
    st'.Ok ∧ ((∀ s r, P s r → s.AllOrNothing r) →
      st'.heap.pool.doubleFree = st.heap.pool.doubleFree) := by
  obtain ⟨op, allowed, rfl⟩ := next
  obtain ⟨_ | fib, h⟩ := st
  · cases op with
    | alloc =>
        rcases answer : fibAlloc h with ⟨found, h'⟩
        have stepped : FibHost.step ⟨none, h⟩ .alloc = ⟨found, h'⟩ := by
          rw [FibHost.step, answer]
        rw [stepped]
        cases found with
        | none => exact ⟨fun _ made => (by cases made), fun _ => fibAlloc_none answer⟩
        | some fib =>
            obtain ⟨made, step, -⟩ := fibAlloc_spec (heapOk_nil h) answer
            exact ⟨made.host, fun _ => step.doubleFree⟩
    | call c => exact ⟨ok, fun _ => rfl⟩
    | release => exact ⟨ok, fun _ => rfl⟩
  · obtain ⟨stored, good⟩ := ok fib rfl
    cases op with
    | alloc => exact ⟨ok, fun _ => rfl⟩
    | release => exact ⟨fun _ made => (by cases made), fun _ => (fibRelease_spec good).2.doubleFree⟩
    | call c =>
        cases c with
        | delete k =>
            obtain ⟨ok', single⟩ := fibRouteDelete_host good k
            exact ⟨ok', fun _ => single⟩
        | update r =>
            have meets := allowed fib r rfl rfl
            obtain ⟨ok', single⟩ := fibRouteUpdate_host good (enough _ _ meets)
            exact ⟨ok', fun all => single (all _ _ meets)⟩

theorem FibHost.Ok.run {st : FibHost} {heap : Heap} {P : FibState → Route → Prop}
    (run : Relation.ReflTransGen (FibHost.Next P) ⟨none, heap⟩ st)
    (enough : ∀ s r, P s r → r.len ≤ 16 ∨ s.AllOrNothing r) :
    st.Ok ∧ ((∀ s r, P s r → s.AllOrNothing r) →
      st.heap.pool.doubleFree = heap.pool.doubleFree) := by
  induction run with
  | refl => exact ⟨fun _ made => (by cases made), fun _ => rfl⟩
  | tail _ next ih =>
      obtain ⟨ok, single⟩ := ih.1.step next enough
      exact ⟨ok, fun all => (single all).trans (ih.2 all)⟩

/-! ## A failed update leaves the table alone -/

/-- **Atomic updates.** On a FIB reached by updates that were short or all or
nothing, an update that fails leaves every node as it was exactly if it, too, is
short or all or nothing. -/
theorem failed_update_atomic_iff {heap : Heap} {st : FibHost} {fib : Fib}
    (run : Relation.ReflTransGen (FibHost.Next fun s r => r.len ≤ 16 ∨ s.AllOrNothing r)
      ⟨none, heap⟩ st) (owned : st.fib = some fib) (r : Route) :
    ((updateRoute fib r st.heap).1 = false → (updateRoute fib r st.heap).2.1.table = fib.table) ↔
      r.len ≤ 16 ∨ FibState.AllOrNothing ⟨fib, st.heap⟩ r := by
  obtain ⟨stored, ok⟩ := (FibHost.Ok.run run fun _ _ => id).1 fib owned
  have spec := fibRouteUpdate_spec ok r
  by_cases cond : r.len ≤ 16 ∨ FibState.AllOrNothing ⟨fib, st.heap⟩ r
  · refine iff_of_true ?_ cond
    generalize updateRoute fib r st.heap = result at spec ⊢
    cases spec with
    | added => exact fun failed => (by cases failed)
    | unchanged => exact fun _ => rfl
    | undone => exact fun _ => rfl
    | partly absent known linked fresh dangling long16 first short =>
        have whole := cond.resolve_left (by omega)
        exact (whole.excludes ok absent known first short).elim
  · refine iff_of_false (fun atomic => ?_) cond
    obtain ⟨long16, partway⟩ := not_or.mp cond
    obtain ⟨known, absent, first, short⟩ := FibState.allOrNothing_false ok partway
    generalize updateRoute fib r st.heap = result at spec atomic
    cases spec with
    | added absent ok' same keeps single granted => exact short granted
    | unchanged ok' keeps single cause => exact first (cause absent known).1
    | undone absent known ok' keeps twice short16 => exact long16 short16
    | partly absent known linked fresh =>
        rw [atomic rfl] at linked
        exact fresh linked

/-- A host with a new FIB, whose pool refuses allocation `n`. -/
def sampleHost (n : Nat) : FibHost :=
  FibHost.step ⟨none, sampleHeap fun k => if k = n then none else some k⟩ .alloc

/-- The pool refuses the next table of a `/20`: the update fails, and nothing has
changed. -/
theorem failed_update_atomic_sample :
    ∃ fib, (sampleHost 2).fib = some fib ∧
      (updateRoute fib (sampleRoute 20 1) (sampleHost 2).heap).1 = false ∧
      (updateRoute fib (sampleRoute 20 1) (sampleHost 2).heap).2.1.table = fib.table := by
  have run : Relation.ReflTransGen (FibHost.Next fun s r => r.len ≤ 16 ∨ s.AllOrNothing r)
      ⟨none, sampleHeap fun k => if k = 2 then none else some k⟩ (sampleHost 2) :=
    .single ⟨.alloc, fun _ _ owned => (by cases owned), rfl⟩
  refine ⟨⟨0, fun _ => .leaf []⟩, rfl, by decide +kernel, ?_⟩
  refine (failed_update_atomic_iff run rfl (sampleRoute 20 1)).mpr ?_ (by decide +kernel)
  exact .inr (.inr (.inr (.inl (by decide +kernel))))

/-- The pool refuses the second node of a `/20`: the update fails, and the first
node stays linked. -/
theorem failed_update_not_atomic :
    ∃ fib, (sampleHost 4).fib = some fib ∧
      (updateRoute fib (sampleRoute 20 1) (sampleHost 4).heap).1 = false ∧
      (updateRoute fib (sampleRoute 20 1) (sampleHost 4).heap).2.1.table ≠ fib.table := by
  refine ⟨⟨0, fun _ => .leaf []⟩, rfl, by decide +kernel, fun same => ?_⟩
  have node := congrArg (fun table : Table => (table 0x0a01).isEmpty) same
  revert node
  decide +kernel

/-! ## Nothing is freed twice or while it is linked -/

/-- No block has been freed twice, and linked entries are out. -/
def FibHost.Safe (st : FibHost) : Prop :=
  st.heap.pool.doubleFree = false ∧
    ∀ fib, st.fib = some fib → ∀ ptr ∈ tableLinks fib.table, st.heap.pool.live ptr = true

theorem FibHost.Ok.safe {st : FibHost} (ok : st.Ok) (single : st.heap.pool.doubleFree = false) :
    st.Safe := by
  refine ⟨single, fun fib owned ptr linked => ?_⟩
  obtain ⟨stored, good⟩ := ok fib owned
  exact (good.heap.refs ptr (List.mem_append_left _ linked)).1

/-- **Lifetime of `fib_entry`.** In a run whose updates are all or nothing no block
is freed twice and linked entries are out; the next update keeps this exactly if
it, too, is all or nothing. -/
theorem fibEntry_lifetime {heap : Heap} {st : FibHost} (start : heap.pool.doubleFree = false)
    (run : Relation.ReflTransGen (FibHost.Next FibState.AllOrNothing) ⟨none, heap⟩ st) :
    st.Safe ∧ ∀ fib r, st.fib = some fib →
      ((st.step (.call (.update r))).Safe ↔ FibState.AllOrNothing ⟨fib, st.heap⟩ r) := by
  obtain ⟨ok, same⟩ := FibHost.Ok.run run fun _ _ => Or.inr
  have single : st.heap.pool.doubleFree = false := (same fun _ _ => id).trans start
  refine ⟨ok.safe single, fun fib r owned => ?_⟩
  obtain ⟨stored, good⟩ := ok fib owned
  obtain ⟨_, h⟩ := st
  obtain rfl : _ = some fib := owned
  constructor
  · intro safe
    by_contra cond
    obtain ⟨known, absent, first, short⟩ := FibState.allOrNothing_false good cond
    have spec := fibRouteUpdate_spec good r
    rw [FibHost.step_update] at safe
    generalize updateRoute fib r h = result at spec safe
    cases spec with
    | added absent ok' same keeps single granted => exact short granted
    | unchanged ok' keeps single cause => exact first (cause absent known).1
    | undone absent known ok' keeps twice =>
        rw [safe.1] at twice
        cases twice
    | partly absent known linked fresh dangling =>
        have live := safe.2 _ rfl _ linked
        rw [dangling] at live
        cases live
  · intro cond
    obtain ⟨ok', single'⟩ := fibRouteUpdate_host good (.inr cond)
    exact ok'.safe ((single' cond).trans single)

/-- Without the next table of a `/20`, and with all its nodes. -/
theorem fibEntry_lifetime_sample :
    ((sampleHost 2).step (.call (.update (sampleRoute 20 1)))).Safe ∧
      ((sampleHost 99).step (.call (.update (sampleRoute 20 1)))).Safe := by
  have run : ∀ n, Relation.ReflTransGen (FibHost.Next FibState.AllOrNothing)
      ⟨none, sampleHeap fun k => if k = n then none else some k⟩ (sampleHost n) :=
    fun n => .single ⟨.alloc, fun _ _ owned => (by cases owned), rfl⟩
  constructor
  · refine ((fibEntry_lifetime rfl (run 2)).2 _ _ rfl).mpr ?_
    exact .inr (.inr (.inl (by decide +kernel)))
  · refine ((fibEntry_lifetime rfl (run 99)).2 _ _ rfl).mpr ?_
    exact .inr (.inr (.inr (by decide +kernel)))

/-- The pool refuses the second node of a `/15`: its entry is freed twice. With a
`/20` the first node stays linked to a freed entry, and a lookup of `10.1.0.0` returns it. -/
theorem fibEntry_freed_twice_or_linked :
    ¬ ((sampleHost 3).step (.call (.update (sampleRoute 15 1)))).Safe ∧
      ∃ fib ptr, ((sampleHost 4).step (.call (.update (sampleRoute 20 1)))).fib = some fib ∧
        fibLookup fib (fun i => [10, 1].getD i 0) = some ptr ∧
        ((sampleHost 4).step (.call (.update (sampleRoute 20 1)))).heap.pool.live ptr = false := by
  constructor
  · rintro ⟨single, -⟩
    revert single
    decide +kernel
  · exact ⟨_, 1, rfl, by decide +kernel, by decide +kernel⟩

end Ufp.Daemon
