/-
# Ufp.Daemon.ThreadLife — a thread gives back what it took

`thread_process_interrupt` from its first allocation to its last `ufp_mem_free`: the
FIBs, the arrays of neighbour tables and the tables themselves are made one after the
other, the event loop fills and empties them, and the labels at the end undo what has
been done, in the opposite order. Any of the allocations may be refused, also the
`malloc` of the read buffer and the file descriptors, and then the call ends at the
label that fits.

`Custody` is the ownership of the pool while the loop runs: the blocks of both FIBs,
of the neighbour entries and the `fixed` rest are out and distinct, and nothing else
is that was not before. Every call on the tables keeps it, also one that fails, as
long as no route update is stopped halfway (`TableCall.Whole`). With it
`thread_gives_back`: on return the pool is as it was.
-/
import Ufp.Daemon.FibAccount
import Ufp.Daemon.FibFollow
import Ufp.Daemon.NetlinkCalls

namespace Ufp.Daemon

open Ufp.Theory Ufp.Lib.Io

set_option autoImplicit false

/-! ## Giving tables back -/

/-- `hash_delete_all`: every chain is emptied, its entries deleted from the first on. -/
def hashDeleteAll {ε σ : Type} (table : HashTable ε σ) (s : σ) : HashTable ε σ × σ :=
  ({ table with head := fun i => if i < 2 ^ hashBit then [] else table.head i },
    (List.range (2 ^ hashBit)).foldl
      (fun s i => (table.head i).foldl (fun s entry => table.hashEntryDelete entry.owner s) s) s)

/-- `neigh_release`. -/
def neighRelease (neigh : NeighTable) (h : Heap) : Heap := (hashDeleteAll neigh.table h).2.free neigh.blk

/-- The loop at `err_assign_ports`. -/
def portsRelease (portsAssigned : Nat) (neighInet neighInet6 : Nat → NeighTable) (h : Heap) : Heap :=
  (List.range portsAssigned).foldl (fun h i => neighRelease (neighInet i) (neighRelease (neighInet6 i) h)) h

/-- `thread_process_interrupt` from `err_assign_ports` on; `array` and `array6` are the
blocks of `thread->neigh_inet` and `thread->neigh_inet6`. -/
def threadRelease (portsAssigned array array6 : Nat) (thread : UfpdThread) : Heap :=
  let h := portsRelease portsAssigned thread.neighInet thread.neighInet6 thread.heap
  fibRelease thread.fibInet (fibRelease thread.fibInet6 ((h.free array6).free array))

/-! ## Making them -/

/-- The loop over the ports: whether all have their tables, how many do, the tables and
the heap. When the second table of a port is refused, its first one is released. -/
def neighAssign : Nat → Nat → (Nat → NeighTable) → (Nat → NeighTable) → Heap →
    Bool × Nat × (Nat → NeighTable) × (Nat → NeighTable) × Heap
  | 0, i, inet, inet6, h => (true, i, inet, inet6, h)
  | todo + 1, i, inet, inet6, h =>
      match neighAlloc .inet h with
      | (none, h) => (false, i, inet, inet6, h)
      | (some table, h) =>
          match neighAlloc .inet6 h with
          | (none, h) => (false, i, inet, inet6, neighRelease table h)
          | (some table6, h) =>
              neighAssign todo (i + 1) (Function.update inet i table) (Function.update inet6 i table6) h

/-- A thread with its tables, and the blocks of its two arrays. -/
structure Setup (plane : Plane) where
  thread : UfpdThread
  array : Nat
  array6 : Nat
  numPorts : thread.numPorts = plane.numPorts

/-- The state in which `thread_wait` is called. -/
def Setup.start {plane : Plane} (setup : Setup plane) (buf : Buf) (mem : Bytes) : Forwarder :=
  Forwarder.everyPort
    { thread := setup.thread, plane, buf, mem, tap := fun _ => [], numPorts := setup.numPorts } ufpRxAssign

/-- `thread_process_interrupt` up to the read buffer: the tables, or the heap in which it
returns without them. -/
def threadSetup (plane : Plane) (h : Heap) : Except Heap (Setup plane) :=
  match fibAlloc h with
  | (none, h) => .error h
  | (some fibInet, h) =>
      match fibAlloc h with
      | (none, h) => .error (fibRelease fibInet h)
      | (some fibInet6, h) =>
          match h.alloc with
          | (none, h) => .error (fibRelease fibInet (fibRelease fibInet6 h))
          | (some array, h) =>
              match h.alloc with
              | (none, h) => .error (fibRelease fibInet (fibRelease fibInet6 (h.free array)))
              | (some array6, h) =>
                  match neighAssign plane.numPorts 0 (fun _ => neighUnset) (fun _ => neighUnset) h with
                  | (done, portsAssigned, neighInet, neighInet6, heap) =>
                      let thread : UfpdThread :=
                        { numPorts := plane.numPorts
                          tunIndex := fun idx => (plane.ports idx).tapIndex
                          macaddr := fun idx => (plane.ports idx).macAddr
                          fibInet, fibInet6, neighInet, neighInet6, heap }
                      if done then .ok ⟨thread, array, array6, rfl⟩
                      else .error (threadRelease portsAssigned array array6 thread)

/-- `thread_process_interrupt`, as far as the pool goes. `readBuf` and `fds` say whether the
read buffer and the file descriptors could be had; `events` are those before `thread_wait`
returns, because of the last of them or because `epoll_wait` fails. -/
def threadProcessInterrupt (plane : Plane) (buf : Buf) (mem : Bytes) (readBuf fds : Bool)
    (events : List Event) (h : Heap) : Heap :=
  match threadSetup plane h with
  | .error h => h
  | .ok setup =>
      threadRelease plane.numPorts setup.array setup.array6
        (if readBuf && fds then (threadWait events (setup.start buf mem)).2.thread else setup.thread)

/-! ## Blocks of neighbour tables -/

/-- All that a neighbour table has in the pool. -/
def NeighTable.owned (neigh : NeighTable) : List Nat := neigh.blocks ++ [neigh.blk]

/-- The blocks of the tables of the first `n` ports, in the order they are released. -/
def portsOwned (n : Nat) (inet inet6 : Nat → NeighTable) : List Nat :=
  (List.range n).flatMap fun i => (inet6 i).owned ++ (inet i).owned

theorem Fib.blocks_append (fib : Fib) (rest : List Nat) :
    fib.blocks ++ rest = tableBlocks fib.table ++ fib.blk :: rest := by
  rw [Fib.blocks, List.append_assoc, List.singleton_append]

section Exact

variable {other : Nat → Prop} {h h' : Heap} {restB links : List Nat}

theorem Exact.freeStep {b : Nat} (exact : Exact other h (b :: restB) links) :
    Exact other (h.free b) restB links ∧ Heap.Step h (h.free b) := ⟨exact.free, (HeapOk.free exact.toHeapOk).2.1⟩

/-- Blocks that are freed one after the other. -/
theorem Exact.freeAll {bs : List Nat} (exact : Exact other h (bs ++ restB) links) :
    Exact other (bs.foldl Heap.free h) restB links ∧ Heap.Step h (bs.foldl Heap.free h) := by
  induction bs generalizing h with
  | nil => exact ⟨exact, Heap.Step.refl h⟩
  | cons b bs ih =>
      obtain ⟨freed, step⟩ := Exact.freeStep exact
      obtain ⟨done, later⟩ := ih freed
      exact ⟨done, step.trans later⟩

variable {neigh : NeighTable} {inet inet6 : Nat → NeighTable}

theorem hashDeleteAll_heap (plain : neigh.Plain) (h : Heap) :
    (hashDeleteAll neigh.table h).2 = neigh.blocks.foldl Heap.free h := by
  have chain : ∀ (entries : List (HashEntry NeighEntry)) (h : Heap),
      entries.foldl (fun s entry => neigh.table.hashEntryDelete entry.owner s) h =
        (entries.map fun entry => entry.owner.blk).foldl Heap.free h := by
    intro entries h
    rw [List.foldl_map, plain]
    rfl
  unfold NeighTable.blocks Slots.gather
  rw [List.foldl_flatMap]
  simp only [hashDeleteAll, chain]

theorem neighRelease_exact (plain : neigh.Plain) (exact : Exact other h (neigh.owned ++ restB) links) :
    Exact other (neighRelease neigh h) restB links ∧ Heap.Step h (neighRelease neigh h) := by
  rw [neighRelease, hashDeleteAll_heap plain]
  rw [NeighTable.owned, List.append_assoc] at exact
  obtain ⟨emptied, first⟩ := exact.freeAll
  exact ⟨Exact.free emptied, first.trans (HeapOk.free emptied.toHeapOk).2.1⟩

theorem portsRelease_exact {n : Nat} (plain : ∀ i < n, (inet i).Plain ∧ (inet6 i).Plain)
    (exact : Exact other h (portsOwned n inet inet6 ++ restB) links) :
    Exact other (portsRelease n inet inet6 h) restB links ∧ Heap.Step h (portsRelease n inet inet6 h) := by
  have ports : ∀ i ∈ List.range n, (inet i).Plain ∧ (inet6 i).Plain := fun i member =>
    plain i (List.mem_range.mp member)
  unfold portsRelease
  unfold portsOwned at exact
  generalize List.range n = order at ports exact
  induction order generalizing h with
  | nil => exact ⟨exact, Heap.Step.refl h⟩
  | cons i order ih =>
      obtain ⟨⟨first, second⟩, rest⟩ := List.forall_mem_cons.mp ports
      rw [List.flatMap_cons, List.append_assoc, List.append_assoc] at exact
      obtain ⟨six, one⟩ := neighRelease_exact second exact
      obtain ⟨four, two⟩ := neighRelease_exact first six
      obtain ⟨done, later⟩ := ih rest four
      rw [List.foldl_cons]
      exact ⟨done, (one.trans two).trans later⟩

theorem fibRelease_blocks {fib : Fib}
    (exact : Exact other h (fib.blocks ++ restB) (tableLinks fib.table ++ links)) :
    Exact other (fibRelease fib h) restB links ∧ Heap.Step h (fibRelease fib h) := by
  rw [Fib.blocks_append] at exact
  exact fibRelease_exact exact

/-- The labels at the end give back the tables, the arrays and both FIBs. -/
theorem threadRelease_exact {thread : UfpdThread} {n array array6 : Nat}
    (plain : ∀ i < n, (thread.neighInet i).Plain ∧ (thread.neighInet6 i).Plain)
    (exact : Exact other thread.heap (portsOwned n thread.neighInet thread.neighInet6 ++
        array6 :: array :: (thread.fibInet6.blocks ++ (thread.fibInet.blocks ++ restB)))
      (tableLinks thread.fibInet6.table ++ (tableLinks thread.fibInet.table ++ links))) :
    Exact other (threadRelease n array array6 thread) restB links ∧
      Heap.Step thread.heap (threadRelease n array array6 thread) := by
  obtain ⟨ports, one⟩ := portsRelease_exact plain exact
  obtain ⟨arrays6, two⟩ := ports.freeStep
  obtain ⟨arrays, three⟩ := arrays6.freeStep
  obtain ⟨inet6, four⟩ := fibRelease_blocks arrays
  obtain ⟨inet, five⟩ := fibRelease_blocks inet6
  exact ⟨inet, (((one.trans two).trans three).trans four).trans five⟩

/-! ## The ways through the start -/

theorem Exact.fibAlloc_none (exact : Exact other h restB links) (denied : fibAlloc h = (none, h')) :
    Exact other h' restB links ∧ Heap.Step h h' := by
  rcases answer : h.alloc with ⟨_ | blk, h₁⟩
  · rw [fibAlloc, answer] at denied
    obtain rfl := (Prod.mk.inj denied).2
    exact ⟨exact.alloc_none answer, Heap.Step.alloc_none answer⟩
  · rw [fibAlloc, answer] at denied
    cases denied

/-- A new FIB is one block and an empty table. -/
theorem Exact.fibAlloc_some (exact : Exact other h restB links) {fib : Fib}
    (made : fibAlloc h = (some fib, h')) :
    Exact other h' (fib.blocks ++ restB) (tableLinks fib.table ++ links) ∧ Heap.Step h h' ∧
      fib.table = fun _ => .leaf [] := by
  rcases answer : h.alloc with ⟨_ | blk, h₁⟩
  · rw [fibAlloc, answer] at made
    cases made
  · rw [fibAlloc, answer] at made
    simp only [Prod.mk.injEq, Option.some.injEq] at made
    obtain ⟨rfl, rfl⟩ := made
    rw [Fib.blocks, tableBlocks_nil, tableLinks_nil]
    exact ⟨exact.alloc_some answer, Heap.Step.alloc_some answer, rfl⟩

theorem Exact.neighAlloc_none (exact : Exact other h restB links) {family : Family}
    (denied : neighAlloc family h = (none, h')) : Exact other h' restB links ∧ Heap.Step h h' := by
  rcases answer : h.alloc with ⟨_ | blk, h₁⟩
  · rw [neighAlloc, answer] at denied
    obtain rfl := (Prod.mk.inj denied).2
    exact ⟨exact.alloc_none answer, Heap.Step.alloc_none answer⟩
  · rw [neighAlloc, answer] at denied
    have taken := exact.alloc_some answer
    cases family with
    | inet => cases denied
    | inet6 => cases denied
    | other =>
        obtain rfl := (Prod.mk.inj denied).2
        exact ⟨taken.free, (Heap.Step.alloc_some answer).trans (HeapOk.free taken.toHeapOk).2.1⟩

theorem Exact.neighAlloc_some (exact : Exact other h restB links) {family : Family}
    (made : neighAlloc family h = (some neigh, h')) :
    Exact other h' (neigh.owned ++ restB) links ∧ Heap.Step h h' ∧ neigh.Plain := by
  obtain ⟨blk, answer, known⟩ := neighAlloc_cases made
  obtain ⟨-, none⟩ := neighAlloc_bounded made
  refine ⟨?_, Heap.Step.alloc_some answer, ?_⟩
  · rw [NeighTable.owned, none]
    have same : neigh.blk = blk := by rcases known with ⟨-, rfl⟩ | ⟨-, rfl⟩ <;> rfl
    rw [same]
    exact exact.alloc_some answer
  · rcases known with ⟨-, rfl⟩ | ⟨-, rfl⟩ <;> rfl

/-- The tables of one more port. -/
theorem portsOwned_succ (n : Nat) (inet inet6 : Nat → NeighTable) (table table6 : NeighTable) :
    portsOwned (n + 1) (Function.update inet n table) (Function.update inet6 n table6) =
      portsOwned n inet inet6 ++ (table6.owned ++ table.owned) := by
  unfold portsOwned
  have before : (List.range n).flatMap (fun i => (Function.update inet6 n table6 i).owned ++
      (Function.update inet n table i).owned) = (List.range n).flatMap fun i => (inet6 i).owned ++ (inet i).owned := by
    refine List.flatMap_congr fun i member => ?_
    have ne : i ≠ n := Nat.ne_of_lt (List.mem_range.mp member)
    rw [Function.update_of_ne ne, Function.update_of_ne ne]
  rw [List.range_succ, List.flatMap_append, before, List.flatMap_singleton, Function.update_self,
    Function.update_self]

/-- However the loop over the ports ends, the tables it leaves are accounted for. -/
theorem neighAssign_exact {todo i assigned : Nat} {inet' inet6' : Nat → NeighTable} {done : Bool}
    (ran : neighAssign todo i inet inet6 h = (done, assigned, inet', inet6', h'))
    (plain : ∀ j < i, (inet j).Plain ∧ (inet6 j).Plain)
    (exact : Exact other h (portsOwned i inet inet6 ++ restB) links) :
    (Exact other h' (portsOwned assigned inet' inet6' ++ restB) links ∧ Heap.Step h h') ∧
      (∀ j < assigned, (inet' j).Plain ∧ (inet6' j).Plain) ∧ (done = true → assigned = i + todo) := by
  induction todo generalizing i inet inet6 h with
  | zero =>
      simp only [neighAssign, Prod.mk.injEq] at ran
      obtain ⟨-, rfl, rfl, rfl, rfl⟩ := ran
      exact ⟨⟨exact, Heap.Step.refl h⟩, plain, fun _ => rfl⟩
  | succ todo ih =>
      rcases first : neighAlloc .inet h with ⟨_ | table, h₁⟩
      · simp only [neighAssign, first, Prod.mk.injEq] at ran
        obtain ⟨rfl, rfl, rfl, rfl, rfl⟩ := ran
        exact ⟨exact.neighAlloc_none first, plain, fun failed => (by cases failed)⟩
      obtain ⟨four, one, plain4⟩ := exact.neighAlloc_some first
      rcases second : neighAlloc .inet6 h₁ with ⟨_ | table6, h₂⟩
      · simp only [neighAssign, first, second, Prod.mk.injEq] at ran
        obtain ⟨rfl, rfl, rfl, rfl, rfl⟩ := ran
        obtain ⟨kept, two⟩ := four.neighAlloc_none second
        obtain ⟨back, three⟩ := neighRelease_exact plain4 kept
        exact ⟨⟨back, (one.trans two).trans three⟩, plain, fun failed => (by cases failed)⟩
      obtain ⟨six, two, plain6⟩ := four.neighAlloc_some second
      simp only [neighAssign, first, second] at ran
      have more : Exact other h₂ (portsOwned (i + 1) (Function.update inet i table)
          (Function.update inet6 i table6) ++ restB) links := by
        refine six.perm ?_ (List.Perm.refl _)
        rw [portsOwned_succ, ← List.append_assoc, ← List.append_assoc]
        exact List.perm_append_comm.append_right _
      have plain' : ∀ j < i + 1, (Function.update inet i table j).Plain ∧
          (Function.update inet6 i table6 j).Plain := by
        intro j inside
        by_cases here : j = i
        · subst here
          rw [Function.update_self, Function.update_self]
          exact ⟨plain4, plain6⟩
        · rw [Function.update_of_ne here, Function.update_of_ne here]
          exact plain j (by omega)
      obtain ⟨⟨last, step⟩, all, count⟩ := ih ran plain' more
      exact ⟨⟨last, (one.trans two).trans step⟩, all, fun ended => by rw [count ended]; omega⟩

/-- A loop that gets to its end makes the tables of `threadPrepare`. -/
theorem neighAssign_prepared {todo i assigned : Nat} {inet' inet6' : Nat → NeighTable}
    (ran : neighAssign todo i inet inet6 h = (true, assigned, inet', inet6', h')) :
    neighPrepare todo i inet inet6 h = some (inet', inet6', h') := by
  induction todo generalizing i inet inet6 h with
  | zero =>
      simp only [neighAssign, Prod.mk.injEq] at ran
      obtain ⟨-, -, rfl, rfl, rfl⟩ := ran
      rfl
  | succ todo ih =>
      rcases first : neighAlloc .inet h with ⟨_ | table, h₁⟩
      · simp [neighAssign, first] at ran
      rcases second : neighAlloc .inet6 h₁ with ⟨_ | table6, h₂⟩
      · simp [neighAssign, first, second] at ran
      simp only [neighAssign, neighPrepare, first, second] at ran ⊢
      exact ih ran

/-- What the start leaves: nothing taken, or the tables in an exact account. -/
def SetupEnd (other : Nat → Prop) (h : Heap) (restB : List Nat) {plane : Plane} : Except Heap (Setup plane) → Prop
  | .error h' => Exact other h' restB [] ∧ Heap.Step h h'
  | .ok setup =>
      Exact other setup.thread.heap
          (portsOwned plane.numPorts setup.thread.neighInet setup.thread.neighInet6 ++
            setup.array6 :: setup.array :: (setup.thread.fibInet6.blocks ++ (setup.thread.fibInet.blocks ++ restB)))
          (tableLinks setup.thread.fibInet6.table ++ (tableLinks setup.thread.fibInet.table ++ [])) ∧
        Heap.Step h setup.thread.heap ∧
        threadPrepare plane.numPorts (fun idx => (plane.ports idx).tapIndex)
          (fun idx => (plane.ports idx).macAddr) h = some setup.thread

theorem threadSetup_end (plane : Plane) (exact : Exact other h restB []) :
    SetupEnd other h restB (threadSetup plane h) := by
  rcases one : fibAlloc h with ⟨_ | fibInet, h₁⟩
  · simp only [threadSetup, one]
    exact exact.fibAlloc_none one
  obtain ⟨inet, step₁, -⟩ := exact.fibAlloc_some one
  rcases two : fibAlloc h₁ with ⟨_ | fibInet6, h₂⟩
  · simp only [threadSetup, one, two]
    obtain ⟨kept, denied⟩ := inet.fibAlloc_none two
    obtain ⟨back, freed⟩ := fibRelease_blocks kept
    exact ⟨back, (step₁.trans denied).trans freed⟩
  obtain ⟨inet6, step₂, -⟩ := inet.fibAlloc_some two
  have made := step₁.trans step₂
  -- both FIBs go back the way they came
  have fibsBack : ∀ {h' : Heap}, Exact other h' (fibInet6.blocks ++ (fibInet.blocks ++ restB))
      (tableLinks fibInet6.table ++ (tableLinks fibInet.table ++ [])) → Heap.Step h h' →
      Exact other (fibRelease fibInet (fibRelease fibInet6 h')) restB [] ∧
        Heap.Step h (fibRelease fibInet (fibRelease fibInet6 h')) := by
    intro h' kept step
    obtain ⟨first, later⟩ := fibRelease_blocks kept
    obtain ⟨back, last⟩ := fibRelease_blocks first
    exact ⟨back, (step.trans later).trans last⟩
  rcases three : h₂.alloc with ⟨_ | array, h₃⟩
  · simp only [threadSetup, one, two, three]
    exact fibsBack (inet6.alloc_none three) (made.trans (Heap.Step.alloc_none three))
  have taken := inet6.alloc_some three
  have step₃ := made.trans (Heap.Step.alloc_some three)
  rcases four : h₃.alloc with ⟨_ | array6, h₄⟩
  · simp only [threadSetup, one, two, three, four]
    have kept := taken.alloc_none four
    exact fibsBack kept.free ((step₃.trans (Heap.Step.alloc_none four)).trans (HeapOk.free kept.toHeapOk).2.1)
  have taken6 := taken.alloc_some four
  have step₄ := step₃.trans (Heap.Step.alloc_some four)
  rcases five : neighAssign plane.numPorts 0 (fun _ => neighUnset) (fun _ => neighUnset) h₄ with
    ⟨done, assigned, neighInet, neighInet6, heap⟩
  obtain ⟨⟨all, step₅⟩, plain, count⟩ := neighAssign_exact five
    (fun j inside => absurd inside (Nat.not_lt_zero j)) taken6
  simp only [threadSetup, one, two, three, four, five]
  cases done with
  | false =>
      let thread : UfpdThread :=
        { numPorts := plane.numPorts
          tunIndex := fun idx => (plane.ports idx).tapIndex
          macaddr := fun idx => (plane.ports idx).macAddr
          fibInet, fibInet6, neighInet, neighInet6, heap }
      obtain ⟨back, last⟩ := @threadRelease_exact _ _ _ thread _ _ _ plain all
      exact ⟨back, (step₄.trans step₅).trans last⟩
  | true =>
      obtain rfl : assigned = plane.numPorts := (count rfl).trans (Nat.zero_add _)
      refine ⟨all, step₄.trans step₅, ?_⟩
      simp only [threadPrepare, one, two, three, four, neighAssign_prepared five]

end Exact

/-! ## Custody of the blocks while the loop runs -/

/-- A route update is not stopped between its first and its last node. -/
def TableCall.Whole (thread : UfpdThread) : TableCall → Prop
  | .routeUpdate r => ∀ fib, thread.fib r.family = some fib → FibState.AllOrNothing ⟨fib, thread.heap⟩ r
  | _ => True

/-- The blocks of the `struct neigh_table`s. -/
def UfpdThread.tableBlks (thread : UfpdThread) : List Nat :=
  Slots.gather thread.numPorts (fun neigh => [neigh.blk]) thread.neighInet ++
    Slots.gather thread.numPorts (fun neigh => [neigh.blk]) thread.neighInet6

/-- What is out and belongs to neither FIB. -/
def UfpdThread.others (thread : UfpdThread) (fixed : List Nat) : List Nat :=
  thread.neighBlocks ++ (thread.tableBlks ++ fixed)

/-- The FIBs, the neighbour tables and `fixed` are out, each block once, and nothing else
but what satisfies `other`. -/
structure Custody (other : Nat → Prop) (fixed : List Nat) (thread : UfpdThread) : Prop where
  exact : Exact other thread.heap (thread.fibInet.blocks ++ (thread.fibInet6.blocks ++ thread.others fixed))
    (tableLinks thread.fibInet.table ++ tableLinks thread.fibInet6.table)
  fibs : ∃ stored stored', Shared thread.heap thread.fibInet thread.fibInet6 stored stored' (thread.others fixed)
  neighs : ∀ port < thread.numPorts, ((thread.neighInet port).Ok 4 ∧ (thread.neighInet port).Bounded) ∧
    (thread.neighInet6 port).Ok 16 ∧ (thread.neighInet6 port).Bounded

section Fib

variable {other : Nat → Prop} {h : Heap} {fib : Fib} {stored : List Stored} {restB restL : List Nat}

/-- What a call on one FIB leaves, whoever owns the rest of the pool. -/
structure FibDone (other : Nat → Prop) (h h' : Heap) (fib' : Fib) (restB restL : List Nat) : Prop where
  ok : ∃ stored, FibOk h' fib' stored restB restL
  exact : Exact other h' (tableBlocks fib'.table ++ fib'.blk :: restB) (tableLinks fib'.table ++ restL)
  keeps : Heap.Keeps h h'
  single : h'.pool.doubleFree = h.pool.doubleFree

theorem FibDone.refl (ok : FibOk h fib stored restB restL)
    (exact : Exact other h (tableBlocks fib.table ++ fib.blk :: restB) (tableLinks fib.table ++ restL)) :
    FibDone other h h fib restB restL :=
  ⟨⟨stored, ok⟩, exact, (Heap.Step.refl h).keeps, rfl⟩

/-- An update that is all or nothing, whether it succeeds or not. -/
theorem updateRoute_done (ok : FibOk h fib stored restB restL)
    (exact : Exact other h (tableBlocks fib.table ++ fib.blk :: restB) (tableLinks fib.table ++ restL))
    {r : Route} (whole : FibState.AllOrNothing ⟨fib, h⟩ r) :
    FibDone other h (updateRoute fib r h).2.2 (updateRoute fib r h).2.1 restB restL := by
  have spec := fibRouteUpdate_spec ok r
  rcases ran : updateRoute fib r h with ⟨ret, fib', h'⟩
  have owned := updateRoute_owned exact ran
  rw [ran] at spec
  cases spec with
  | @added addr _ _ absent ok' same keeps single granted quiet made =>
      refine ⟨⟨_, ok'⟩, ⟨ok'.heap, owned fun _ b new => ?_⟩, keeps, single⟩
      obtain rfl : addr = b := Option.some.inj (made.symm.trans new)
      exact ok'.table.mem_links List.mem_cons_self
  | unchanged ok' keeps single cause =>
      exact ⟨⟨_, ok'⟩, ⟨ok'.heap, owned fun failed => by cases failed⟩, keeps, single⟩
  | undone absent known ok' keeps twice short16 first short =>
      exact (whole.excludes ok absent known first short).elim
  | partly absent known linked fresh dangling long16 first short =>
      exact (whole.excludes ok absent known first short).elim

theorem fibRouteDelete_done (ok : FibOk h fib stored restB restL)
    (exact : Exact other h (tableBlocks fib.table ++ fib.blk :: restB) (tableLinks fib.table ++ restL)) (k : Key) :
    FibDone other h (fibRouteDelete fib k.bytes k.len k.id h).2.2 (fibRouteDelete fib k.bytes k.len k.id h).2.1
      restB restL := by
  by_cases absent : Absent stored k
  · rw [fibRouteDelete_absent ok absent]
    exact .refl ok exact
  · obtain ⟨t, member, same⟩ := not_absent absent
    obtain ⟨fib', h', ran, step, -, blk, ok'⟩ := fibRouteDelete_present ok member same
    have exact' := fibRouteDelete_exact exact k
    rw [ran, ← blk] at exact'
    rw [ran]
    exact ⟨⟨_, ok'⟩, exact', step.keeps, step.doubleFree⟩

end Fib

namespace Custody

variable {other : Nat → Prop} {fixed : List Nat} {thread : UfpdThread} {family : Family} {fib fib' : Fib}
  {heap : Heap} {port : Nat} {neigh neigh' : NeighTable}

/-- A call on the FIB of a family. -/
theorem setFib (acc : Custody other fixed thread) (here : thread.fib family = some fib)
    (done : ∀ {stored restB restL}, FibOk thread.heap fib stored restB restL →
      Exact other thread.heap (tableBlocks fib.table ++ fib.blk :: restB) (tableLinks fib.table ++ restL) →
      FibDone other thread.heap heap fib' restB restL) :
    Custody other fixed (thread.setFib family fib' heap) ∧ heap.pool.doubleFree = thread.heap.pool.doubleFree := by
  obtain ⟨exact, ⟨stored, stored', both⟩, neighs⟩ := acc
  cases family with
  | inet =>
      obtain rfl := Option.some.inj here
      rw [Fib.blocks_append] at exact
      obtain ⟨⟨new, ok⟩, exact', keeps, single⟩ := done both.first exact
      refine ⟨⟨?_, ⟨new, stored', both.of_call ok keeps⟩, neighs⟩, single⟩
      show Exact other heap (fib'.blocks ++ _) _
      rw [Fib.blocks_append]
      exact exact'
  | inet6 =>
      obtain rfl := Option.some.inj here
      have swapped := exact.perm (List.perm_append_comm_assoc _ _ _) List.perm_append_comm
      rw [Fib.blocks_append] at swapped
      obtain ⟨⟨new, ok⟩, exact', keeps, single⟩ := done both.second swapped
      refine ⟨⟨?_, ⟨stored, new, (both.symm.of_call ok keeps).symm⟩, neighs⟩, single⟩
      rw [← Fib.blocks_append] at exact'
      exact exact'.perm (List.perm_append_comm_assoc _ _ _) List.perm_append_comm
  | other => cases here

theorem setFib_heap (here : thread.fib family = some fib) : (thread.setFib family fib' heap).heap = heap := by
  cases family with
  | inet => rfl
  | inet6 => rfl
  | other => cases here

/-- A table that keeps its block keeps its place among the table blocks. -/
theorem tableBlks_setNeigh (here : thread.neigh port family = some neigh) (same : neigh'.blk = neigh.blk) :
    (thread.setNeigh port family neigh' heap).tableBlks = thread.tableBlks := by
  have swap : ∀ tables : Nat → NeighTable, (tables port).blk = neigh'.blk → ∀ n,
      Slots.gather n (fun neigh => [neigh.blk]) (Function.update tables port neigh') =
        Slots.gather n (fun neigh => [neigh.blk]) tables := by
    intro tables known n
    refine List.flatMap_congr fun i _ => ?_
    by_cases this : i = port
    · subst this
      simp only [Function.update_self, known]
    · rw [Function.update_of_ne this]
  cases family with
  | inet =>
      obtain rfl := Option.some.inj here
      exact congrArg (· ++ _) (swap thread.neighInet same.symm _)
  | inet6 =>
      obtain rfl := Option.some.inj here
      exact congrArg (_ ++ ·) (swap thread.neighInet6 same.symm _)
  | other => cases here

/-- The entries of one neighbour table among those of all. -/
theorem neighBlocks_split (inside : port < thread.numPorts) (here : thread.neigh port family = some neigh) :
    ∃ rest, thread.neighBlocks.Perm (neigh.blocks ++ rest) ∧
      ∀ neigh' heap, (thread.setNeigh port family neigh' heap).neighBlocks.Perm (neigh'.blocks ++ rest) := by
  cases family with
  | inet =>
      obtain rfl := Option.some.inj here
      refine ⟨_, ((Slots.gather_perm inside).append_right _).trans (by rw [List.append_assoc]), ?_⟩
      intro neigh' heap
      refine ((Slots.gather_update inside neigh').append_right _).trans ?_
      rw [List.append_assoc]
      exact List.Perm.refl _
  | inet6 =>
      obtain rfl := Option.some.inj here
      refine ⟨_, ((Slots.gather_perm inside).append_left _).trans (List.perm_append_comm_assoc _ _ _), ?_⟩
      intro neigh' heap
      exact ((Slots.gather_update inside neigh').append_left _).trans (List.perm_append_comm_assoc _ _ _)
  | other => cases here

end Custody

/-- What a call on a neighbour table leaves: the table in its block, and the entry that
came or went. -/
structure NeighMoved (n : Nat) (other : Nat → Prop) (h h' : Heap) (neigh neigh' : NeighTable) : Prop where
  ok : neigh'.Ok n
  bounded : neigh'.Bounded
  blk : neigh'.blk = neigh.blk
  exact : ∀ {restB links : List Nat}, Exact other h (neigh.blocks ++ restB) links →
    Exact other h' (neigh'.blocks ++ restB) links ∧ Heap.Step h h'

section Neigh

variable {n : Nat} {other : Nat → Prop} {neigh : NeighTable} {family : Family} (ok : neigh.Ok n)
  (bounded : neigh.Bounded) (dst mac : Bytes) (h : Heap)

include ok bounded

theorem neighAdd_moved (size : family.bytes = some n) :
    NeighMoved n other h (neighAdd neigh family dst mac h).2.2 neigh (neighAdd neigh family dst mac h).2.1 := by
  rcases neighAdd_cases ok size dst mac h with
    ⟨h', denied, run⟩ | ⟨blk, h', answer, ⟨bound, run⟩ | ⟨free, run⟩⟩
  · rw [run]
    exact ⟨ok, bounded, rfl, fun exact => ⟨exact.alloc_none denied, Heap.Step.alloc_none denied⟩⟩
  · rw [run]
    refine ⟨ok, bounded, rfl, fun exact => ?_⟩
    have taken := exact.alloc_some answer
    exact ⟨taken.free, (Heap.Step.alloc_some answer).trans (HeapOk.free taken.toHeapOk).2.1⟩
  · have added : (neighAdd neigh family dst mac h).1 = true := by rw [run]
    obtain ⟨done, blk', answer', more⟩ := neighAdd_done ok bounded size added
    refine ⟨done.ok, done.bounded, by rw [run]; rfl, fun exact => ⟨?_, Heap.Step.alloc_some answer'⟩⟩
    exact (exact.alloc_some answer').perm (more.append_right _).symm (List.Perm.refl _)

theorem neighDelete_moved :
    NeighMoved n other h (neighDelete neigh dst h).2.2 neigh (neighDelete neigh dst h).2.1 := by
  rcases neighDelete_cases ok dst h with ⟨absent, run⟩ | ⟨target, found, run⟩
  · rw [run]
    exact ⟨ok, bounded, rfl, fun exact => ⟨exact, Heap.Step.refl h⟩⟩
  · have deleted : (neighDelete neigh dst h).1 = true := by rw [run]
    obtain ⟨done, blk, freed, less⟩ := neighDelete_done ok bounded deleted
    refine ⟨done.ok, done.bounded, by rw [run]; rfl, fun exact => ?_⟩
    have front := exact.perm (less.append_right _) (List.Perm.refl _)
    rw [freed]
    exact ⟨Exact.free front, (HeapOk.free front.toHeapOk).2.1⟩

end Neigh

/-- Both FIBs stay as they are while the rest of the pool changes. -/
theorem Shared.step {h h' : Heap} {fib fib' : Fib} {stored stored' : List Stored} {rest rest' : List Nat}
    (both : Shared h fib fib' stored stored' rest) (step : Heap.Step h h')
    (heap : HeapOk h' (fib.blocks ++ (fib'.blocks ++ rest')) (tableLinks fib.table ++ tableLinks fib'.table)) :
    Shared h' fib fib' stored stored' rest' := by
  have swapped := heap.perm (List.perm_append_comm_assoc _ _ _) List.perm_append_comm
  rw [Fib.blocks_append] at heap swapped
  exact ⟨⟨both.first.table, heap, both.first.contents.step step, both.first.distinct⟩,
    ⟨both.second.table, swapped, both.second.contents.step step, both.second.distinct⟩⟩

namespace Custody

variable {other : Nat → Prop} {fixed : List Nat} {thread : UfpdThread} {family : Family}
  {heap : Heap} {port : Nat} {neigh neigh' : NeighTable}

/-- A call on the neighbour table of a port. -/
theorem setNeigh (acc : Custody other fixed thread) {n : Nat} (inside : port < thread.numPorts)
    (size : family.bytes = some n) (here : thread.neigh port family = some neigh)
    (moved : NeighMoved n other thread.heap heap neigh neigh') :
    Custody other fixed (thread.setNeigh port family neigh' heap) ∧
      heap.pool.doubleFree = thread.heap.pool.doubleFree := by
  obtain ⟨rest, before, after⟩ := neighBlocks_split inside here
  obtain ⟨ports, -, same⟩ := thread.setNeigh_frame port size neigh' heap
  have fibs : (thread.setNeigh port family neigh' heap).fibInet = thread.fibInet ∧
      (thread.setNeigh port family neigh' heap).fibInet6 = thread.fibInet6 := by
    cases family with
    | inet => exact ⟨rfl, rfl⟩
    | inet6 => exact ⟨rfl, rfl⟩
    | other => cases size
  -- the entries of this table to the front, and back once they have changed
  have listed : ∀ {blocks entries : List Nat}, blocks.Perm (entries ++ rest) →
      (thread.fibInet.blocks ++ (thread.fibInet6.blocks ++ (blocks ++ (thread.tableBlks ++ fixed)))).Perm
        (entries ++ (thread.fibInet.blocks ++ (thread.fibInet6.blocks ++ (rest ++ (thread.tableBlks ++ fixed))))) := by
    refine fun split => List.perm_iff_count.mpr fun b => ?_
    have here := List.perm_iff_count.mp split b
    simp only [List.count_append] at here ⊢
    omega
  obtain ⟨exact', step⟩ := moved.exact (acc.exact.perm (listed before) (List.Perm.refl _))
  have exact'' := exact'.perm (listed (after neigh' heap)).symm (List.Perm.refl _)
  obtain ⟨stored, stored', both⟩ := acc.fibs
  refine ⟨⟨?_, ⟨stored, stored', ?_⟩, ?_⟩, step.doubleFree⟩
  · rw [fibs.1, fibs.2, same, UfpdThread.others, tableBlks_setNeigh here moved.blk]
    exact exact''
  · rw [fibs.1, fibs.2, same, UfpdThread.others, tableBlks_setNeigh here moved.blk]
    exact both.step step exact''.toHeapOk
  · intro port' less
    rw [ports] at less
    have known := acc.neighs port' less
    have update : ∀ {tables : Nat → NeighTable}, (tables port').Ok n ∧ (tables port').Bounded →
        (Function.update tables port neigh' port').Ok n ∧ (Function.update tables port neigh' port').Bounded := by
      intro tables old
      by_cases this : port' = port
      · rw [this, Function.update_self]
        exact ⟨moved.ok, moved.bounded⟩
      · rwa [Function.update_of_ne this]
    cases family with
    | inet =>
        obtain rfl := Option.some.inj size
        exact ⟨update known.1, known.2⟩
    | inet6 =>
        obtain rfl := Option.some.inj size
        exact ⟨known.1, update known.2⟩
    | other => cases size

/-- The table of a port and a family. -/
theorem neigh_at (acc : Custody other fixed thread) (inside : port < thread.numPorts)
    (here : thread.neigh port family = some neigh) :
    ∃ n, family.bytes = some n ∧ neigh.Ok n ∧ neigh.Bounded := by
  obtain ⟨inet, inet6⟩ := acc.neighs port inside
  cases family with
  | inet =>
      obtain rfl := Option.some.inj here
      exact ⟨4, rfl, inet⟩
  | inet6 =>
      obtain rfl := Option.some.inj here
      exact ⟨16, rfl, inet6⟩
  | other => cases here

/-- Every call on the tables keeps the custody, whether it succeeds or not. -/
theorem call (acc : Custody other fixed thread) {c : TableCall} (ok : c.Ok thread.numPorts)
    (whole : c.Whole thread) :
    Custody other fixed (thread.call c).2 ∧
      (thread.call c).2.heap.pool.doubleFree = thread.heap.pool.doubleFree := by
  cases c with
  | routeUpdate r =>
      simp only [UfpdThread.call]
      split
      · exact ⟨acc, rfl⟩
      · rename_i fib here
        rw [setFib_heap here]
        exact acc.setFib here fun {stored restB restL} fibOk exact => updateRoute_done fibOk exact (whole fib here)
  | routeDelete family k =>
      simp only [UfpdThread.call]
      split
      · exact ⟨acc, rfl⟩
      · rename_i fib here
        rw [setFib_heap here]
        exact acc.setFib here fun {stored restB restL} fibOk exact => fibRouteDelete_done fibOk exact k
  | neighAdd family port dst mac =>
      simp only [UfpdThread.call]
      split
      · exact ⟨acc, rfl⟩
      · rename_i neigh here
        obtain ⟨n, size, neighOk, bounded⟩ := acc.neigh_at ok here
        rw [(thread.setNeigh_frame port size _ _).2.2]
        exact acc.setNeigh ok size here (neighAdd_moved neighOk bounded dst mac thread.heap size)
  | neighDelete family port dst =>
      simp only [UfpdThread.call]
      split
      · exact ⟨acc, rfl⟩
      · rename_i neigh here
        obtain ⟨n, size, neighOk, bounded⟩ := acc.neigh_at ok here
        rw [(thread.setNeigh_frame port size _ _).2.2]
        exact acc.setNeigh ok size here (neighDelete_moved neighOk bounded dst thread.heap)

/-- The tables of a thread, listed in the order they are released. -/
theorem portsOwned_perm (thread : UfpdThread) :
    (portsOwned thread.numPorts thread.neighInet thread.neighInet6).Perm
      (thread.neighBlocks ++ thread.tableBlks) := by
  have each : ∀ tables : Nat → NeighTable, ((List.range thread.numPorts).flatMap fun i => (tables i).owned).Perm
      (Slots.gather thread.numPorts NeighTable.blocks tables ++
        Slots.gather thread.numPorts (fun neigh => [neigh.blk]) tables) :=
    fun tables => (List.flatMap_append_perm _ _ _).symm
  refine (List.flatMap_append_perm _ _ _).symm.trans (((each _).append (each _)).trans ?_)
  unfold UfpdThread.neighBlocks UfpdThread.tableBlks
  exact List.perm_iff_count.mpr fun b => by simp only [List.count_append]; omega

/-- The blocks in the order the thread took them, and in the order of its custody. -/
theorem blocks_perm (thread : UfpdThread) (array array6 : Nat) (restB : List Nat) :
    (portsOwned thread.numPorts thread.neighInet thread.neighInet6 ++
        array6 :: array :: (thread.fibInet6.blocks ++ (thread.fibInet.blocks ++ restB))).Perm
      (thread.fibInet.blocks ++ (thread.fibInet6.blocks ++ thread.others (array6 :: array :: restB))) := by
  refine List.perm_iff_count.mpr fun b => ?_
  have ports := List.perm_iff_count.mp (portsOwned_perm thread) b
  simp only [UfpdThread.others, List.count_append, List.count_cons] at ports ⊢
  omega

end Custody

/-! ## The whole call -/

section Whole

variable {other : Nat → Prop} {h : Heap} {restB : List Nat} {plane : Plane}

/-- The tables a thread starts with are in its custody. -/
theorem SetupEnd.custody {setup : Setup plane} (ended : SetupEnd other h restB (.ok setup)) :
    Custody other (setup.array6 :: setup.array :: restB) setup.thread := by
  obtain ⟨exact, -, made⟩ := ended
  obtain ⟨⟨ports, -⟩, fresh, fibs⟩ := threadPrepare_spec made
  have bounded := threadPrepare_neighs made
  rw [← ports, List.append_nil] at exact
  have exact' := exact.perm (Custody.blocks_perm _ _ _ _) List.perm_append_comm
  refine ⟨exact', ⟨[], [], (Shared.of_fibsOk fibs).step (Heap.Step.refl _) exact'.toHeapOk⟩, ?_⟩
  intro port inside
  rw [ports] at inside
  obtain ⟨four, six⟩ := fresh port inside
  exact ⟨⟨four.1, (bounded port inside).1.1⟩, six.1, (bounded port inside).2.1⟩

theorem Custody.release {fixed : List Nat} {thread : UfpdThread} {array array6 : Nat}
    (acc : Custody other (array6 :: array :: fixed) thread) :
    Exact other (threadRelease thread.numPorts array array6 thread) fixed [] ∧
      Heap.Step thread.heap (threadRelease thread.numPorts array array6 thread) := by
  refine threadRelease_exact (fun i inside => ?_) ?_
  · obtain ⟨inet, inet6⟩ := acc.neighs i inside
    exact ⟨inet.1.delete, inet6.1.delete⟩
  · rw [List.append_nil]
    exact acc.exact.perm (Custody.blocks_perm _ _ _ _).symm List.perm_append_comm

theorem threadProcessInterrupt_exact {buf : Buf} {mem : Bytes} (readBuf fds : Bool) {events : List Event}
    (whole : ∀ setup, threadSetup plane h = .ok setup → CallsAlong TableCall.Whole events (setup.start buf mem))
    (exact : Exact other h restB []) :
    Exact other (threadProcessInterrupt plane buf mem readBuf fds events h) restB [] ∧
      (threadProcessInterrupt plane buf mem readBuf fds events h).pool.doubleFree = h.pool.doubleFree := by
  have ended := threadSetup_end plane exact
  unfold threadProcessInterrupt
  cases began : threadSetup plane h with
  | error h' =>
      rw [began] at ended
      exact ⟨ended.1, ended.2.doubleFree⟩
  | ok setup =>
      rw [began] at ended
      -- what the release needs, wherever the thread has got to
      let Held (thread : UfpdThread) : Prop := Custody other (setup.array6 :: setup.array :: restB) thread ∧
        thread.heap.pool.doubleFree = h.pool.doubleFree ∧ thread.numPorts = plane.numPorts
      have start : Held setup.thread := ⟨ended.custody, ended.2.1.doubleFree, setup.numPorts⟩
      have finish : ∀ thread, Held thread →
          Exact other (threadRelease plane.numPorts setup.array setup.array6 thread) restB [] ∧
            (threadRelease plane.numPorts setup.array setup.array6 thread).pool.doubleFree = h.pool.doubleFree := by
        rintro thread ⟨acc, single, ports⟩
        rw [← ports]
        exact ⟨acc.release.1, acc.release.2.doubleFree.trans single⟩
      dsimp only
      split_ifs
      · refine finish _ (threadWait_tables (I := Held) (fun thread c holds ok meets => ?_) ?_ (whole setup began))
        · obtain ⟨acc, single, ports⟩ := holds
          obtain ⟨acc', single'⟩ := acc.call ok meets
          exact ⟨acc', single'.trans single, (thread.call_numPorts c).trans ports⟩
        · rw [Setup.start, Forwarder.everyPort_thread]
          exact start
      · exact finish _ start

end Whole

/-- **A thread gives back what it took.** Whatever is refused while
`thread_process_interrupt` sets up, and whatever its event loop is woken by, as long as
no route update is stopped halfway: when it returns, the blocks of the pool that are out
are those that were out before, and it has freed none twice. -/
theorem thread_gives_back (plane : Plane) (buf : Buf) (mem : Bytes) (readBuf fds : Bool) (events : List Event)
    (h : Heap) (whole : ∀ setup, threadSetup plane h = .ok setup →
      CallsAlong TableCall.Whole events (setup.start buf mem)) :
    (threadProcessInterrupt plane buf mem readBuf fds events h).pool.live = h.pool.live ∧
      (threadProcessInterrupt plane buf mem readBuf fds events h).pool.doubleFree = h.pool.doubleFree := by
  have start : Exact (fun b => h.pool.live b = true) h [] [] := ⟨heapOk_nil h, fun b live => .inr (.inr live)⟩
  obtain ⟨exact, single⟩ := threadProcessInterrupt_exact readBuf fds whole start
  refine ⟨funext fun b => Bool.eq_iff_iff.mpr ⟨fun live => ?_, fun live => ?_⟩, single⟩
  · rcases exact.only b live with own | linked | old
    · cases own
    · cases linked
    · exact old
  · -- a block that was out belongs to somebody else, and is left alone
    have held : HeapOk h [b] [] := by
      refine ⟨List.nodup_singleton b, fun a member => ?_, fun _ _ linked => (by cases linked),
        fun _ linked => (by cases linked)⟩
      rwa [List.mem_singleton.mp member]
    exact (threadProcessInterrupt_exact readBuf fds whole held.exact).1.live b List.mem_cons_self

/-- The plane of `sampleBoot`. -/
def samplePlane : Plane := ufpPlaneAlloc sampleDevs sampleSlots

/-- The tables of a thread with the plane of `sampleBoot`. -/
def sampleSetup : Setup samplePlane where
  thread := sampleBoot.thread
  array := 2
  array6 := 3
  numPorts := by decide +kernel

/-- A route is announced, then the thread is told to stop: all its blocks are back. -/
theorem thread_gives_back_sample :
    threadSetup samplePlane (sampleHeap some) = .ok sampleSetup ∧
      (threadProcessInterrupt samplePlane sampleSlots (fun _ => 0) true true
        [.netlink (some (sampleRouteMsg true 1).encode), .signal true] (sampleHeap some)).pool.live =
          (fun _ => false) ∧
      (threadProcessInterrupt samplePlane sampleSlots (fun _ => 0) true true
        [.netlink (some (sampleRouteMsg true 1).encode), .signal true] (sampleHeap some)).pool.doubleFree = false := by
  have made : threadSetup samplePlane (sampleHeap some) = .ok sampleSetup := by
    rfl
  refine ⟨made, thread_gives_back _ _ _ _ _ _ _ fun setup began => ?_⟩
  obtain rfl : sampleSetup = setup := Except.ok.inj (made.symm.trans began)
  have thread : (sampleSetup.start sampleSlots fun _ => 0).thread = sampleBoot.thread :=
    Forwarder.everyPort_thread
  have plenty : ∀ n, sampleBoot.thread.heap.pool.grants n = true := by
    refine Pool.grants_fresh (fun k => rfl) fun b later => ?_
    have live : sampleBoot.thread.heap.pool.live =
        [0, 1, 2, 3, 4, 5].foldl (fun live k => Function.update live k true) fun _ => false := rfl
    have later' : 6 ≤ b := later
    rw [live]
    simp only [List.foldl_cons, List.foldl_nil, Function.update_apply]
    split_ifs <;> first | omega | rfl
  refine ⟨fun readBuf same => ?_, ?_⟩
  · obtain rfl := Option.some.inj (Event.netlink.inj same)
    rw [thread, ReadAlong, dif_pos (by decide +kernel)]
    refine ⟨fun c _ => ?_, ?_⟩
    · cases c with
      | routeUpdate r => exact fun fib _ => .inr (.inr (.inr (plenty _)))
      | routeDelete family k => trivial
      | neighAdd family port dst mac => trivial
      | neighDelete family port dst => trivial
    · rw [ReadAlong, dif_neg (by decide +kernel)]
      trivial
  · show Along _ [.signal true] _
    exact ⟨fun readBuf same => (by cases same), trivial⟩

end Ufp.Daemon
