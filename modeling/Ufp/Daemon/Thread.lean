/-
# Ufp.Daemon.Thread — the tables of a forwarding thread, `src/thread.c`

Each thread has its own FIB and neighbour tables, all in one pool:
`thread_process_interrupt` makes them before its event loop starts
(`threadPrepare`). Of the plane, only what the tables are used with is kept here:
the interface number of a port's TAP device and its MAC address.
-/
import Ufp.Daemon.FibInv
import Ufp.Daemon.Neigh

namespace Ufp.Daemon

set_option autoImplicit false

/-- `struct ufpd_thread`; `tunIndex` and `macaddr` are `ufp_tun_index` and
`ufp_macaddr` of its plane. -/
structure UfpdThread where
  numPorts : Nat
  tunIndex : Nat → Int
  macaddr : Nat → Bytes
  fibInet : Fib
  fibInet6 : Fib
  neighInet : Nat → NeighTable
  neighInet6 : Nat → NeighTable
  heap : Heap

/-- What a pointer of the port arrays points to before it is set. -/
def neighUnset : NeighTable := ⟨0, fun _ => [], neighEntryDelete, neighKeyGenerateV4, neighKeyCompareV4⟩

/-- The loop over the ports, with `todo` ports to go from port `i` on. -/
def neighPrepare : Nat → Nat → (Nat → NeighTable) → (Nat → NeighTable) → Heap →
    Option ((Nat → NeighTable) × (Nat → NeighTable) × Heap)
  | 0, _, inet, inet6, h => some (inet, inet6, h)
  | todo + 1, i, inet, inet6, h =>
      match neighAlloc .inet h with
      | (none, _) => none
      | (some table, h) =>
          match neighAlloc .inet6 h with
          | (none, _) => none
          | (some table6, h) =>
              neighPrepare todo (i + 1) (Function.update inet i table)
                (Function.update inet6 i table6) h

/-- The tables `thread_process_interrupt` makes; `none` when it gives up, after
which the thread ends. -/
def threadPrepare (numPorts : Nat) (tunIndex : Nat → Int) (macaddr : Nat → Bytes) (h : Heap) :
    Option UfpdThread :=
  match fibAlloc h with
  | (none, _) => none
  | (some fibInet, h) =>
      match fibAlloc h with
      | (none, _) => none
      | (some fibInet6, h) =>
          match h.alloc with
          | (none, _) => none
          | (some _, h) =>
              match h.alloc with
              | (none, _) => none
              | (some _, h) =>
                  match neighPrepare numPorts 0 (fun _ => neighUnset) (fun _ => neighUnset) h with
                  | none => none
                  | some (neighInet, neighInet6, heap) =>
                      some { numPorts, tunIndex, macaddr, fibInet, fibInet6, neighInet, neighInet6, heap }

namespace UfpdThread

variable (thread : UfpdThread)

/-- The FIB of a family. -/
def fib : Family → Option Fib
  | .inet => some thread.fibInet
  | .inet6 => some thread.fibInet6
  | .other => none

/-- The neighbour table of a port and family. -/
def neigh (port : Nat) : Family → Option NeighTable
  | .inet => some (thread.neighInet port)
  | .inet6 => some (thread.neighInet6 port)
  | .other => none

/-- The first port whose TAP device has the number `ifindex`. -/
def portOf (ifindex : Int) : Option Nat :=
  (List.range thread.numPorts).find? fun i => thread.tunIndex i == ifindex

/-- The port's number, or -1 when there is none. -/
def portIndex (ifindex : Int) : Int :=
  match thread.portOf ifindex with
  | some i => i
  | none => -1

end UfpdThread

/-! ## The tables at the start -/

/-- Allocations for other purposes take nothing away. -/
structure Heap.Grows (h h' : Heap) : Prop where
  owns : ∀ {blocks links : List Nat}, HeapOk h blocks links → HeapOk h' blocks links
  step : Heap.Step h h'

variable {h h' : Heap} {fib fib' : Fib} {stored : List Stored}

theorem Heap.Grows.trans {h'' : Heap} (first : Heap.Grows h h') (second : Heap.Grows h' h'') :
    Heap.Grows h h'' := ⟨second.owns ∘ first.owns, first.step.trans second.step⟩

theorem Heap.Grows.alloc {blk : Nat} (granted : h.alloc = (some blk, h')) : Heap.Grows h h' := by
  refine ⟨fun ok => ?_, Heap.Step.alloc_some granted⟩
  obtain ⟨taken, -⟩ := ok.alloc_some granted
  exact ⟨(List.nodup_cons.mp taken.nodup).2, fun b member => taken.live b (List.mem_cons_of_mem _ member),
    fun b member => taken.apart b (List.mem_cons_of_mem _ member), taken.refs⟩

theorem FibOk.grows {restB restL : List Nat} (ok : FibOk h fib stored restB restL) (grows : Heap.Grows h h') :
    FibOk h' fib stored restB restL :=
  ⟨ok.table, grows.owns ok.heap, ok.contents.step grows.step, ok.distinct⟩

/-- A neighbour table with nothing in it. -/
def NeighTable.Fresh (n : Nat) (neigh : NeighTable) : Prop := neigh.Ok n ∧ ∀ a, neigh.mac a = none

theorem neighAlloc_grows {family : Family} {neigh : NeighTable} (made : neighAlloc family h = (some neigh, h')) :
    Heap.Grows h h' := by
  obtain ⟨blk, granted, -⟩ := neighAlloc_cases made
  exact Heap.Grows.alloc granted

theorem neighPrepare_spec {todo i : Nat} {inet inet6 inet' inet6' : Nat → NeighTable}
    (made : neighPrepare todo i inet inet6 h = some (inet', inet6', h'))
    (before : ∀ j < i, (inet j).Fresh 4 ∧ (inet6 j).Fresh 16) :
    (∀ j < i + todo, (inet' j).Fresh 4 ∧ (inet6' j).Fresh 16) ∧
      ∀ {fib stored restB restL}, FibOk h fib stored restB restL → FibOk h' fib stored restB restL := by
  induction todo generalizing i inet inet6 h with
  | zero =>
      obtain ⟨rfl, rfl, rfl⟩ : inet = inet' ∧ inet6 = inet6' ∧ h = h' := by
        simpa [neighPrepare] using made
      exact ⟨before, id⟩
  | succ todo ih =>
      rcases first : neighAlloc .inet h with ⟨_ | table, h₁⟩
      · simp [neighPrepare, first] at made
      rcases second : neighAlloc .inet6 h₁ with ⟨_ | table6, h₂⟩
      · simp [neighPrepare, first, second] at made
      have four := neighAlloc_spec rfl first
      have sixteen := neighAlloc_spec rfl second
      simp only [neighPrepare, first, second] at made
      obtain ⟨fresh, fibs⟩ := ih made (by
        intro j inside
        by_cases here : j = i
        · subst here
          rw [Function.update_self, Function.update_self]
          exact ⟨four, sixteen⟩
        · rw [Function.update_of_ne here, Function.update_of_ne here]
          exact before j (by omega))
      refine ⟨fun j inside => fresh j (by omega), fun ok => fibs ?_⟩
      exact ok.grows ((neighAlloc_grows first).trans (neighAlloc_grows second))

/-- The blocks and links of a FIB, as another FIB's account lists them. -/
def Fib.blocks (fib : Fib) : List Nat := tableBlocks fib.table ++ [fib.blk]

/-- Both FIBs of a thread, in one account. -/
structure FibsOk (h : Heap) (fib fib' : Fib) (stored stored' : List Stored) : Prop where
  first : FibOk h fib stored fib'.blocks (tableLinks fib'.table)
  second : FibOk h fib' stored' fib.blocks (tableLinks fib.table)

theorem FibsOk.symm {stored' : List Stored} (ok : FibsOk h fib fib' stored stored') :
    FibsOk h fib' fib stored' stored := ⟨ok.second, ok.first⟩

/-- The account of one FIB is the account of the other. -/
theorem FibOk.swap (ok : FibOk h fib stored fib'.blocks (tableLinks fib'.table)) :
    HeapOk h (tableBlocks fib'.table ++ fib'.blk :: fib.blocks)
      (tableLinks fib'.table ++ tableLinks fib.table) := by
  refine ok.heap.perm ?_ List.perm_append_comm
  unfold Fib.blocks
  rw [List.append_cons (tableBlocks fib.table) fib.blk (tableBlocks fib'.table ++ [fib'.blk]),
    List.append_cons (tableBlocks fib'.table) fib'.blk (tableBlocks fib.table ++ [fib.blk])]
  exact List.perm_append_comm

/-- After a call on the first FIB, the second is as it was. -/
theorem FibsOk.of_call {newFib : Fib} {stored' newStored : List Stored} (ok : FibsOk h fib fib' stored stored')
    (done : FibOk h' newFib newStored fib'.blocks (tableLinks fib'.table)) (keeps : Heap.Keeps h h') :
    FibsOk h' newFib fib' newStored stored' := by
  refine ⟨done, ok.second.table, done.swap, fun s member => ?_, ok.second.distinct⟩
  obtain ⟨refcount, same⟩ := keeps.entries s.addr (ok.second.live member)
  rw [same]
  exact (ok.second.contents s member).recount refcount

/-- The steps of a thread that gets its tables. -/
theorem threadPrepare_cases {numPorts : Nat} {tunIndex : Nat → Int} {macaddr : Nat → Bytes} {thread : UfpdThread}
    (made : threadPrepare numPorts tunIndex macaddr h = some thread) :
    ∃ h₁ h₂ array h₃ array6 h₄, fibAlloc h = (some thread.fibInet, h₁) ∧
      fibAlloc h₁ = (some thread.fibInet6, h₂) ∧ h₂.alloc = (some array, h₃) ∧ h₃.alloc = (some array6, h₄) ∧
      neighPrepare numPorts 0 (fun _ => neighUnset) (fun _ => neighUnset) h₄ =
        some (thread.neighInet, thread.neighInet6, thread.heap) ∧
      thread.numPorts = numPorts ∧ thread.tunIndex = tunIndex := by
  rcases one : fibAlloc h with ⟨_ | fibInet, h₁⟩
  · simp [threadPrepare, one] at made
  rcases two : fibAlloc h₁ with ⟨_ | fibInet6, h₂⟩
  · simp [threadPrepare, one, two] at made
  rcases three : h₂.alloc with ⟨_ | array, h₃⟩
  · simp [threadPrepare, one, two, three] at made
  rcases four : h₃.alloc with ⟨_ | array6, h₄⟩
  · simp [threadPrepare, one, two, three, four] at made
  rcases five : neighPrepare numPorts 0 (fun _ => neighUnset) (fun _ => neighUnset) h₄ with
    _ | ⟨neighInet, neighInet6, heap⟩
  · simp [threadPrepare, one, two, three, four, five] at made
  simp only [threadPrepare, one, two, three, four, five, Option.some.injEq] at made
  subst made
  exact ⟨h₁, h₂, array, h₃, array6, h₄, rfl, two, three, four, five, rfl, rfl⟩

theorem threadPrepare_spec {numPorts : Nat} {tunIndex : Nat → Int} {macaddr : Nat → Bytes} {thread : UfpdThread}
    (made : threadPrepare numPorts tunIndex macaddr h = some thread) :
    (thread.numPorts = numPorts ∧ thread.tunIndex = tunIndex) ∧
      (∀ port < numPorts, (thread.neighInet port).Fresh 4 ∧ (thread.neighInet6 port).Fresh 16) ∧
      FibsOk thread.heap thread.fibInet thread.fibInet6 [] [] := by
  obtain ⟨h₁, h₂, array, h₃, array6, h₄, one, two, three, four, five, ports⟩ := threadPrepare_cases made
  -- the second FIB is made while the first is in the account
  obtain ⟨inet, -⟩ := fibAlloc_spec (heapOk_nil h) one
  obtain ⟨inet6, step, -⟩ := fibAlloc_spec inet.heap two
  have second : FibOk h₂ thread.fibInet6 [] thread.fibInet.blocks (tableLinks thread.fibInet.table) := by
    rwa [List.append_nil] at inet6
  have both : FibsOk h₂ thread.fibInet thread.fibInet6 [] [] :=
    ⟨⟨inet.table, second.swap, inet.contents.step step, inet.distinct⟩, second⟩
  obtain ⟨fresh, fibs⟩ := neighPrepare_spec five fun j inside => absurd inside (Nat.not_lt_zero j)
  rw [Nat.zero_add] at fresh
  have grows := (Heap.Grows.alloc three).trans (Heap.Grows.alloc four)
  exact ⟨ports, fresh, fibs (both.first.grows grows), fibs (both.second.grows grows)⟩

/-- A thread with one port, whose TAP device is interface 5. -/
def sampleThread : UfpdThread :=
  (threadPrepare 1 (fun _ => 5) (fun _ _ => 0) (sampleHeap some)).get (by decide +kernel)

theorem sampleThread_made :
    threadPrepare 1 (fun _ => 5) (fun _ _ => 0) (sampleHeap some) = some sampleThread :=
  (Option.some_get _).symm

end Ufp.Daemon
