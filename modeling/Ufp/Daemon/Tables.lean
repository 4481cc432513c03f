/-
# Ufp.Daemon.Tables — the tables of a thread and the maps they stand for

The two FIBs and the neighbour tables of a thread live in one pool. What they are
for is said by `Tables`: for each family a list of routes, newest first, and for
each port a map from addresses to link-layer addresses. `TableCall` is one call of
`fib_route_update`, `fib_route_delete`, `neigh_add` or `neigh_delete`.

`TablesHold` ties the two together, with an account of the pool in which no block
has two owners: a neighbour entry that is deleted must not be a block of a FIB. It
holds after every sequence of successful calls (`tablesHold_run`).
-/
import Ufp.Daemon.FibRefine
import Ufp.Daemon.NeighFollow

namespace Ufp.Daemon

open Ufp.Theory

set_option autoImplicit false

/-! ## Calls -/

/-- A call that changes the tables. -/
inductive TableCall where
  | routeUpdate (r : Route)
  | routeDelete (family : Family) (k : Key)
  | neighAdd (family : Family) (port : Nat) (dst mac : Bytes)
  | neighDelete (family : Family) (port : Nat) (dst : Bytes)

/-- Callers name ports of the thread; a route may have none. -/
def TableCall.Ok (numPorts : Nat) : TableCall → Prop
  | .routeUpdate r => r.portIndex < numPorts
  | .routeDelete _ _ => True
  | .neighAdd _ port _ _ => port < numPorts
  | .neighDelete _ port _ => port < numPorts

namespace UfpdThread

def setFib (thread : UfpdThread) (family : Family) (fib : Fib) (heap : Heap) : UfpdThread :=
  match family with
  | .inet => { thread with fibInet := fib, heap }
  | .inet6 => { thread with fibInet6 := fib, heap }
  | .other => thread

/-- One call on the table it is about: its return value (0 is `true`) and the thread. -/
def call (thread : UfpdThread) : TableCall → Bool × UfpdThread
  | .routeUpdate r =>
      match thread.fib r.family with
      | none => (false, thread)
      | some fib =>
          let (ret, fib, heap) := updateRoute fib r thread.heap
          (ret, thread.setFib r.family fib heap)
  | .routeDelete family k =>
      match thread.fib family with
      | none => (false, thread)
      | some fib =>
          let (ret, fib, heap) := fibRouteDelete fib k.bytes k.len k.id thread.heap
          (ret, thread.setFib family fib heap)
  | .neighAdd family port dst mac =>
      match thread.neigh port family with
      | none => (false, thread)
      | some neigh =>
          let (ret, neigh, heap) := Daemon.neighAdd neigh family dst mac thread.heap
          (ret, thread.setNeigh port family neigh heap)
  | .neighDelete family port dst =>
      match thread.neigh port family with
      | none => (false, thread)
      | some neigh =>
          let (ret, neigh, heap) := Daemon.neighDelete neigh dst thread.heap
          (ret, thread.setNeigh port family neigh heap)

/-- The thread after calls that all succeed; `none` when one fails. -/
def calls (thread : UfpdThread) : List TableCall → Option UfpdThread
  | [] => some thread
  | c :: rest =>
      match thread.call c with
      | (true, thread) => thread.calls rest
      | (false, _) => none

end UfpdThread

/-! ## What the tables stand for -/

/-- The six bytes of a link-layer address. -/
def macBytes (mac : Bytes) : List UInt8 := (List.range ethAlen).map mac

/-- Routes by family, and the neighbours of each family and port. -/
structure Tables where
  routes : Family → Routes
  macs : Family → Nat → Bytes → Option (List UInt8)

namespace Tables

def empty : Tables := ⟨fun _ => [], fun _ _ _ => none⟩

/-- The neighbours with one address bound to `mac`. -/
def bind (tables : Tables) (family : Family) (port : Nat) (dst : Bytes) (mac : Option (List UInt8)) : Tables :=
  { tables with
    macs := fun family' port' a =>
      if (family' = family ∧ port' = port) ∧ AddrSame (family.bytes.getD 0) a dst then mac
      else tables.macs family' port' a }

/-- What a successful call does. -/
def call (tables : Tables) : TableCall → Tables
  | .routeUpdate r =>
      { tables with routes := Function.update tables.routes r.family (r :: tables.routes r.family) }
  | .routeDelete family k =>
      { tables with
        routes := Function.update tables.routes family ((tables.routes family).filter fun r => ¬ r.Same k) }
  | .neighAdd family port dst mac => tables.bind family port dst (some (macBytes mac))
  | .neighDelete family port dst => tables.bind family port dst none

end Tables

/-! ## The account of the pool -/

section Rest

variable {h h' : Heap} {fib : Fib} {stored : List Stored} {restB restB' restL : List Nat} {blk : Nat}

theorem FibOk.perm (ok : FibOk h fib stored restB restL) (same : restB.Perm restB') :
    FibOk h fib stored restB' restL :=
  ⟨ok.table, ok.heap.perm ((same.cons _).append_left _) (List.Perm.refl _), ok.contents, ok.distinct⟩

theorem blocks_front (fib : Fib) (blk : Nat) (restB : List Nat) :
    (tableBlocks fib.table ++ fib.blk :: blk :: restB).Perm (blk :: (tableBlocks fib.table ++ fib.blk :: restB)) :=
  ((List.Perm.swap blk fib.blk restB).append_left _).trans List.perm_middle

/-- A block is handed out to somebody else. -/
theorem FibOk.take (ok : FibOk h fib stored restB restL) (granted : h.alloc = (some blk, h')) :
    FibOk h' fib stored (blk :: restB) restL := by
  obtain ⟨taken, -⟩ := ok.heap.alloc_some granted
  exact ⟨ok.table, taken.perm (blocks_front fib blk restB).symm (List.Perm.refl _),
    ok.contents.step (Heap.Step.alloc_some granted), ok.distinct⟩

/-- Somebody else gives a block back. -/
theorem FibOk.give (ok : FibOk h fib stored (blk :: restB) restL) :
    FibOk (h.free blk) fib stored restB restL := by
  have owned : HeapOk h (blk :: (tableBlocks fib.table ++ fib.blk :: restB)) (tableLinks fib.table ++ restL) :=
    ok.heap.perm (blocks_front fib blk restB) (List.Perm.refl _)
  obtain ⟨freed, step, -⟩ := owned.free
  exact ⟨ok.table, freed, ok.contents.step step, ok.distinct⟩

end Rest

/-- Two FIBs and the blocks `rest` of others, in one account. -/
structure Shared (h : Heap) (fib fib' : Fib) (stored stored' : List Stored) (rest : List Nat) : Prop where
  first : FibOk h fib stored (fib'.blocks ++ rest) (tableLinks fib'.table)
  second : FibOk h fib' stored' (fib.blocks ++ rest) (tableLinks fib.table)

namespace Shared

variable {h h' : Heap} {fib fib' : Fib} {stored stored' : List Stored} {rest rest' : List Nat}

theorem of_fibsOk (ok : FibsOk h fib fib' stored stored') : Shared h fib fib' stored stored' [] := by
  constructor
  · rw [List.append_nil]
    exact ok.first
  · rw [List.append_nil]
    exact ok.second

theorem symm (ok : Shared h fib fib' stored stored' rest) : Shared h fib' fib stored' stored rest :=
  ⟨ok.second, ok.first⟩

theorem perm (ok : Shared h fib fib' stored stored' rest) (same : rest.Perm rest') :
    Shared h fib fib' stored stored' rest' :=
  ⟨ok.first.perm (same.append_left _), ok.second.perm (same.append_left _)⟩

theorem take (ok : Shared h fib fib' stored stored' rest) {blk : Nat} (granted : h.alloc = (some blk, h')) :
    Shared h' fib fib' stored stored' (blk :: rest) :=
  ⟨(ok.first.take granted).perm List.perm_middle.symm, (ok.second.take granted).perm List.perm_middle.symm⟩

theorem give {blk : Nat} (ok : Shared h fib fib' stored stored' (blk :: rest)) :
    Shared (h.free blk) fib fib' stored stored' rest :=
  ⟨(ok.first.perm List.perm_middle).give, (ok.second.perm List.perm_middle).give⟩

/-- After a call on the first FIB, the second is as it was. -/
theorem of_call {newFib : Fib} {newStored : List Stored} (ok : Shared h fib fib' stored stored' rest)
    (done : FibOk h' newFib newStored (fib'.blocks ++ rest) (tableLinks fib'.table))
    (keeps : Heap.Keeps h h') : Shared h' newFib fib' newStored stored' rest := by
  refine ⟨done, ok.second.table, done.heap.perm ?_ List.perm_append_comm, fun s member => ?_,
    ok.second.distinct⟩
  · rw [List.append_cons (tableBlocks newFib.table), List.append_cons (tableBlocks fib'.table)]
    exact List.perm_append_comm_assoc newFib.blocks fib'.blocks rest
  · obtain ⟨refcount, same⟩ := keeps.entries s.addr (ok.second.live member)
    rw [same]
    exact (ok.second.contents s member).recount refcount

end Shared

/-! ## Neighbour tables in the pool -/

/-- The blocks of the entries of a neighbour table. -/
def NeighTable.blocks (neigh : NeighTable) : List Nat :=
  Slots.gather (2 ^ hashBit) (List.map fun entry => entry.owner.blk) neigh.table.head

/-- Keys have a bucket of the table. -/
def NeighTable.Bounded (neigh : NeighTable) : Prop :=
  ∀ key, neigh.table.hashKeyGenerate key hashBit < 2 ^ hashBit

section Neigh

variable {n : Nat} {neigh : NeighTable} {family : Family} {h : Heap} {dst mac : Bytes}

theorem neighAlloc_bounded {h' : Heap} (made : neighAlloc family h = (some neigh, h')) :
    neigh.Bounded ∧ neigh.blocks = [] := by
  obtain ⟨blk, -, ⟨rfl, rfl⟩ | ⟨rfl, rfl⟩⟩ := neighAlloc_cases made
  · refine ⟨fun key => ?_, Slots.gather_eq_nil fun _ _ => rfl⟩
    have word := Nat.mod_lt (word32 key 0 * 0x9e370001) (Nat.two_pow_pos 32)
    show _ >>> 16 < 2 ^ 16
    rw [Nat.shiftRight_eq_div_pow]
    exact Nat.div_lt_of_lt_mul word
  · refine ⟨fun key => ?_, Slots.gather_eq_nil fun _ _ => rfl⟩
    have word := Nat.mod_lt (word64 key 0 * word64 key 1 % 2 ^ 64 * 0x9e37fffffffc0001)
      (Nat.two_pow_pos 64)
    show _ >>> 48 < 2 ^ 16
    rw [Nat.shiftRight_eq_div_pow]
    exact Nat.div_lt_of_lt_mul word

/-- What a call on a neighbour table leaves: the table, the block that came or went, and
the address that was bound. -/
structure NeighDone (n : Nat) (neigh neigh' : NeighTable) (dst : Bytes) (mac : Option (List UInt8)) :
    Prop where
  ok : neigh'.Ok n
  bounded : neigh'.Bounded
  macs : ∀ a, (neigh'.mac a).map macBytes = if AddrSame n a dst then mac else (neigh.mac a).map macBytes

/-- A successful `neigh_add` takes a block and binds the address. -/
theorem neighAdd_done (ok : neigh.Ok n) (bounded : neigh.Bounded) (size : family.bytes = some n)
    (added : (neighAdd neigh family dst mac h).1 = true) :
    NeighDone n neigh (neighAdd neigh family dst mac h).2.1 dst (some (macBytes mac)) ∧
      ∃ blk, h.alloc = (some blk, (neighAdd neigh family dst mac h).2.2) ∧
        (neighAdd neigh family dst mac h).2.1.blocks.Perm (blk :: neigh.blocks) := by
  rcases neighAdd_cases ok size dst mac h with
    ⟨h', denied, run⟩ | ⟨blk, h', answer, ⟨bound, run⟩ | ⟨free, run⟩⟩
  · rw [run] at added
    cases added
  · rw [run] at added
    cases added
  · obtain ⟨distinct, lookup⟩ := ok.insert blk free mac
    have copied : macBytes (memcpy (fun _ => 0) mac ethAlen) = macBytes mac :=
      List.map_congr_left fun i inside => if_pos (List.mem_range.mp inside)
    rw [run]
    refine ⟨⟨ok.withHead distinct, bounded, fun a => ?_⟩, blk, answer, ?_⟩
    · rw [lookup]
      by_cases same : AddrSame n a dst
      · rw [if_pos same, if_pos same, Option.map_some, copied]
      · rw [if_neg same, if_neg same]
    · have inside := bounded (neighFilled n blk dst mac).key
      exact (Slots.gather_update inside _).trans ((Slots.gather_perm inside).symm.cons blk)

/-- A successful `neigh_delete` frees a block and unbinds the address. -/
theorem neighDelete_done (ok : neigh.Ok n) (bounded : neigh.Bounded)
    (deleted : (neighDelete neigh dst h).1 = true) :
    NeighDone n neigh (neighDelete neigh dst h).2.1 dst none ∧
      ∃ blk, (neighDelete neigh dst h).2.2 = h.free blk ∧
        neigh.blocks.Perm (blk :: (neighDelete neigh dst h).2.1.blocks) := by
  obtain ⟨ok', -, lookup⟩ := @neighDelete_spec n neigh h ok dst
  have macs : ∀ a, ((neighDelete neigh dst h).2.1.mac a).map macBytes =
      if AddrSame n a dst then none else (neigh.mac a).map macBytes := by
    intro a
    rw [lookup]
    by_cases same : AddrSame n a dst
    · rw [if_pos same, if_pos same, Option.map_none]
    · rw [if_neg same, if_neg same]
  rcases neighDelete_cases ok dst h with ⟨absent, run⟩ | ⟨target, found, run⟩
  · rw [run] at deleted
    cases deleted
  · rw [run] at ok' macs ⊢
    refine ⟨⟨ok', bounded, macs⟩, target.owner.blk, rfl, ?_⟩
    have inside := bounded dst
    have chain := (Buckets.perm_eraseP found).map fun entry => entry.owner.blk
    exact (Slots.gather_perm inside).trans ((chain.append_right _).trans
      ((Slots.gather_update inside _).symm.cons target.owner.blk))

end Neigh

/-! ## The thread -/

namespace UfpdThread

/-- The blocks of all neighbour entries. -/
def neighBlocks (thread : UfpdThread) : List Nat :=
  Slots.gather thread.numPorts NeighTable.blocks thread.neighInet ++
    Slots.gather thread.numPorts NeighTable.blocks thread.neighInet6

variable {thread : UfpdThread} {family : Family} {port : Nat} {neigh neigh' : NeighTable} {heap : Heap}

theorem gather_swap {tables : Nat → NeighTable} {numPorts : Nat} (inside : port < numPorts) :
    (Slots.gather numPorts NeighTable.blocks (Function.update tables port neigh') ++ (tables port).blocks).Perm
      (neigh'.blocks ++ Slots.gather numPorts NeighTable.blocks tables) := by
  have new := Slots.gather_update (f := NeighTable.blocks) (t := tables) inside neigh'
  have old : (Slots.gather numPorts NeighTable.blocks tables).Perm _ := Slots.gather_perm inside
  refine (new.append_right _).trans ?_
  rw [List.append_assoc]
  exact (List.perm_append_comm.trans old.symm).append_left _

/-- The blocks of one table are exchanged. -/
theorem neighBlocks_setNeigh (inside : port < thread.numPorts) (here : thread.neigh port family = some neigh) :
    ((thread.setNeigh port family neigh' heap).neighBlocks ++ neigh.blocks).Perm
      (neigh'.blocks ++ thread.neighBlocks) := by
  cases family with
  | inet =>
      obtain rfl := Option.some.inj here
      have swap := @gather_swap port neigh' thread.neighInet thread.numPorts inside
      show ((Slots.gather _ _ _ ++ Slots.gather _ _ thread.neighInet6) ++ _).Perm _
      rw [List.append_assoc]
      refine (List.perm_append_comm.append_left _).trans ?_
      rw [← List.append_assoc]
      exact (swap.append_right _).trans (by rw [List.append_assoc]; exact List.Perm.refl _)
  | inet6 =>
      obtain rfl := Option.some.inj here
      have swap := @gather_swap port neigh' thread.neighInet6 thread.numPorts inside
      show ((Slots.gather _ _ thread.neighInet ++ Slots.gather _ _ _) ++ _).Perm _
      rw [List.append_assoc]
      exact (swap.append_left _).trans (List.perm_append_comm_assoc _ _ _)
  | other => cases here

/-- An entry has come to one table. -/
theorem neighBlocks_cons (inside : port < thread.numPorts) (here : thread.neigh port family = some neigh)
    {blk : Nat} (more : neigh'.blocks.Perm (blk :: neigh.blocks)) :
    (thread.setNeigh port family neigh' heap).neighBlocks.Perm (blk :: thread.neighBlocks) := by
  have swap := @neighBlocks_setNeigh thread family port neigh neigh' heap inside here
  refine (List.perm_append_right_iff neigh.blocks).mp ((swap.trans (more.append_right _)).trans ?_)
  rw [List.cons_append, List.cons_append]
  exact List.perm_append_comm.cons blk

/-- An entry has gone from one table. -/
theorem cons_neighBlocks (inside : port < thread.numPorts) (here : thread.neigh port family = some neigh)
    {blk : Nat} (less : neigh.blocks.Perm (blk :: neigh'.blocks)) :
    thread.neighBlocks.Perm (blk :: (thread.setNeigh port family neigh' heap).neighBlocks) := by
  have swap := @neighBlocks_setNeigh thread family port neigh neigh' heap inside here
  refine (List.perm_append_left_iff neigh'.blocks).mp ((swap.symm.trans (less.append_left _)).trans ?_)
  refine List.perm_append_comm.trans ?_
  rw [List.cons_append]
  exact List.perm_middle.symm

/-- The tables of the thread stand for `tables`. -/
structure TablesHold (numPorts : Nat) (thread : UfpdThread) (tables : Tables) : Prop where
  ports : thread.numPorts = numPorts
  fibs : ∃ stored stored', Shared thread.heap thread.fibInet thread.fibInet6 stored stored' thread.neighBlocks ∧
    stored.map Stored.route = tables.routes .inet ∧ stored'.map Stored.route = tables.routes .inet6
  routes : ∀ family, ∀ r ∈ tables.routes family, r.family = family ∧ r.portIndex < numPorts
  neighs : ∀ {port family n}, port < numPorts → family.bytes = some n →
    ∃ neigh, thread.neigh port family = some neigh ∧ neigh.Ok n ∧ neigh.Bounded ∧
      ∀ a, (neigh.mac a).map macBytes = tables.macs family port a

variable {numPorts : Nat} {tables : Tables} {thread' : UfpdThread}

/-- A call on the FIB of a family. -/
theorem TablesHold.setFib (holds : TablesHold numPorts thread tables) {fib fib' : Fib} {routes : Routes}
    (here : thread.fib family = some fib) (formed : ∀ r ∈ routes, r.family = family ∧ r.portIndex < numPorts)
    (done : ∀ {stored restB restL}, FibOk thread.heap fib stored restB restL →
      stored.map Stored.route = tables.routes family → ∃ stored', FibOk heap fib' stored' restB restL ∧
        Heap.Keeps thread.heap heap ∧ stored'.map Stored.route = routes) :
    TablesHold numPorts (thread.setFib family fib' heap)
      { tables with routes := Function.update tables.routes family routes } := by
  obtain ⟨ports, ⟨stored, stored', both, inet, inet6⟩, known, neighs⟩ := holds
  have known' : ∀ family', ∀ r ∈ Function.update tables.routes family routes family',
      r.family = family' ∧ r.portIndex < numPorts := by
    intro family' r member
    by_cases same : family' = family
    · subst same
      rw [Function.update_self] at member
      exact formed r member
    · rw [Function.update_of_ne same] at member
      exact known family' r member
  cases family with
  | inet =>
      obtain rfl := Option.some.inj here
      obtain ⟨new, ok, keeps, same⟩ := done both.first inet
      exact ⟨ports, ⟨new, stored', both.of_call ok keeps, same, inet6⟩, known', neighs⟩
  | inet6 =>
      obtain rfl := Option.some.inj here
      obtain ⟨new, ok, keeps, same⟩ := done both.second inet6
      exact ⟨ports, ⟨stored, new, (both.symm.of_call ok keeps).symm, inet, same⟩, known', neighs⟩
  | other => cases here

/-- A call on the neighbour table of a port. -/
theorem TablesHold.setNeigh (holds : TablesHold numPorts thread tables) {n : Nat} {dst : Bytes}
    {mac : Option (List UInt8)} (size : family.bytes = some n)
    (here : thread.neigh port family = some neigh) (done : NeighDone n neigh neigh' dst mac)
    (macs : ∀ a, (neigh.mac a).map macBytes = tables.macs family port a)
    (moved : ∀ {fib fib' stored stored'}, Shared thread.heap fib fib' stored stored' thread.neighBlocks →
      Shared heap fib fib' stored stored' (thread.setNeigh port family neigh' heap).neighBlocks) :
    TablesHold numPorts (thread.setNeigh port family neigh' heap) (tables.bind family port dst mac) := by
  obtain ⟨ports, ⟨stored, stored', both, inet, inet6⟩, known, neighs⟩ := holds
  obtain ⟨ports', -, same⟩ := thread.setNeigh_frame port size neigh' heap
  have fibs : (thread.setNeigh port family neigh' heap).fibInet = thread.fibInet ∧
      (thread.setNeigh port family neigh' heap).fibInet6 = thread.fibInet6 := by
    cases family with
    | inet => exact ⟨rfl, rfl⟩
    | inet6 => exact ⟨rfl, rfl⟩
    | other => cases size
  refine ⟨ports'.trans ports, ⟨stored, stored', ?_, inet, inet6⟩, known, ?_⟩
  · rw [fibs.1, fibs.2, same]
    exact moved both
  · intro port' family' n' inside size'
    rw [neigh_setNeigh _ size]
    by_cases this : port' = port ∧ family' = family
    · obtain ⟨rfl, rfl⟩ := this
      obtain rfl : n' = n := Option.some.inj (size'.symm.trans size)
      refine ⟨neigh', if_pos ⟨rfl, rfl⟩, done.ok, done.bounded, fun a => ?_⟩
      rw [done.macs, macs]
      simp [Tables.bind, size]
    · obtain ⟨other, there, ok, bounded, others⟩ := neighs inside size'
      refine ⟨other, (if_neg this).trans there, ok, bounded, fun a => (others a).trans ?_⟩
      exact (if_neg fun all => this ⟨all.1.2, all.1.1⟩).symm

/-- The table of a port and a family, with what it stands for. -/
theorem TablesHold.neigh_at (holds : TablesHold numPorts thread tables) {port : Nat} (inside : port < numPorts)
    {neigh : NeighTable} (here : thread.neigh port family = some neigh) :
    ∃ n, family.bytes = some n ∧ neigh.Ok n ∧ neigh.Bounded ∧
      ∀ a, (neigh.mac a).map macBytes = tables.macs family port a := by
  obtain ⟨n, size⟩ : ∃ n, family.bytes = some n := by
    cases family with
    | inet => exact ⟨4, rfl⟩
    | inet6 => exact ⟨16, rfl⟩
    | other => cases here
  obtain ⟨neigh', there, known⟩ := holds.neighs inside size
  obtain rfl : neigh' = neigh := Option.some.inj (there.symm.trans here)
  exact ⟨n, size, known⟩

/-- One successful call. -/
theorem TablesHold.call (holds : TablesHold numPorts thread tables) {c : TableCall} (ok : c.Ok numPorts)
    (ran : thread.call c = (true, thread')) : TablesHold numPorts thread' (tables.call c) := by
  cases c with
  | routeUpdate r =>
      simp only [UfpdThread.call] at ran
      split at ran
      · cases ran
      · rename_i fib here
        obtain ⟨ret, rfl⟩ := Prod.mk.inj ran
        refine holds.setFib here (fun s member => ?_) fun {stored restB restL} fibOk same => ?_
        · rcases List.mem_cons.mp member with rfl | old
          · exact ⟨rfl, ok⟩
          · exact holds.routes r.family s old
        · have ended := fibRouteUpdate_spec fibOk r
          generalize updateRoute fib r thread.heap = result at ended ret
          cases ended with
          | added absent ok' _ keeps => exact ⟨_, ok', keeps, congrArg (r :: ·) same⟩
          | unchanged => cases ret
          | undone => cases ret
          | partly => cases ret
  | routeDelete family k =>
      simp only [UfpdThread.call] at ran
      split at ran
      · cases ran
      · rename_i fib here
        obtain ⟨ret, rfl⟩ := Prod.mk.inj ran
        refine holds.setFib here (fun s member => ?_) fun {stored restB restL} fibOk same => ?_
        · exact holds.routes family s (List.mem_filter.mp member).1
        · obtain ⟨t, member, equal⟩ := not_absent ((fibRouteDelete_iff fibOk k).mp ret)
          obtain ⟨fib', h', done, step, -, -, ok'⟩ := fibRouteDelete_present fibOk member equal
          rw [done]
          refine ⟨_, ok', step.keeps, ?_⟩
          rw [← same, List.filter_map]
          rfl
  | neighAdd family port dst mac =>
      simp only [UfpdThread.call] at ran
      split at ran
      · cases ran
      · rename_i neigh here
        obtain ⟨ret, rfl⟩ := Prod.mk.inj ran
        obtain ⟨n, size, neighOk, bounded, macs⟩ := holds.neigh_at ok here
        obtain ⟨done, blk, granted, blocks⟩ := neighAdd_done neighOk bounded size ret
        refine holds.setNeigh size here done macs fun {fib fib' stored stored'} both => ?_
        exact (both.take granted).perm (neighBlocks_cons (holds.ports.symm ▸ ok) here blocks).symm
  | neighDelete family port dst =>
      simp only [UfpdThread.call] at ran
      split at ran
      · cases ran
      · rename_i neigh here
        obtain ⟨ret, rfl⟩ := Prod.mk.inj ran
        obtain ⟨n, size, neighOk, bounded, macs⟩ := holds.neigh_at ok here
        obtain ⟨done, blk, freed, blocks⟩ := neighDelete_done neighOk bounded ret
        refine holds.setNeigh size here done macs fun {fib fib' stored stored'} both => ?_
        rw [freed]
        exact (both.perm (cons_neighBlocks (holds.ports.symm ▸ ok) here blocks)).give

/-- Any number of successful calls. -/
theorem TablesHold.calls (holds : TablesHold numPorts thread tables) {calls : List TableCall}
    (ok : ∀ c ∈ calls, c.Ok numPorts) (ran : thread.calls calls = some thread') :
    TablesHold numPorts thread' (calls.foldl Tables.call tables) := by
  induction calls generalizing thread tables with
  | nil =>
      obtain rfl := Option.some.inj ran
      exact holds
  | cons c calls ih =>
      obtain ⟨first, later⟩ := List.forall_mem_cons.mp ok
      simp only [UfpdThread.calls] at ran
      split at ran
      · rename_i next done
        exact ih (holds.call first done) later ran
      · cases ran

end UfpdThread

/-- Each neighbour table comes from `neigh_alloc`. -/
theorem neighPrepare_each {P : NeighTable → Prop}
    (each : ∀ {family h h' neigh}, neighAlloc family h = (some neigh, h') → P neigh)
    {todo i : Nat} {inet inet6 inet' inet6' : Nat → NeighTable} {h h' : Heap}
    (made : neighPrepare todo i inet inet6 h = some (inet', inet6', h'))
    (before : ∀ j < i, P (inet j) ∧ P (inet6 j)) : ∀ j < i + todo, P (inet' j) ∧ P (inet6' j) := by
  induction todo generalizing i inet inet6 h with
  | zero =>
      obtain ⟨rfl, rfl, rfl⟩ : inet = inet' ∧ inet6 = inet6' ∧ h = h' := by
        simpa [neighPrepare] using made
      exact before
  | succ todo ih =>
      rcases first : neighAlloc .inet h with ⟨_ | table, h₁⟩
      · simp [neighPrepare, first] at made
      rcases second : neighAlloc .inet6 h₁ with ⟨_ | table6, h₂⟩
      · simp [neighPrepare, first, second] at made
      simp only [neighPrepare, first, second] at made
      have rest := ih made (by
        intro j inside
        by_cases here : j = i
        · subst here
          rw [Function.update_self, Function.update_self]
          exact ⟨each first, each second⟩
        · rw [Function.update_of_ne here, Function.update_of_ne here]
          exact before j (by omega))
      intro j inside
      exact rest j (by omega)

section Start

variable {numPorts : Nat} {tunIndex : Nat → Int} {macaddr : Nat → Bytes} {heap : Heap} {thread : UfpdThread}
  (made : threadPrepare numPorts tunIndex macaddr heap = some thread)

include made

theorem threadPrepare_neighs : ∀ port < numPorts,
    ((thread.neighInet port).Bounded ∧ (thread.neighInet port).blocks = []) ∧
      ((thread.neighInet6 port).Bounded ∧ (thread.neighInet6 port).blocks = []) := by
  obtain ⟨_, _, _, _, _, h₄, -, -, -, -, prepared, -⟩ := threadPrepare_cases made
  have each := neighPrepare_each (P := fun neigh => neigh.Bounded ∧ neigh.blocks = []) neighAlloc_bounded
    prepared fun j inside => absurd inside (Nat.not_lt_zero j)
  rwa [Nat.zero_add] at each

/-- The tables a thread starts with are empty. -/
theorem tablesHold_start : UfpdThread.TablesHold numPorts thread Tables.empty := by
  obtain ⟨⟨ports, -⟩, fresh, fibs⟩ := threadPrepare_spec made
  have tables := threadPrepare_neighs made
  have none : thread.neighBlocks = [] := by
    unfold UfpdThread.neighBlocks
    rw [ports, Slots.gather_eq_nil fun port inside => (tables port inside).1.2,
      Slots.gather_eq_nil fun port inside => (tables port inside).2.2, List.append_nil]
  refine ⟨ports, ⟨[], [], none ▸ Shared.of_fibsOk fibs, rfl, rfl⟩, fun _ r member => (by cases member), ?_⟩
  intro port family n inside size
  cases family with
  | inet =>
      obtain rfl := Option.some.inj size
      obtain ⟨ok, empty⟩ := (fresh port inside).1
      exact ⟨_, rfl, ok, (tables port inside).1.1, fun a => by rw [empty]; rfl⟩
  | inet6 =>
      obtain rfl := Option.some.inj size
      obtain ⟨ok, empty⟩ := (fresh port inside).2
      exact ⟨_, rfl, ok, (tables port inside).2.1, fun a => by rw [empty]; rfl⟩
  | other => cases size

/-- After any number of successful calls, the tables stand for what the calls say. -/
theorem tablesHold_run {calls : List TableCall} {thread' : UfpdThread} (ok : ∀ c ∈ calls, c.Ok numPorts)
    (ran : thread.calls calls = some thread') :
    UfpdThread.TablesHold numPorts thread' (calls.foldl Tables.call Tables.empty) :=
  (tablesHold_start made).calls ok ran

end Start

end Ufp.Daemon
