/-
# Ufp.Lib.IoQueue — what each ring function does to the slots

A descriptor ring is read as the queue of the slots in its occupied window
(`Ring.queue`). `Ledger buf l` says that the slots flagged in flight are exactly
those of the duplicate-free list `l`: the record of who holds what. Each library
function is then a move between the lists of one port:

* `ufpRxAssign_spec`: free slots join the RX queue at its back;
* `ufpRxClean_spec`: slots leave the front of the RX queue for the caller;
* `ufpTxAssign_spec`: the packet's slot joins the TX queue, or is released when
  the ring is full;
* `ufpTxClean_spec`: slots leave the front of the TX queue and are released.

The specs also say which descriptors were rewritten and that the others, and
every other field of the port, kept their values.
-/
import Ufp.Lib.Io
import Ufp.Theory.Slots

namespace Ufp.Lib.Io

open Ufp.Theory

set_option autoImplicit false

/-! ## The ledger of slots in flight -/

/-- The slots in flight are those of `held`, each listed once. -/
structure Ledger (buf : Buf) (held : List Nat) : Prop where
  nodup : held.Nodup
  flagged : ∀ slot, buf.inflight slot = true ↔ slot ∈ held

namespace Ledger

variable {buf : Buf} {held held' : List Nat} {slot : Nat}

theorem perm (ledger : Ledger buf held) (same : held.Perm held') : Ledger buf held' :=
  ⟨same.nodup_iff.mp ledger.nodup, fun x => (ledger.flagged x).trans same.mem_iff⟩

theorem not_mem (ledger : Ledger buf held) (free : buf.inflight slot = false) : slot ∉ held := by
  intro member
  rw [(ledger.flagged slot).mpr member] at free
  cases free

theorem take (ledger : Ledger buf held) (free : buf.inflight slot = false) :
    Ledger (buf.mark slot) (slot :: held) := by
  refine ⟨List.nodup_cons.mpr ⟨ledger.not_mem free, ledger.nodup⟩, fun x => ?_⟩
  by_cases same : x = slot
  · subst same
    have odd : (buf.slots x ||| 1) &&& 1 = 1 := by
      rw [Nat.and_one_is_mod, Nat.or_mod_two_eq_one]
      simp
    simp [Buf.mark, Buf.inflight, slotInflight, odd]
  · have keep := ledger.flagged x
    simp only [Buf.inflight] at keep ⊢
    simp [Buf.mark, keep, same]

theorem release (ledger : Ledger buf (slot :: held)) : Ledger (ufpSlotRelease buf slot) held := by
  obtain ⟨fresh, nodup⟩ := List.nodup_cons.mp ledger.nodup
  refine ⟨nodup, fun x => ?_⟩
  by_cases same : x = slot
  · subst same
    simp [ufpSlotRelease, Buf.inflight, fresh]
  · have keep := ledger.flagged x
    simp only [Buf.inflight] at keep ⊢
    simp [ufpSlotRelease, keep, same]

/-- Releasing a slot nobody holds changes nothing. -/
theorem release_free (ledger : Ledger buf held) (fresh : slot ∉ held) :
    Ledger (ufpSlotRelease buf slot) held := by
  refine ⟨ledger.nodup, fun x => ?_⟩
  by_cases same : x = slot
  · subst same
    simp [ufpSlotRelease, Buf.inflight, fresh]
  · have keep := ledger.flagged x
    simp only [Buf.inflight] at keep ⊢
    simp [ufpSlotRelease, Function.update_of_ne same, keep]

end Ledger

/-! ## Releasing a slot -/

section Release

variable {buf : Buf} {slot other : Nat}

theorem ufpSlotRelease_self (buf : Buf) (slot : Nat) : (ufpSlotRelease buf slot).inflight slot = false := by
  simp [ufpSlotRelease, Buf.inflight]

theorem ufpSlotRelease_of_ne (ne : other ≠ slot) :
    (ufpSlotRelease buf slot).inflight other = buf.inflight other := by
  simp [ufpSlotRelease, Buf.inflight, Function.update_of_ne ne]

/-- A free slot stays free. -/
theorem ufpSlotRelease_free (free : buf.inflight other = false) :
    (ufpSlotRelease buf slot).inflight other = false := by
  by_cases same : other = slot
  · subst same
    exact ufpSlotRelease_self buf other
  · rwa [ufpSlotRelease_of_ne same]

/-- `ufp_tx_assign` releases the packet's slot or leaves the buffer alone. -/
theorem ufpTxAssign_buf (port : Port) (buf : Buf) (packet : Packet) :
    (ufpTxAssign port buf packet).2 = buf ∨
      (ufpTxAssign port buf packet).2 = ufpSlotRelease buf packet.slotIndex := by
  unfold ufpTxAssign
  split
  · exact .inr rfl
  · exact .inl rfl

end Release

/-! ## Rings as queues -/

/-- The slots in the occupied window, oldest first. -/
def Ring.queue (ring : Ring) (n : Nat) : List Nat :=
  Ring.contents ring.slotIndex n ring.nextToClean ring.nextToUse

/-- The occupied descriptor indices, oldest first. -/
def Ring.window (ring : Ring) (n : Nat) : List Nat :=
  Theory.Ring.window n ring.nextToClean ring.nextToUse

/-- The bounds a ring of `n` descriptors keeps. -/
structure Ring.Ok (ring : Ring) (n : Nat) : Prop where
  positive : 0 < n
  narrow : n < 2 ^ 16
  use : ring.nextToUse < n
  clean : ring.nextToClean < n

variable {n : Nat} {ring : Ring}

theorem bump_eq_next {i : Nat} (narrow : n < 2 ^ 16) (inside : i < n) : bump n i = Ring.next n i := by
  have exact : (i + 1) % 2 ^ 16 = i + 1 := Nat.mod_eq_of_lt (by omega)
  simp only [bump, Ring.next, exact]

/-- `ufp_desc_unused` counts the free descriptors, less the gap. -/
theorem Ring.Ok.unused (ok : ring.Ok n) :
    ufpDescUnused ring n + Theory.Ring.occupied n ring.nextToClean ring.nextToUse + 1 = n := by
  obtain ⟨positive, narrow, use, clean⟩ := ok
  have whole : n % 2 ^ 16 = n := Nat.mod_eq_of_lt narrow
  unfold ufpDescUnused Theory.Ring.occupied
  rw [whole]
  split_ifs <;> omega

theorem Ring.Ok.room (ok : ring.Ok n) (free : ufpDescUnused ring n ≠ 0) :
    Theory.Ring.occupied n ring.nextToClean ring.nextToUse + 1 < n := by
  have := ok.unused
  omega

section Push

variable {ring : Ring} {n : Nat} (ok : ring.Ok n) (free : ufpDescUnused ring n ≠ 0)
  (desc : Desc) (slot : Nat)

include ok

theorem Ring.Ok.push : (ring.push n desc slot).Ok n := by
  refine ⟨ok.positive, ok.narrow, ?_, ok.clean⟩
  simp only [Ring.push, bump_eq_next ok.narrow ok.use]
  exact Ring.next_lt ok.positive _

include free

theorem Ring.Ok.push_queue : (ring.push n desc slot).queue n = ring.queue n ++ [slot] := by
  simp only [Ring.queue, Ring.push, bump_eq_next ok.narrow ok.use]
  exact Ring.contents_push ok.clean ok.use (ok.room free) _ _

theorem Ring.Ok.push_window : (ring.push n desc slot).window n = ring.window n ++ [ring.nextToUse] := by
  simp only [Ring.window, Ring.push, bump_eq_next ok.narrow ok.use]
  exact Ring.window_push ok.clean ok.use (ok.room free)

theorem Ring.Ok.push_unused :
    ufpDescUnused (ring.push n desc slot) n + 1 = ufpDescUnused ring n := by
  have before := ok.unused
  have after := (ok.push desc slot).unused
  have moved := Ring.occupied_push ok.clean ok.use (ok.room free)
  simp only [Ring.push, bump_eq_next ok.narrow ok.use] at after
  rw [moved] at after
  simp only [Ring.push, bump_eq_next ok.narrow ok.use]
  omega

end Push

theorem Ring.Ok.use_notMem (ok : ring.Ok n) : ring.nextToUse ∉ ring.window n :=
  Ring.tail_notMem_window ok.clean ok.use

section Pop

variable {ring : Ring} {n : Nat} (ok : ring.Ok n)

include ok

theorem Ring.Ok.pop : (ring.pop n).Ok n := by
  refine ⟨ok.positive, ok.narrow, ok.use, ?_⟩
  simp only [Ring.pop, bump_eq_next ok.narrow ok.clean]
  exact Ring.next_lt ok.positive _

variable (some : ring.nextToClean ≠ ring.nextToUse)

include some

theorem Ring.Ok.pop_queue :
    ring.queue n = ring.slotIndex ring.nextToClean :: (ring.pop n).queue n := by
  simp only [Ring.queue, Ring.pop, bump_eq_next ok.narrow ok.clean]
  exact Ring.contents_pop ok.clean ok.use some _

theorem Ring.Ok.pop_window : ring.window n = ring.nextToClean :: (ring.pop n).window n := by
  simp only [Ring.window, Ring.pop, bump_eq_next ok.narrow ok.clean]
  exact Ring.window_pop ok.clean ok.use some

end Pop

/-! ## Slot assignment -/

theorem slotSearch_free {buf : Buf} {offset todo slotNext found : Nat}
    (ran : slotSearch buf offset todo slotNext = some found) :
    buf.inflight (offset + found) = false := by
  induction todo generalizing slotNext with
  | zero => simp [slotSearch] at ran
  | succ todo ih =>
      simp only [slotSearch] at ran
      split at ran
      · rename_i free
        cases ran
        simpa using free
      · exact ih ran

/-- `ufp_slot_assign` fails and changes nothing, or flags a free slot. -/
theorem ufpSlotAssign_spec (port : Port) (buf : Buf) :
    ufpSlotAssign port buf = (none, port, buf) ∨
      ∃ slot slotNext, buf.inflight slot = false ∧
        ufpSlotAssign port buf = (some slot, { port with rxSlotNext := slotNext }, buf.mark slot) := by
  unfold ufpSlotAssign
  split
  · exact .inl rfl
  · rename_i slotNext found
    exact .inr ⟨_, _, slotSearch_free found, rfl⟩

/-! ## Receive -/

/-- What `ufp_rx_assign` may change of a port. -/
structure RxAssigned (port port' : Port) : Prop where
  frame : ∃ ring slotNext failed, port' =
    { port with rxRing := ring, rxSlotNext := slotNext, countRxAllocFailed := failed }
  ok : port'.rxRing.Ok port.numRxDesc
  queue : ∃ slots, port'.rxRing.queue port.numRxDesc = port.rxRing.queue port.numRxDesc ++ slots
  window : ∃ added, port'.rxRing.window port.numRxDesc =
    port.rxRing.window port.numRxDesc ++ added
  kept : ∀ i ∈ port.rxRing.window port.numRxDesc, port'.rxRing.desc i = port.rxRing.desc i
  filled : ∀ i ∈ port'.rxRing.window port.numRxDesc, i ∉ port.rxRing.window port.numRxDesc →
    ∃ desc addr, port'.rxRing.desc i = port.ops.fillRxDesc desc addr

theorem RxAssigned.refl {port : Port} (ok : port.rxRing.Ok port.numRxDesc) (slotNext failed : Nat) :
    RxAssigned port { port with rxSlotNext := slotNext, countRxAllocFailed := failed } where
  frame := ⟨_, _, _, rfl⟩
  ok := ok
  queue := ⟨[], by simp⟩
  window := ⟨[], by simp⟩
  kept := fun _ _ => rfl
  filled := fun i member missing => absurd member missing

theorem RxAssigned.trans {port port' port'' : Port} (first : RxAssigned port port')
    (second : RxAssigned port' port'') : RxAssigned port port'' := by
  obtain ⟨⟨ring, slotNext, failed, rfl⟩, ok, ⟨slots, queue⟩, ⟨added, window⟩, kept, filled⟩ := first
  obtain ⟨⟨ring', slotNext', failed', rfl⟩, ok', ⟨slots', queue'⟩, ⟨added', window'⟩, kept',
    filled'⟩ := second
  dsimp only at *
  refine ⟨⟨ring', slotNext', failed', rfl⟩, ok', ⟨slots ++ slots', ?_⟩, ⟨added ++ added', ?_⟩, ?_, ?_⟩
  · rw [queue', queue, List.append_assoc]
  · rw [window', window, List.append_assoc]
  · intro i member
    rw [kept' i (by rw [window]; exact List.mem_append_left _ member), kept i member]
  · intro i member missing
    by_cases between : i ∈ ring.window port.numRxDesc
    · obtain ⟨desc, addr, same⟩ := filled i between missing
      exact ⟨desc, addr, (kept' i between).trans same⟩
    · exact filled' i member between

/-- One iteration of `ufp_rx_assign`. -/
theorem RxAssigned.push {port : Port} (ok : port.rxRing.Ok port.numRxDesc)
    (free : ufpDescUnused port.rxRing port.numRxDesc ≠ 0) (slot slotNext addr : Nat) (desc : Desc) :
    RxAssigned port { port with
      rxSlotNext := slotNext
      rxRing := port.rxRing.push port.numRxDesc (port.ops.fillRxDesc desc addr) slot } where
  frame := ⟨_, _, _, rfl⟩
  ok := ok.push _ _
  queue := ⟨[slot], ok.push_queue free _ _⟩
  window := ⟨[port.rxRing.nextToUse], ok.push_window free _ _⟩
  kept := by
    intro i member
    have ne : i ≠ port.rxRing.nextToUse := fun same => ok.use_notMem (same ▸ member)
    exact Function.update_of_ne ne _ _
  filled := by
    intro i member missing
    rw [ok.push_window free] at member
    rcases List.mem_append.mp member with old | new
    · exact absurd old missing
    · rw [List.mem_singleton.mp new]
      exact ⟨desc, addr, Function.update_self _ _ _⟩

/-- The loop of `ufp_rx_assign` with no more iterations than free descriptors. -/
theorem rxAssignLoop_spec (todo : Nat) (port : Port) (buf : Buf)
    (ok : port.rxRing.Ok port.numRxDesc)
    (room : todo ≤ ufpDescUnused port.rxRing port.numRxDesc) :
    RxAssigned port (rxAssignLoop todo port buf).2.1 ∧
      ∀ rest, Ledger buf (port.rxRing.queue port.numRxDesc ++ rest) →
        Ledger (rxAssignLoop todo port buf).2.2
          ((rxAssignLoop todo port buf).2.1.rxRing.queue port.numRxDesc ++ rest) := by
  induction todo generalizing port buf with
  | zero => exact ⟨RxAssigned.refl ok _ _, fun rest ledger => ledger⟩
  | succ todo ih =>
      rcases ufpSlotAssign_spec port buf with none | ⟨slot, slotNext, free, some⟩
      · simp only [rxAssignLoop, none]
        exact ⟨RxAssigned.refl ok _ _, fun rest ledger => ledger⟩
      · simp only [rxAssignLoop, some]
        have spare : ufpDescUnused port.rxRing port.numRxDesc ≠ 0 := by omega
        have pushed := RxAssigned.push ok spare slot slotNext (ufpSlotAddrDma (buf.mark slot) slot)
          (port.rxRing.desc port.rxRing.nextToUse)
        have left := ok.push_unused spare (port.ops.fillRxDesc
          (port.rxRing.desc port.rxRing.nextToUse) (ufpSlotAddrDma (buf.mark slot) slot)) slot
        obtain ⟨assigned, ledger⟩ := ih _ (buf.mark slot) pushed.ok (by dsimp only; omega)
        refine ⟨pushed.trans assigned, fun rest before => ledger rest ?_⟩
        refine (before.take free).perm ?_
        dsimp only
        rw [ok.push_queue spare, List.append_assoc]
        exact List.perm_middle.symm

theorem RxAssigned.writeTail {port port' : Port} (assigned : RxAssigned port port') (value : Nat) :
    RxAssigned port { port' with rxRing := ufpWriteTail port'.rxRing value } := by
  obtain ⟨⟨ring, slotNext, failed, rfl⟩, ok, queue, window, kept, filled⟩ := assigned
  exact ⟨⟨_, slotNext, failed, rfl⟩, ⟨ok.positive, ok.narrow, ok.use, ok.clean⟩, queue, window,
    kept, filled⟩

/-- `ufp_rx_assign`: free slots join the back of the RX queue. -/
theorem ufpRxAssign_spec (port : Port) (buf : Buf) (ok : port.rxRing.Ok port.numRxDesc) :
    RxAssigned port (ufpRxAssign port buf).1 ∧
      ∀ rest, Ledger buf (port.rxRing.queue port.numRxDesc ++ rest) →
        Ledger (ufpRxAssign port buf).2
          ((ufpRxAssign port buf).1.rxRing.queue port.numRxDesc ++ rest) := by
  obtain ⟨assigned, ledger⟩ := rxAssignLoop_spec _ port buf ok (Nat.le_refl _)
  simp only [ufpRxAssign]
  split
  · exact ⟨assigned, ledger⟩
  · exact ⟨assigned.writeTail _, ledger⟩

/-- What `ufp_rx_clean` may change of a port. -/
structure RxCleaned (port : Port) (packets : List Packet) (port' : Port) : Prop where
  frame : ∃ clean total, port' =
    { port with rxRing := { port.rxRing with nextToClean := clean }, countRxCleanTotal := total }
  ok : port'.rxRing.Ok port.numRxDesc
  queue : port.rxRing.queue port.numRxDesc =
    packets.map Packet.slotIndex ++ port'.rxRing.queue port.numRxDesc
  window : ∃ taken, port.rxRing.window port.numRxDesc =
      taken ++ port'.rxRing.window port.numRxDesc ∧
    ∀ i ∈ taken, (port.ops.fetchRxDesc (port.rxRing.desc i)).isSome = true

theorem RxCleaned.refl {port : Port} (ok : port.rxRing.Ok port.numRxDesc) : RxCleaned port [] port where
  frame := ⟨_, _, rfl⟩
  ok := ok
  queue := by simp
  window := ⟨[], by simp⟩

theorem rxCleanLoop_spec (buf : Buf) (budget : Nat) (port : Port)
    (ok : port.rxRing.Ok port.numRxDesc) :
    RxCleaned port (rxCleanLoop buf budget port).1 (rxCleanLoop buf budget port).2 := by
  induction budget generalizing port with
  | zero => exact .refl ok
  | succ budget ih =>
      simp only [rxCleanLoop]
      split
      · exact .refl ok
      · rename_i some
        split
        · exact .refl ok
        · rename_i slotSize flag fetched
          have popped := ih { port with rxRing := port.rxRing.pop port.numRxDesc } ok.pop
          obtain ⟨⟨clean, total, frame⟩, ok', queue, taken, window, done⟩ := popped
          dsimp only at ok' queue window done
          refine ⟨⟨clean, total, frame⟩, ok', ?_, port.rxRing.nextToClean :: taken, ?_, ?_⟩
          · rw [ok.pop_queue some, queue]
            rfl
          · rw [ok.pop_window some, window]
            rfl
          · intro i member
            rcases List.mem_cons.mp member with rfl | member
            · simp [fetched]
            · exact done i member

/-- `ufp_rx_clean`: the packets carry the slots at the front of the RX queue. -/
theorem ufpRxClean_spec (port : Port) (buf : Buf) (ok : port.rxRing.Ok port.numRxDesc) :
    RxCleaned port (ufpRxClean port buf).1 (ufpRxClean port buf).2 := by
  obtain ⟨⟨clean, total, frame⟩, ok', queue, window⟩ := rxCleanLoop_spec buf port.rxBudget port ok
  refine ⟨⟨clean, total + (ufpRxClean port buf).1.length, ?_⟩, ok', queue, window⟩
  simp only [ufpRxClean, frame]

/-! ## Transmit -/

/-- What `ufp_tx_assign` may change of a port. -/
structure TxAssigned (port port' : Port) : Prop where
  frame : ∃ ring suspended failed, port' =
    { port with txRing := ring, txSuspended := suspended, countTxXmitFailed := failed }
  ok : port'.txRing.Ok port.numTxDesc
  queue : ∃ slots, port'.txRing.queue port.numTxDesc = port.txRing.queue port.numTxDesc ++ slots
  window : ∃ added, port'.txRing.window port.numTxDesc =
    port.txRing.window port.numTxDesc ++ added
  kept : ∀ i ∈ port.txRing.window port.numTxDesc, port'.txRing.desc i = port.txRing.desc i
  filled : ∀ i ∈ port'.txRing.window port.numTxDesc, i ∉ port.txRing.window port.numTxDesc →
    ∃ desc addr packet, port'.txRing.desc i = port.ops.fillTxDesc desc addr packet

/-- The two outcomes of `ufp_tx_assign`: a full ring gives the slot back. -/
theorem ufpTxAssign_full {port : Port} (full : ufpDescUnused port.txRing port.numTxDesc = 0)
    (buf : Buf) (packet : Packet) :
    ufpTxAssign port buf packet =
      ({ port with countTxXmitFailed := port.countTxXmitFailed + 1 },
        ufpSlotRelease buf packet.slotIndex) := by
  simp [ufpTxAssign, full]

theorem ufpTxAssign_room {port : Port} (ok : port.txRing.Ok port.numTxDesc)
    (free : ufpDescUnused port.txRing port.numTxDesc ≠ 0) (buf : Buf) (packet : Packet) :
    (ufpTxAssign port buf packet).2 = buf ∧
      (ufpTxAssign port buf packet).1.txRing.queue port.numTxDesc =
        port.txRing.queue port.numTxDesc ++ [packet.slotIndex] := by
  simp only [ufpTxAssign, free, if_false]
  exact ⟨trivial, ok.push_queue free _ _⟩

theorem ufpTxAssign_assigned (port : Port) (buf : Buf) (packet : Packet)
    (ok : port.txRing.Ok port.numTxDesc) : TxAssigned port (ufpTxAssign port buf packet).1 := by
  by_cases full : ufpDescUnused port.txRing port.numTxDesc = 0
  · rw [ufpTxAssign_full full]
    exact ⟨⟨_, _, _, rfl⟩, ok, ⟨[], by simp⟩, ⟨[], by simp⟩, fun _ _ => rfl,
      fun i member missing => absurd member missing⟩
  · simp only [ufpTxAssign, full, if_false]
    refine ⟨⟨_, _, _, rfl⟩, ok.push _ _, ⟨_, ok.push_queue full _ _⟩, ⟨_, ok.push_window full _ _⟩,
      ?_, ?_⟩
    · intro i member
      have ne : i ≠ port.txRing.nextToUse := fun same => ok.use_notMem (same ▸ member)
      exact Function.update_of_ne ne _ _
    · intro i member missing
      dsimp only at member
      rw [ok.push_window full] at member
      rcases List.mem_append.mp member with old | new
      · exact absurd old missing
      · rw [List.mem_singleton.mp new]
        exact ⟨_, _, _, Function.update_self _ _ _⟩

/-- `ufp_tx_assign`: the slot moves from the caller to the TX queue, or is released. -/
theorem ufpTxAssign_ledger (port : Port) (buf : Buf) (packet : Packet)
    (ok : port.txRing.Ok port.numTxDesc) (rest : List Nat)
    (ledger : Ledger buf (packet.slotIndex :: (port.txRing.queue port.numTxDesc ++ rest))) :
    Ledger (ufpTxAssign port buf packet).2
      ((ufpTxAssign port buf packet).1.txRing.queue port.numTxDesc ++ rest) := by
  by_cases full : ufpDescUnused port.txRing port.numTxDesc = 0
  · rw [ufpTxAssign_full full]
    exact ledger.release
  · obtain ⟨kept, queue⟩ := ufpTxAssign_room ok full buf packet
    rw [kept, queue]
    refine ledger.perm ?_
    rw [List.append_assoc]
    exact List.perm_middle.symm

/-- What `ufp_tx_clean` may change of a port. -/
structure TxCleaned (port port' : Port) : Prop where
  frame : ∃ clean total, port' =
    { port with txRing := { port.txRing with nextToClean := clean }, countTxCleanTotal := total }
  ok : port'.txRing.Ok port.numTxDesc
  window : ∃ taken, port.txRing.window port.numTxDesc =
      taken ++ port'.txRing.window port.numTxDesc ∧
    ∀ i ∈ taken, port.ops.fetchTxDesc (port.txRing.desc i) = true

theorem TxCleaned.refl {port : Port} (ok : port.txRing.Ok port.numTxDesc) : TxCleaned port port where
  frame := ⟨_, _, rfl⟩
  ok := ok
  window := ⟨[], by simp⟩

theorem txCleanLoop_spec (budget : Nat) (port : Port) (buf : Buf)
    (ok : port.txRing.Ok port.numTxDesc) :
    TxCleaned port (txCleanLoop budget port buf).2.1 ∧
      ∀ rest, Ledger buf (port.txRing.queue port.numTxDesc ++ rest) →
        Ledger (txCleanLoop budget port buf).2.2
          ((txCleanLoop budget port buf).2.1.txRing.queue port.numTxDesc ++ rest) := by
  induction budget generalizing port buf with
  | zero => exact ⟨.refl ok, fun rest ledger => ledger⟩
  | succ budget ih =>
      simp only [txCleanLoop]
      split
      · exact ⟨.refl ok, fun rest ledger => ledger⟩
      · rename_i some
        split
        · exact ⟨.refl ok, fun rest ledger => ledger⟩
        · rename_i done
          obtain ⟨⟨⟨clean, total, frame⟩, ok', taken, window, fetched⟩, ledger⟩ :=
            ih { port with txRing := port.txRing.pop port.numTxDesc }
              (ufpSlotRelease buf (port.txRing.slotIndex port.txRing.nextToClean)) ok.pop
          dsimp only at ok' window fetched ledger
          refine ⟨⟨⟨clean, total, frame⟩, ok', port.txRing.nextToClean :: taken, ?_, ?_⟩,
            fun rest before => ledger rest ?_⟩
          · rw [ok.pop_window some, window]
            rfl
          · intro i member
            rcases List.mem_cons.mp member with rfl | member
            · simpa using done
            · exact fetched i member
          · rw [ok.pop_queue some] at before
            exact before.release

/-- `ufp_tx_clean`: slots leave the front of the TX queue and are released. -/
theorem ufpTxClean_spec (port : Port) (buf : Buf) (ok : port.txRing.Ok port.numTxDesc) :
    TxCleaned port (ufpTxClean port buf).1 ∧
      ∀ rest, Ledger buf (port.txRing.queue port.numTxDesc ++ rest) →
        Ledger (ufpTxClean port buf).2
          ((ufpTxClean port buf).1.txRing.queue port.numTxDesc ++ rest) := by
  obtain ⟨⟨⟨clean, total, frame⟩, ok', window⟩, ledger⟩ :=
    txCleanLoop_spec port.txBudget port buf ok
  refine ⟨⟨⟨clean, total + (txCleanLoop port.txBudget port buf).1, ?_⟩, ok', window⟩, ledger⟩
  simp only [ufpTxClean, frame]

/-- `ufp_tx_xmit` writes the tail register and nothing else of the ring. -/
theorem ufpTxXmit_frame (port : Port) : ∃ tail suspended, ufpTxXmit port =
    { port with txRing := { port.txRing with tail }, txSuspended := suspended } := by
  unfold ufpTxXmit
  split
  · exact ⟨_, _, rfl⟩
  · exact ⟨_, _, rfl⟩

/-! ## The slots of one port -/

/-- The slots in the two windows of a port. -/
def Port.slots (port : Port) : List Nat :=
  port.rxRing.queue port.numRxDesc ++ port.txRing.queue port.numTxDesc

theorem Port.slots_append (port : Port) (rest : List Nat) :
    port.slots ++ rest =
      port.rxRing.queue port.numRxDesc ++ (port.txRing.queue port.numTxDesc ++ rest) :=
  List.append_assoc _ _ _

/-- The same slots, with the TX queue in front. -/
theorem Port.slots_perm (port : Port) (rest : List Nat) :
    (port.slots ++ rest).Perm
      (port.txRing.queue port.numTxDesc ++ (port.rxRing.queue port.numRxDesc ++ rest)) := by
  rw [port.slots_append]
  exact List.perm_append_comm_assoc _ _ _

section PortSlots

variable (port : Port) (buf : Buf) {rest : List Nat}

theorem ufpRxAssign_slots (ok : port.rxRing.Ok port.numRxDesc)
    (ledger : Ledger buf (port.slots ++ rest)) :
    Ledger (ufpRxAssign port buf).2 ((ufpRxAssign port buf).1.slots ++ rest) := by
  obtain ⟨assigned, moved⟩ := ufpRxAssign_spec port buf ok
  obtain ⟨ring, slotNext, failed, frame⟩ := assigned.frame
  rw [port.slots_append] at ledger
  have after := moved _ ledger
  rw [Port.slots_append]
  rw [frame] at after ⊢
  exact after

theorem ufpRxClean_slots (ok : port.rxRing.Ok port.numRxDesc)
    (ledger : Ledger buf (port.slots ++ rest)) :
    Ledger buf ((ufpRxClean port buf).1.map Packet.slotIndex ++
      ((ufpRxClean port buf).2.slots ++ rest)) := by
  obtain ⟨⟨clean, total, frame⟩, -, queue, -⟩ := ufpRxClean_spec port buf ok
  rw [port.slots_append, queue, List.append_assoc] at ledger
  rw [Port.slots_append]
  rw [frame] at ledger ⊢
  exact ledger

theorem ufpTxAssign_slots (packet : Packet) (ok : port.txRing.Ok port.numTxDesc)
    (ledger : Ledger buf (packet.slotIndex :: (port.slots ++ rest))) :
    Ledger (ufpTxAssign port buf packet).2 ((ufpTxAssign port buf packet).1.slots ++ rest) := by
  obtain ⟨ring, suspended, failed, frame⟩ := (ufpTxAssign_assigned port buf packet ok).frame
  have after := ufpTxAssign_ledger port buf packet ok _
    (ledger.perm ((port.slots_perm rest).cons packet.slotIndex))
  refine Ledger.perm ?_ (Port.slots_perm _ rest).symm
  rw [frame] at after ⊢
  exact after

theorem ufpTxClean_slots (ok : port.txRing.Ok port.numTxDesc)
    (ledger : Ledger buf (port.slots ++ rest)) :
    Ledger (ufpTxClean port buf).2 ((ufpTxClean port buf).1.slots ++ rest) := by
  obtain ⟨cleaned, moved⟩ := ufpTxClean_spec port buf ok
  obtain ⟨clean, total, frame⟩ := cleaned.frame
  have after := moved _ (ledger.perm (port.slots_perm rest))
  refine Ledger.perm ?_ (Port.slots_perm _ rest).symm
  rw [frame] at after ⊢
  exact after

theorem ufpTxXmit_slots : (ufpTxXmit port).slots = port.slots := by
  obtain ⟨tail, suspended, frame⟩ := ufpTxXmit_frame port
  rw [frame]
  rfl

end PortSlots

/-! ## The tail register -/

/-- A loop that filled nothing left the ring alone. -/
theorem rxAssignLoop_zero {todo : Nat} {port : Port} {buf : Buf}
    (none : (rxAssignLoop todo port buf).1 = 0) :
    (rxAssignLoop todo port buf).2.1.rxRing = port.rxRing := by
  cases todo with
  | zero => rfl
  | succ todo =>
      rcases ufpSlotAssign_spec port buf with failed | ⟨slot, slotNext, -, taken⟩
      · simp only [rxAssignLoop, failed]
      · simp [rxAssignLoop, taken] at none

/-- The RX tail register follows `next_to_use`. -/
theorem ufpRxAssign_tail {port : Port} (buf : Buf) (before : port.rxRing.tail = port.rxRing.nextToUse) :
    (ufpRxAssign port buf).1.rxRing.tail = (ufpRxAssign port buf).1.rxRing.nextToUse := by
  simp only [ufpRxAssign]
  split
  · rename_i none
    dsimp only
    rw [rxAssignLoop_zero none, before]
  · rfl

/-! ## The rings of one port -/

/-- Both rings of a port keep their bounds. -/
structure Port.RingsOk (port : Port) : Prop where
  rx : port.rxRing.Ok port.numRxDesc
  tx : port.txRing.Ok port.numTxDesc

section RingsOk

variable {port : Port} (ok : port.RingsOk) (buf : Buf)

include ok

theorem Port.RingsOk.rxAssign : (ufpRxAssign port buf).1.RingsOk := by
  obtain ⟨assigned, -⟩ := ufpRxAssign_spec port buf ok.rx
  obtain ⟨ring, slotNext, failed, frame⟩ := assigned.frame
  have kept := assigned.ok
  rw [frame] at kept ⊢
  exact ⟨kept, ok.tx⟩

theorem Port.RingsOk.rxClean : (ufpRxClean port buf).2.RingsOk := by
  obtain ⟨⟨clean, total, frame⟩, kept, -, -⟩ := ufpRxClean_spec port buf ok.rx
  rw [frame] at kept ⊢
  exact ⟨kept, ok.tx⟩

theorem Port.RingsOk.txAssign (packet : Packet) : (ufpTxAssign port buf packet).1.RingsOk := by
  have assigned := ufpTxAssign_assigned port buf packet ok.tx
  obtain ⟨ring, suspended, failed, frame⟩ := assigned.frame
  have kept := assigned.ok
  rw [frame] at kept ⊢
  exact ⟨ok.rx, kept⟩

/-- The TX queue of a port after `ufp_tx_assign` starts with what it held. -/
theorem Port.RingsOk.txAssign_queue (packet : Packet) :
    let port' := (ufpTxAssign port buf packet).1
    ∃ more, port'.txRing.queue port'.numTxDesc = port.txRing.queue port.numTxDesc ++ more := by
  have assigned := ufpTxAssign_assigned port buf packet ok.tx
  obtain ⟨ring, suspended, failed, frame⟩ := assigned.frame
  obtain ⟨more, queue⟩ := assigned.queue
  refine ⟨more, ?_⟩
  rw [frame] at queue ⊢
  exact queue

theorem Port.RingsOk.txClean : (ufpTxClean port buf).1.RingsOk := by
  obtain ⟨cleaned, -⟩ := ufpTxClean_spec port buf ok.tx
  obtain ⟨clean, total, frame⟩ := cleaned.frame
  have kept := cleaned.ok
  rw [frame] at kept ⊢
  exact ⟨ok.rx, kept⟩

omit buf in
theorem Port.RingsOk.txXmit : (ufpTxXmit port).RingsOk := by
  obtain ⟨tail, suspended, frame⟩ := ufpTxXmit_frame port
  rw [frame]
  exact ⟨ok.rx, ok.tx.positive, ok.tx.narrow, ok.tx.use, ok.tx.clean⟩

theorem Port.RingsOk.slotAssign : (ufpSlotAssign port buf).2.1.RingsOk := by
  rcases ufpSlotAssign_spec port buf with none | ⟨slot, slotNext, -, taken⟩
  · rw [none]
    exact ok
  · rw [taken]
    exact ⟨ok.rx, ok.tx⟩

end RingsOk

/-! ## All the ports of a plane -/

/-- `plane->ports[idx]`, written back. -/
def Plane.setPort (plane : Plane) (idx : Nat) (port : Port) : Plane :=
  { plane with ports := Function.update plane.ports idx port }

@[simp] theorem Plane.setPort_self (plane : Plane) (idx : Nat) (port : Port) :
    (plane.setPort idx port).ports idx = port := Function.update_self _ _ _

theorem Plane.setPort_of_ne (plane : Plane) {idx q : Nat} (port : Port) (ne : q ≠ idx) :
    (plane.setPort idx port).ports q = plane.ports q := Function.update_of_ne ne _ _

/-- The slots in the windows of all ports. -/
def Plane.slots (plane : Plane) : List Nat := Slots.gather plane.numPorts Port.slots plane.ports

/-- The slots in the windows of the ports other than `idx`. -/
def Plane.others (plane : Plane) (idx : Nat) : List Nat :=
  Slots.others plane.numPorts Port.slots plane.ports idx

/-- A port that keeps its slots changes nothing for the plane. -/
theorem Plane.slots_setPort {plane : Plane} {idx : Nat} {port : Port}
    (same : port.slots = (plane.ports idx).slots) : (plane.setPort idx port).slots = plane.slots := by
  refine List.flatMap_congr fun q _ => ?_
  by_cases here : q = idx
  · subst here
    rw [setPort_self, same]
  · rw [setPort_of_ne _ _ here]

/-- A ledger is updated one port at a time. -/
theorem Ledger.setPort {plane : Plane} {idx : Nat} (inside : idx < plane.numPorts) {port : Port}
    {buf : Buf} {held : List Nat} (ledger : Ledger buf (port.slots ++ (held ++ plane.others idx))) :
    Ledger buf (held ++ (plane.setPort idx port).slots) := by
  have split : (plane.setPort idx port).slots.Perm (port.slots ++ plane.others idx) :=
    Slots.gather_update inside port
  refine ledger.perm ?_
  exact (List.perm_append_comm_assoc port.slots held _).trans (split.symm.append_left held)

theorem Ledger.port {plane : Plane} {idx : Nat} (inside : idx < plane.numPorts)
    {buf : Buf} {held : List Nat} (ledger : Ledger buf (held ++ plane.slots)) :
    Ledger buf ((plane.ports idx).slots ++ (held ++ plane.others idx)) := by
  have split : plane.slots.Perm ((plane.ports idx).slots ++ plane.others idx) :=
    Slots.gather_perm inside
  refine ledger.perm ?_
  exact (split.append_left held).trans (List.perm_append_comm_assoc held _ _)

end Ufp.Lib.Io
