/-
# Ufp.Lib.SlotArray — the calls that touch `buf->slots`, with the bounds of the array

`ufp_rx_assign` takes slots, `ufp_tx_assign` and `ufp_tx_clean` give them back. Each is
written here once more, over `ufpSlotAssignInt` and over a release that looks where it
writes; `none` is what C leaves undefined.

A port that keeps to the array (`Port.Inside`) has its region there and holds no slot
from outside in its rings. On such a port each call is the one of `Ufp.Lib.Io`, and
leaves a port that keeps to the array (`Computes`).
-/
import Ufp.Lib.SlotExact

namespace Ufp.Lib.Io

open Ufp.Theory

set_option autoImplicit false

/-! ## The calls -/

/-- `ufp_slot_release`. -/
def ufpSlotReleaseInt (buf : Buf) (slot : Nat) : Option Buf :=
  if slot < buf.numSlots then some (ufpSlotRelease buf slot) else none

/-- The loop of `ufp_rx_assign`. -/
def rxAssignLoopInt : Nat → Port → Buf → Option (Nat × Port × Buf)
  | 0, port, buf => some (0, port, buf)
  | todo + 1, port, buf => do
      let (slotIndex, port, buf) ← ufpSlotAssignInt port buf
      if slotIndex < 0 then
        return (0, { port with countRxAllocFailed := port.countRxAllocFailed + (todo + 1) }, buf)
      let desc := port.ops.fillRxDesc (port.rxRing.desc port.rxRing.nextToUse)
        (ufpSlotAddrDma buf slotIndex.toNat)
      let port := { port with rxRing := port.rxRing.push port.numRxDesc desc slotIndex.toNat }
      let (allocated, port, buf) ← rxAssignLoopInt todo port buf
      return (allocated + 1, port, buf)

/-- `ufp_rx_assign`. -/
def ufpRxAssignInt (port : Port) (buf : Buf) : Option (Port × Buf) := do
  let (allocated, port, buf) ← rxAssignLoopInt (ufpDescUnused port.rxRing port.numRxDesc) port buf
  if allocated = 0 then return (port, buf)
  return ({ port with rxRing := ufpWriteTail port.rxRing port.rxRing.nextToUse }, buf)

/-- `ufp_tx_assign`. -/
def ufpTxAssignInt (packet : Packet) (port : Port) (buf : Buf) : Option (Port × Buf) :=
  if ufpDescUnused port.txRing port.numTxDesc = 0 then do
    let buf ← ufpSlotReleaseInt buf packet.slotIndex
    return ({ port with countTxXmitFailed := port.countTxXmitFailed + 1 }, buf)
  else
    let desc := port.ops.fillTxDesc (port.txRing.desc port.txRing.nextToUse)
      (ufpSlotAddrDma buf packet.slotIndex) packet
    some ({ port with
        txRing := port.txRing.push port.numTxDesc desc packet.slotIndex
        txSuspended := (port.txSuspended + 1) % 2 ^ 32 }, buf)

/-- The loop of `ufp_tx_clean`. -/
def txCleanLoopInt : Nat → Port → Buf → Option (Nat × Port × Buf)
  | 0, port, buf => some (0, port, buf)
  | budget + 1, port, buf =>
      if port.txRing.nextToClean = port.txRing.nextToUse then some (0, port, buf)
      else if !port.ops.fetchTxDesc (port.txRing.desc port.txRing.nextToClean) then some (0, port, buf)
      else do
        let buf ← ufpSlotReleaseInt buf (port.txRing.slotIndex port.txRing.nextToClean)
        let (cleaned, port, buf) ← txCleanLoopInt budget
          { port with txRing := port.txRing.pop port.numTxDesc } buf
        return (cleaned + 1, port, buf)

/-- `ufp_tx_clean`. -/
def ufpTxCleanInt (port : Port) (buf : Buf) : Option (Port × Buf) := do
  let (cleaned, port, buf) ← txCleanLoopInt port.txBudget port buf
  return ({ port with countTxCleanTotal := port.countTxCleanTotal + cleaned }, buf)

/-! ## Ports that keep to the array -/

/-- A buffer with an array of `length` slots, `count` for each port. -/
structure Buf.Sized (buf : Buf) (count length : Nat) : Prop where
  slots : buf.numSlots = length
  int : length < 2 ^ 31
  each : buf.count = count

/-- The region of the port lies in the array, and so do the slots in its rings. -/
structure Port.Inside (port : Port) (count length : Nat) : Prop where
  region : port.rxSlotOffset + count ≤ length
  next : port.NextOk count
  rings : port.RingsOk
  slots : ∀ slot ∈ port.slots, slot < length

/-- On a port that keeps to the array, `code` does what `call` does, and that keeps the
port to the array. -/
def Computes (count length : Nat) (code : Port → Buf → Option (Port × Buf)) (call : Port → Buf → Port × Buf) : Prop :=
  ∀ {port : Port} {buf : Buf}, buf.Sized count length → port.Inside count length →
    code port buf = some (call port buf) ∧ (call port buf).1.Inside count length ∧
      (call port buf).2.Sized count length

section

variable {port : Port} {buf : Buf} {count length slot : Nat}

theorem Buf.Sized.mark (sized : buf.Sized count length) (slot : Nat) : (buf.mark slot).Sized count length :=
  ⟨sized.slots, sized.int, sized.each⟩

theorem Buf.Sized.release (sized : buf.Sized count length) (slot : Nat) : (ufpSlotRelease buf slot).Sized count length :=
  ⟨sized.slots, sized.int, sized.each⟩

theorem Port.Inside.rxSlot (inside : port.Inside count length)
    (member : slot ∈ port.rxRing.queue port.numRxDesc) : slot < length :=
  inside.slots slot (List.mem_append_left _ member)

theorem Port.Inside.txSlot (inside : port.Inside count length)
    (member : slot ∈ port.txRing.queue port.numTxDesc) : slot < length :=
  inside.slots slot (List.mem_append_right _ member)

theorem ufpSlotReleaseInt_eq (sized : buf.Sized count length) (less : slot < length) :
    ufpSlotReleaseInt buf slot = some (ufpSlotRelease buf slot) :=
  if_pos (sized.slots ▸ less)

/-- `ufp_slot_assign` on a port that keeps to the array; a region without slots has nothing
to search. -/
theorem Port.Inside.slotAssignInt (inside : port.Inside count length) (sized : buf.Sized count length) :
    ufpSlotAssignInt port buf =
      some ((ufpSlotAssign port buf).1.elim (-1) fun slot => (slot : Int), (ufpSlotAssign port buf).2) := by
  obtain ⟨rfl, int, rfl⟩ := sized
  rcases Nat.eq_zero_or_pos buf.count with none | some
  · simp only [ufpSlotAssignInt, ufpSlotAssign, none, slotLoop, slotSearch, Option.elim]
  · exact ufpSlotAssignInt_eq ⟨inside.region, int⟩ (inside.next some)

/-- What `ufp_slot_assign` returned is in the array. -/
theorem Port.Inside.assigned (inside : port.Inside count length) (sized : buf.Sized count length)
    (returned : (ufpSlotAssign port buf).1 = some slot) : slot < length := by
  obtain ⟨-, -, rfl⟩ := sized
  obtain ⟨k, less, rfl⟩ := ufpSlotAssign_returns inside.next returned
  have region := inside.region
  omega

theorem Port.Inside.slotAssign (inside : port.Inside count length) (sized : buf.Sized count length) :
    (ufpSlotAssign port buf).2.1.Inside count length := by
  have rings := inside.rings.slotAssign buf
  obtain ⟨-, -, rfl⟩ := sized
  obtain ⟨-, next, -⟩ := ufpSlotAssign_keeps inside.next
  rcases ufpSlotAssign_spec port buf with none | ⟨slot, slotNext, -, taken⟩
  · rw [none]
    exact inside
  · rw [taken] at rings next ⊢
    exact ⟨inside.region, next, rings, inside.slots⟩

/-- A slot of the array is posted. -/
theorem Port.Inside.push (inside : port.Inside count length) (less : slot < length)
    (room : ufpDescUnused port.rxRing port.numRxDesc ≠ 0) (desc : Desc) :
    ({ port with rxRing := port.rxRing.push port.numRxDesc desc slot } : Port).Inside count length := by
  refine ⟨inside.region, inside.next, ⟨inside.rings.rx.push desc slot, inside.rings.tx⟩, fun other member => ?_⟩
  rcases List.mem_append.mp member with rx | tx
  · dsimp only at rx
    rw [inside.rings.rx.push_queue room] at rx
    rcases List.mem_append.mp rx with old | new
    · exact inside.rxSlot old
    · rwa [List.mem_singleton.mp new]
  · exact inside.txSlot tx

end

/-! ## Receive -/

variable {count length : Nat} {port : Port}

theorem rxAssignLoopInt_eq (todo : Nat) {buf : Buf} (sized : buf.Sized count length)
    (inside : port.Inside count length) (room : todo ≤ ufpDescUnused port.rxRing port.numRxDesc) :
    rxAssignLoopInt todo port buf = some (rxAssignLoop todo port buf) ∧
      (rxAssignLoop todo port buf).2.1.Inside count length ∧
      (rxAssignLoop todo port buf).2.2.Sized count length := by
  induction todo generalizing port buf with
  | zero => exact ⟨rfl, inside, sized⟩
  | succ todo ih =>
      have code := inside.slotAssignInt sized
      have next := inside.slotAssign sized
      rcases ufpSlotAssign_spec port buf with none | ⟨slot, slotNext, -, taken⟩
      · rw [none] at code
        simp only [rxAssignLoopInt, rxAssignLoop, code, none, Option.elim, Option.bind_eq_bind, Option.bind_some]
        exact ⟨rfl, ⟨inside.region, inside.next, ⟨inside.rings.rx, inside.rings.tx⟩, inside.slots⟩, sized⟩
      · have less := inside.assigned sized (congrArg Prod.fst taken)
        have natural : ¬ (slot : Int) < 0 := by omega
        rw [taken] at code next
        simp only [rxAssignLoopInt, rxAssignLoop, code, taken, Option.elim, Option.bind_eq_bind, Option.bind_some,
          if_neg natural, Int.toNat_natCast]
        generalize port.ops.fillRxDesc _ _ = desc
        have spare : ufpDescUnused port.rxRing port.numRxDesc ≠ 0 := by omega
        have left := inside.rings.rx.push_unused spare desc slot
        obtain ⟨same, kept, sized⟩ := ih (sized.mark slot) (next.push less spare desc) (by dsimp only; omega)
        rw [same]
        exact ⟨rfl, kept, sized⟩

theorem ufpRxAssign_computes (count length : Nat) : Computes count length ufpRxAssignInt ufpRxAssign := by
  intro port buf sized inside
  obtain ⟨same, kept, sized⟩ := rxAssignLoopInt_eq _ sized inside (Nat.le_refl _)
  simp only [ufpRxAssignInt, ufpRxAssign, same, Option.bind_eq_bind, Option.bind_some]
  split
  · exact ⟨rfl, kept, sized⟩
  · obtain ⟨region, next, ⟨⟨positive, narrow, use, clean⟩, tx⟩, slots⟩ := kept
    exact ⟨rfl, ⟨region, next, ⟨⟨positive, narrow, use, clean⟩, tx⟩, slots⟩, sized⟩

/-- The packets of `ufp_rx_clean` are in slots of the array. -/
theorem Port.Inside.rxClean (inside : port.Inside count length) (buf : Buf) :
    (ufpRxClean port buf).2.Inside count length ∧
      ∀ packet ∈ (ufpRxClean port buf).1, packet.slotIndex < length := by
  have rings := inside.rings.rxClean buf
  obtain ⟨⟨clean, total, frame⟩, -, queue, -⟩ := ufpRxClean_spec port buf inside.rings.rx
  constructor
  · rw [frame] at rings queue ⊢
    refine ⟨inside.region, inside.next, rings, fun slot member => ?_⟩
    rcases List.mem_append.mp member with rx | tx
    · refine inside.rxSlot ?_
      rw [queue]
      exact List.mem_append_right _ rx
    · exact inside.txSlot tx
  · intro packet member
    refine inside.rxSlot ?_
    rw [queue]
    exact List.mem_append_left _ (List.mem_map_of_mem member)

/-! ## Transmit -/

theorem ufpTxAssign_computes {packet : Packet} (less : packet.slotIndex < length) :
    Computes count length (ufpTxAssignInt packet) fun port buf => ufpTxAssign port buf packet := by
  intro port buf sized inside
  have rings := inside.rings.txAssign buf packet
  by_cases full : ufpDescUnused port.txRing port.numTxDesc = 0
  · rw [ufpTxAssign_full full] at rings
    simp only [ufpTxAssignInt, full, if_true, ufpTxAssign_full full, ufpSlotReleaseInt_eq sized less]
    exact ⟨rfl, ⟨inside.region, inside.next, rings, inside.slots⟩, sized.release _⟩
  · have queue := (ufpTxAssign_room inside.rings.tx full buf packet).2
    simp only [ufpTxAssign, full, if_false] at rings queue
    simp only [ufpTxAssignInt, ufpTxAssign, full, if_false]
    refine ⟨trivial, ⟨inside.region, inside.next, rings, fun slot member => ?_⟩, sized⟩
    rcases List.mem_append.mp member with rx | tx
    · exact inside.rxSlot rx
    · dsimp only at tx
      rw [queue] at tx
      rcases List.mem_append.mp tx with old | new
      · exact inside.txSlot old
      · rwa [List.mem_singleton.mp new]

theorem txCleanLoopInt_eq (budget : Nat) {buf : Buf} (sized : buf.Sized count length)
    (inside : port.Inside count length) :
    txCleanLoopInt budget port buf = some (txCleanLoop budget port buf) ∧
      (txCleanLoop budget port buf).2.1.Inside count length ∧
      (txCleanLoop budget port buf).2.2.Sized count length := by
  induction budget generalizing port buf with
  | zero => exact ⟨rfl, inside, sized⟩
  | succ budget ih =>
      simp only [txCleanLoopInt, txCleanLoop]
      split
      case isTrue => exact ⟨rfl, inside, sized⟩
      case isFalse some =>
          split
          case isTrue => exact ⟨rfl, inside, sized⟩
          case isFalse =>
              have queue := inside.rings.tx.pop_queue some
              have less : port.txRing.slotIndex port.txRing.nextToClean < length := by
                refine inside.txSlot ?_
                rw [queue]
                exact List.mem_cons_self
              have popped : ({ port with txRing := port.txRing.pop port.numTxDesc } : Port).Inside count length := by
                refine ⟨inside.region, inside.next, ⟨inside.rings.rx, inside.rings.tx.pop⟩, fun slot member => ?_⟩
                rcases List.mem_append.mp member with rx | tx
                · exact inside.rxSlot rx
                · refine inside.txSlot ?_
                  rw [queue]
                  exact List.mem_cons_of_mem _ tx
              obtain ⟨same, kept, sized'⟩ := ih (sized.release (port.txRing.slotIndex port.txRing.nextToClean)) popped
              rw [ufpSlotReleaseInt_eq sized less]
              simp only [Option.bind_eq_bind, Option.bind_some, same]
              exact ⟨rfl, kept, sized'⟩

theorem ufpTxClean_computes (count length : Nat) : Computes count length ufpTxCleanInt ufpTxClean := by
  intro port buf sized inside
  obtain ⟨same, kept, sized⟩ := txCleanLoopInt_eq port.txBudget sized inside
  simp only [ufpTxCleanInt, ufpTxClean, same, Option.bind_eq_bind, Option.bind_some]
  exact ⟨rfl, ⟨kept.region, kept.next, ⟨kept.rings.rx, kept.rings.tx⟩, kept.slots⟩, sized⟩

theorem Port.Inside.txXmit (inside : port.Inside count length) : (ufpTxXmit port).Inside count length := by
  have rings := inside.rings.txXmit
  have slots := @ufpTxXmit_slots port
  obtain ⟨tail, suspended, frame⟩ := ufpTxXmit_frame port
  rw [frame] at rings slots ⊢
  exact ⟨inside.region, inside.next, rings, fun slot member => inside.slots slot (slots ▸ member)⟩

end Ufp.Lib.Io
