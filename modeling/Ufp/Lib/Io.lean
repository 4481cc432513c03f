/-
# Ufp.Lib.Io — slots and descriptor rings, `lib/lib_io.c`

A port has an RX ring and a TX ring of descriptors. Packet slots travel from
the free pool through an RX ring to the client and through a TX ring back; the
flag `UFP_SLOT_INFLIGHT` in `buf->slots` marks the slots that are out.

Ring indices are `uint16_t` (`bump`, `ufpDescUnused` keep the truncations), and
`num_desc` is narrowed to `uint16_t` where the source passes it. A descriptor is
its two quadwords; the driver's `fill` and `fetch` act on one descriptor.

Slot indices are naturals here, and a port is taken to keep to the array `buf->slots`.
`Ufp.Lib.SlotExact` has the search in the `int`s of the code and with the bounds of the
array, and proves it equal to the one here for a buffer with `count` slots per port.
-/
import Ufp.Theory.Ring

namespace Ufp.Lib.Io

set_option autoImplicit false

/-! ## Data model -/

/-- One descriptor of a ring, as two 64-bit words. -/
structure Desc where
  qword0 : Nat
  qword1 : Nat
  deriving DecidableEq, Inhabited

/-- `struct ufp_packet`. -/
structure Packet where
  slotBuf : Nat
  slotSize : Nat
  slotIndex : Nat
  flag : Nat
  deriving DecidableEq

/-- `UFP_PACKET_ERROR`. -/
def packetError : Nat := 0x1

/-- `UFP_PACKET_EOF`. -/
def packetEof : Nat := 0x2

/-- `UFP_SLOT_INFLIGHT`. -/
def slotInflight : Nat := 0x1

/-- `struct ufp_ring`; `tail` is the last value written to the tail register. -/
structure Ring where
  desc : Nat → Desc
  tail : Nat
  nextToUse : Nat
  nextToClean : Nat
  slotIndex : Nat → Nat

/-- The descriptor functions of `struct ufp_ops`. A fetched RX descriptor gives
`slot_size` and `flag`; `none` and `false` are the error returns. -/
structure Ops where
  fillRxDesc : Desc → Nat → Desc
  fetchRxDesc : Desc → Option (Nat × Nat)
  fillTxDesc : Desc → Nat → Packet → Desc
  fetchTxDesc : Desc → Bool

/-- `struct ufp_port`, less the interrupt handles. -/
structure Port where
  ops : Ops
  rxRing : Ring
  txRing : Ring
  numTxDesc : Nat
  numRxDesc : Nat
  rxBudget : Nat
  txBudget : Nat
  macAddr : Nat → UInt8
  tapIndex : Int
  rxSlotNext : Nat
  rxSlotOffset : Nat
  txSuspended : Nat
  countRxAllocFailed : Nat
  countRxCleanTotal : Nat
  countTxXmitFailed : Nat
  countTxCleanTotal : Nat

/-- `struct ufp_buf`. `slots` points to `numSlots` elements, and there is nothing to read
or write behind them. -/
structure Buf where
  addrVirt : Nat
  addrDma : Nat
  slotSize : Nat
  size : Nat
  count : Nat
  numSlots : Nat
  slots : Nat → Nat

/-- A buffer with `count` slots for each of `ports` ports: the array has as many elements,
and an `int` can number them. -/
structure Buf.Whole (buf : Buf) (ports : Nat) : Prop where
  length : buf.numSlots = ports * buf.count
  int : buf.numSlots < 2 ^ 31

/-- `struct ufp_plane`. -/
structure Plane where
  ports : Nat → Port
  numPorts : Nat

def Buf.inflight (buf : Buf) (slot : Nat) : Bool := buf.slots slot &&& slotInflight != 0

/-- `buf->slots[slot] |= UFP_SLOT_INFLIGHT`. -/
def Buf.mark (buf : Buf) (slot : Nat) : Buf :=
  { buf with slots := Function.update buf.slots slot (buf.slots slot ||| slotInflight) }

/-! ## Slots -/

/-- The search of `ufp_slot_assign` over the `todo` slots left to try. -/
def slotSearch (buf : Buf) (offset : Nat) : Nat → Nat → Option Nat
  | 0, _ => none
  | todo + 1, slotNext =>
      if !buf.inflight (offset + slotNext) then some slotNext
      else slotSearch buf offset todo (if slotNext + 1 = buf.count then 0 else slotNext + 1)

/-- `ufp_slot_assign`, for a port whose region lies in the array; `none` is the return
value -1. -/
def ufpSlotAssign (port : Port) (buf : Buf) : Option Nat × Port × Buf :=
  match slotSearch buf port.rxSlotOffset buf.count port.rxSlotNext with
  | none => (none, port, buf)
  | some slotNext =>
      let slot := port.rxSlotOffset + slotNext
      (some slot,
        { port with rxSlotNext := if slotNext + 1 = buf.count then 0 else slotNext + 1 },
        buf.mark slot)

/-- `ufp_slot_release`. -/
def ufpSlotRelease (buf : Buf) (slot : Nat) : Buf :=
  { buf with slots := Function.update buf.slots slot 0 }

/-- `ufp_slot_addr_dma`: `slot_size` is a `uint32_t`, and so is the product. -/
def ufpSlotAddrDma (buf : Buf) (slot : Nat) : Nat := buf.addrDma + buf.slotSize * slot % 2 ^ 32

/-- `ufp_slot_addr_virt`: its parameter is a `uint16_t`. -/
def ufpSlotAddrVirt (buf : Buf) (slot : Nat) : Nat :=
  buf.addrVirt + buf.slotSize * (slot % 2 ^ 16) % 2 ^ 32

/-! ## Rings -/

/-- `ufp_desc_unused`, with its `uint16_t` parameter and result. -/
def ufpDescUnused (ring : Ring) (numDesc : Nat) : Nat :=
  if ring.nextToClean > ring.nextToUse then ring.nextToClean - ring.nextToUse - 1
  else ((((numDesc % 2 ^ 16 : Nat) : Int) - ring.nextToUse + ring.nextToClean - 1) % 2 ^ 16).toNat

/-- The next ring index, computed in a `uint16_t`. -/
def bump (numDesc i : Nat) : Nat :=
  if (i + 1) % 2 ^ 16 < numDesc then (i + 1) % 2 ^ 16 else 0

/-- `ufp_slot_attach` at `next_to_use`, with the descriptor filled and the index moved on. -/
def Ring.push (ring : Ring) (numDesc : Nat) (desc : Desc) (slot : Nat) : Ring :=
  { ring with
    desc := Function.update ring.desc ring.nextToUse desc
    slotIndex := Function.update ring.slotIndex ring.nextToUse slot
    nextToUse := bump numDesc ring.nextToUse }

/-- Move `next_to_clean` on. -/
def Ring.pop (ring : Ring) (numDesc : Nat) : Ring :=
  { ring with nextToClean := bump numDesc ring.nextToClean }

/-- `ufp_write_tail`. -/
def ufpWriteTail (ring : Ring) (value : Nat) : Ring := { ring with tail := value }

/-- The loop of `ufp_rx_assign`, with `todo = max_allocation - total_allocated`;
the first component counts the descriptors filled. -/
def rxAssignLoop : Nat → Port → Buf → Nat × Port × Buf
  | 0, port, buf => (0, port, buf)
  | todo + 1, port, buf =>
      match ufpSlotAssign port buf with
      | (none, port, buf) =>
          (0, { port with countRxAllocFailed := port.countRxAllocFailed + (todo + 1) }, buf)
      | (some slot, port, buf) =>
          let desc := port.ops.fillRxDesc (port.rxRing.desc port.rxRing.nextToUse)
            (ufpSlotAddrDma buf slot)
          let port := { port with rxRing := port.rxRing.push port.numRxDesc desc slot }
          let (allocated, port, buf) := rxAssignLoop todo port buf
          (allocated + 1, port, buf)

/-- `ufp_rx_assign`. -/
def ufpRxAssign (port : Port) (buf : Buf) : Port × Buf :=
  let (allocated, port, buf) := rxAssignLoop (ufpDescUnused port.rxRing port.numRxDesc) port buf
  if allocated = 0 then (port, buf)
  else ({ port with rxRing := ufpWriteTail port.rxRing port.rxRing.nextToUse }, buf)

/-- `ufp_tx_assign`. -/
def ufpTxAssign (port : Port) (buf : Buf) (packet : Packet) : Port × Buf :=
  if ufpDescUnused port.txRing port.numTxDesc = 0 then
    ({ port with countTxXmitFailed := port.countTxXmitFailed + 1 },
      ufpSlotRelease buf packet.slotIndex)
  else
    let desc := port.ops.fillTxDesc (port.txRing.desc port.txRing.nextToUse)
      (ufpSlotAddrDma buf packet.slotIndex) packet
    ({ port with
        txRing := port.txRing.push port.numTxDesc desc packet.slotIndex
        txSuspended := (port.txSuspended + 1) % 2 ^ 32 }, buf)

/-- `ufp_tx_xmit`. -/
def ufpTxXmit (port : Port) : Port :=
  if port.txSuspended = 0 then port
  else { port with txRing := ufpWriteTail port.txRing port.txRing.nextToUse, txSuspended := 0 }

/-- The loop of `ufp_rx_clean` with `budget` packets to go. -/
def rxCleanLoop (buf : Buf) : Nat → Port → List Packet × Port
  | 0, port => ([], port)
  | budget + 1, port =>
      if port.rxRing.nextToClean = port.rxRing.nextToUse then ([], port)
      else
        match port.ops.fetchRxDesc (port.rxRing.desc port.rxRing.nextToClean) with
        | none => ([], port)
        | some (slotSize, flag) =>
            let slotIndex := port.rxRing.slotIndex port.rxRing.nextToClean
            let packet : Packet :=
              { slotBuf := ufpSlotAddrVirt buf slotIndex, slotSize, slotIndex, flag }
            let (packets, port) := rxCleanLoop buf budget
              { port with rxRing := port.rxRing.pop port.numRxDesc }
            (packet :: packets, port)

/-- `ufp_rx_clean`: the packets received and the port. -/
def ufpRxClean (port : Port) (buf : Buf) : List Packet × Port :=
  let (packets, port) := rxCleanLoop buf port.rxBudget port
  (packets, { port with countRxCleanTotal := port.countRxCleanTotal + packets.length })

/-- The loop of `ufp_tx_clean` with `budget` descriptors to go. -/
def txCleanLoop : Nat → Port → Buf → Nat × Port × Buf
  | 0, port, buf => (0, port, buf)
  | budget + 1, port, buf =>
      if port.txRing.nextToClean = port.txRing.nextToUse then (0, port, buf)
      else if !port.ops.fetchTxDesc (port.txRing.desc port.txRing.nextToClean) then (0, port, buf)
      else
        let buf := ufpSlotRelease buf (port.txRing.slotIndex port.txRing.nextToClean)
        let (cleaned, port, buf) := txCleanLoop budget
          { port with txRing := port.txRing.pop port.numTxDesc } buf
        (cleaned + 1, port, buf)

/-- `ufp_tx_clean`. -/
def ufpTxClean (port : Port) (buf : Buf) : Port × Buf :=
  let (cleaned, port, buf) := txCleanLoop port.txBudget port buf
  ({ port with countTxCleanTotal := port.countTxCleanTotal + cleaned }, buf)

end Ufp.Lib.Io
