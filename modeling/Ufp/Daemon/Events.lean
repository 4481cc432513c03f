/-
# Ufp.Daemon.Events — the event loop of a forwarding thread

`thread_wait` handles one event at a time: an RX or TX interrupt of a port, a
frame read from a port's TAP device, netlink messages, a signal. What a handler
does is here a function on the state of the thread: its tables, the plane, the
packet buffer and the memory behind it. Between two events the devices write
descriptors and packets (`Event.device`), in any way at all.

`forwardProcess` is `forward_process` as it stands: a packet that was handed to
`ufp_tx_assign` runs on into `packet_drop`, and its slot is released.

* `Boot` is a thread that reaches its event loop, from the allocations on.
* `threadWait_rule`: what holds at the start and is kept by each event holds
  between any two events.
-/
import Ufp.Daemon.FibPorts
import Ufp.Dev.I40e
import Ufp.Lib.Plane

namespace Ufp.Daemon

open Ufp.Lib.Io

set_option autoImplicit false

/-! ## State -/

/-- What `thread_wait` works on. `mem` is the memory at virtual addresses, and `tap`
lists the frames written to each port's TAP device. -/
structure Forwarder where
  thread : UfpdThread
  plane : Plane
  buf : Buf
  mem : Bytes
  tap : Nat → List (List UInt8)
  numPorts : thread.numPorts = plane.numPorts

namespace Forwarder

variable (s : Forwarder)

/-- A library call on one port. -/
def onPort (idx : Nat) (f : Port → Buf → Port × Buf) : Forwarder :=
  { s with
    plane := s.plane.setPort idx (f (s.plane.ports idx) s.buf).1
    buf := (f (s.plane.ports idx) s.buf).2 }

/-- `for(i = 0; i < thread->num_ports; i++)` with a library call on port `i`. -/
def everyPort (f : Port → Buf → Port × Buf) : Forwarder :=
  (List.range s.thread.numPorts).foldl (fun s idx => s.onPort idx f) s

/-- `ufp_tx_xmit`, which leaves the buffer alone. -/
def xmit (port : Port) (buf : Buf) : Port × Buf := (ufpTxXmit port, buf)

def release (slot : Nat) : Forwarder := { s with buf := ufpSlotRelease s.buf slot }

/-- The bytes a packet's `slot_buf` points to. -/
def view (packet : Packet) : Bytes := fun i => s.mem (packet.slotBuf + i)

/-- The memory after a packet's bytes have become `bytes`. -/
def store (packet : Packet) (bytes : Bytes) : Forwarder :=
  { s with mem := fun a => if a < packet.slotBuf then s.mem a else bytes (a - packet.slotBuf) }

/-- `write` of a packet to a TAP device. -/
def writeTap (portIndex : Nat) (packet : Packet) : Forwarder :=
  let frame := (List.range packet.slotSize).map (s.view packet)
  { s with tap := Function.update s.tap portIndex (s.tap portIndex ++ [frame]) }

/-! ## `forward_process` -/

/-- `ntohs(eth->h_proto)`. -/
def ethProto (buf : Bytes) : Nat := (buf 12).toNat * 2 ^ 8 + (buf 13).toNat

def ethPArp : Nat := 0x0806
def ethPIp : Nat := 0x0800
def ethPIpv6 : Nat := 0x86DD

/-- The `switch` of `forward_process`. -/
def forwardSwitch (thread : UfpdThread) (buf : Bytes) : Forwarded :=
  if ethProto buf = ethPArp then forwardArpProcess buf
  else if ethProto buf = ethPIp then forwardIpProcess thread buf
  else if ethProto buf = ethPIpv6 then forwardIp6Process thread buf
  else ⟨-1, buf, false⟩

/-- One iteration of `forward_process`, up to the label `packet_drop`. -/
def forwardPacket (portIndex : Nat) (packet : Packet) : Forwarder :=
  if packet.flag &&& packetError ≠ 0 then s
  else
    let done := forwardSwitch s.thread (s.view packet)
    let s := if done.toTap then s.writeTap portIndex packet else s
    let s := s.store packet done.buf
    if done.ret < 0 then s
    else s.onPort done.ret.toNat fun port buf => ufpTxAssign port buf packet

/-- `forward_process`. -/
def forwardProcess (portIndex : Nat) (packets : List Packet) : Forwarder :=
  packets.foldl (fun s packet => (s.forwardPacket portIndex packet).release packet.slotIndex) s

/-- `forward_process_tun`. -/
def forwardProcessTun (portIndex : Nat) (readBuf : List UInt8) : Forwarder :=
  if readBuf.length > s.buf.slotSize then s
  else
    match ufpSlotAssign (s.plane.ports portIndex) s.buf with
    | (none, port, buf) => { s with plane := s.plane.setPort portIndex port, buf }
    | (some slotIndex, port, buf) =>
        let packet : Packet :=
          { slotBuf := ufpSlotAddrVirt buf slotIndex, slotSize := readBuf.length, slotIndex
            flag := packetEof }
        let s := { s with
          plane := s.plane.setPort portIndex port
          buf
          mem := copyTo s.mem packet.slotBuf (bytesAt readBuf) readBuf.length }
        s.onPort portIndex fun port buf => ufpTxAssign port buf packet

/-! ## The handlers -/

/-- `thread_process_irq_rx`, up to its `read`. -/
def threadProcessIrqRx (portIndex : Nat) : Forwarder :=
  let (packets, port) := ufpRxClean (s.plane.ports portIndex) s.buf
  let s := { s with plane := s.plane.setPort portIndex port }
  (s.forwardProcess portIndex packets).everyPort xmit

/-- `thread_process_irq_tx`, up to its `read`. -/
def threadProcessIrqTx (portIndex : Nat) : Forwarder :=
  (s.onPort portIndex ufpTxClean).everyPort ufpRxAssign

/-- `thread_process_tun` after a successful `read`. -/
def threadProcessTun (portIndex : Nat) (readBuf : List UInt8) : Forwarder :=
  (s.forwardProcessTun portIndex readBuf).everyPort xmit

/-- `thread_process_netlink` after a successful `read`. -/
def threadProcessNetlink (readBuf : List UInt8) : Forwarder :=
  { s with
    thread := netlinkProcess s.thread readBuf readBuf.length
    numPorts := (netlinkProcess_numPorts s.thread readBuf _).trans s.numPorts }

/-- The devices have written descriptors and memory. -/
def device (rx tx : Nat → Nat → Desc) (mem : Bytes) : Forwarder :=
  let touch (idx : Nat) (port : Port) : Port :=
    { port with
      rxRing := { port.rxRing with desc := rx idx }
      txRing := { port.txRing with desc := tx idx } }
  { s with plane := { s.plane with ports := fun idx => touch idx (s.plane.ports idx) }, mem }

end Forwarder

/-- What `thread_wait` is woken by, with the result of the handler's `read`, and the
devices at work in between. -/
inductive Event where
  | device (rx tx : Nat → Nat → Desc) (mem : Bytes)
  | irqRx (portIndex : Nat) (read : Bool)
  | irqTx (portIndex : Nat) (read : Bool)
  | tun (portIndex : Nat) (read : Option (List UInt8))
  | netlink (read : Option (List UInt8))
  | signal (read : Bool)

/-- Interrupts and TAP devices are registered for the ports of the thread. -/
def Event.Ok (numPorts : Nat) : Event → Prop
  | .irqRx portIndex _ => portIndex < numPorts
  | .irqTx portIndex _ => portIndex < numPorts
  | .tun portIndex _ => portIndex < numPorts
  | _ => True

instance (numPorts : Nat) : (event : Event) → Decidable (event.Ok numPorts)
  | .irqRx portIndex _ => inferInstanceAs (Decidable (portIndex < numPorts))
  | .irqTx portIndex _ => inferInstanceAs (Decidable (portIndex < numPorts))
  | .tun portIndex _ => inferInstanceAs (Decidable (portIndex < numPorts))
  | .device .. => isTrue trivial
  | .netlink _ => isTrue trivial
  | .signal _ => isTrue trivial

/-- One iteration over the events: `none` to go on, or what `thread_wait` returns. -/
def Forwarder.handle (s : Forwarder) : Event → Option Int × Forwarder
  | .device rx tx mem => (none, s.device rx tx mem)
  | .irqRx portIndex read => (if read then none else some (-1), s.threadProcessIrqRx portIndex)
  | .irqTx portIndex read => (if read then none else some (-1), s.threadProcessIrqTx portIndex)
  | .tun portIndex (some readBuf) => (none, s.threadProcessTun portIndex readBuf)
  | .tun _ none => (some (-1), s)
  | .netlink (some readBuf) => (none, s.threadProcessNetlink readBuf)
  | .netlink none => (some (-1), s)
  | .signal read => (some (if read then 0 else -1), s)

/-- `thread_wait`, on the events up to now. -/
def threadWait : List Event → Forwarder → Option Int × Forwarder
  | [], s => (none, s)
  | event :: events, s =>
      match s.handle event with
      | (none, s) => threadWait events s
      | (some ret, s) => (some ret, s)

/-! ## What a call on a port leaves alone -/

namespace Forwarder

variable {s : Forwarder} {idx : Nat} {f : Port → Buf → Port × Buf}

@[simp] theorem onPort_thread : (s.onPort idx f).thread = s.thread := rfl

@[simp] theorem onPort_self : (s.onPort idx f).plane.ports idx = (f (s.plane.ports idx) s.buf).1 :=
  Plane.setPort_self _ _ _

theorem onPort_of_ne {q : Nat} (ne : q ≠ idx) : (s.onPort idx f).plane.ports q = s.plane.ports q :=
  Plane.setPort_of_ne _ _ ne

/-- The induction over the loop: `I n` is what holds before the call on port `n`. -/
theorem everyPort_induct {I : Nat → Forwarder → Prop}
    (step : ∀ s' : Forwarder, s'.thread = s.thread → ∀ idx < s.thread.numPorts, I idx s' →
      I (idx + 1) (s'.onPort idx f)) (start : I 0 s) : I s.thread.numPorts (s.everyPort f) := by
  have loop : ∀ n ≤ s.thread.numPorts,
      ((List.range n).foldl (fun s idx => s.onPort idx f) s).thread = s.thread ∧
        I n ((List.range n).foldl (fun s idx => s.onPort idx f) s) := by
    intro n inside
    induction n with
    | zero => exact ⟨rfl, start⟩
    | succ n ih =>
        obtain ⟨same, kept⟩ := ih (by omega)
        rw [List.range_succ, List.foldl_append]
        exact ⟨same, step _ same n inside kept⟩
  exact (loop _ (Nat.le_refl _)).2

/-- What each call keeps, a loop over the ports keeps. -/
theorem everyPort_rule {I : Forwarder → Prop}
    (step : ∀ s' : Forwarder, s'.thread = s.thread → ∀ idx < s.thread.numPorts, I s' → I (s'.onPort idx f))
    (start : I s) : I (s.everyPort f) :=
  everyPort_induct (I := fun _ => I) step start

@[simp] theorem everyPort_thread : (s.everyPort f).thread = s.thread :=
  everyPort_rule (I := fun s' => s'.thread = s.thread) (fun _ _ _ _ same => same) rfl

/-- A loop over the ports calls the function once for each port. -/
theorem everyPort_port (inside : idx < s.thread.numPorts) :
    ∃ buf, (s.everyPort f).plane.ports idx = (f (s.plane.ports idx) buf).1 := by
  have called := everyPort_induct (s := s) (f := f)
    (I := fun n s' => (idx < n → ∃ buf, s'.plane.ports idx = (f (s.plane.ports idx) buf).1) ∧
      (n ≤ idx → s'.plane.ports idx = s.plane.ports idx)) ?_ ?_
  · exact called.1 inside
  · rintro s' - n - ⟨before, waiting⟩
    constructor
    · intro less
      by_cases here : idx = n
      · subst here
        exact ⟨s'.buf, by rw [onPort_self, waiting (Nat.le_refl _)]⟩
      · rw [onPort_of_ne here]
        exact before (by omega)
    · intro beyond
      rw [onPort_of_ne (by omega)]
      exact waiting (by omega)
  · exact ⟨fun less => absurd less (Nat.not_lt_zero idx), fun _ => rfl⟩

/-- `P` holds for every port. -/
def AllPorts (P : Port → Prop) (s : Forwarder) : Prop := ∀ idx < s.thread.numPorts, P (s.plane.ports idx)

theorem AllPorts.onPort {P : Port → Prop} (all : s.AllPorts P)
    (kept : ∀ port buf, P port → P (f port buf).1) : (s.onPort idx f).AllPorts P := by
  intro q inside
  by_cases same : q = idx
  · subst same
    rw [onPort_self]
    exact kept _ _ (all q inside)
  · rw [onPort_of_ne same]
    exact all q inside

theorem AllPorts.setPort {P : Port → Prop} (all : s.AllPorts P) {idx : Nat} {port : Port} {buf : Buf}
    {mem : Bytes} (new : idx < s.thread.numPorts → P port) :
    ({ s with plane := s.plane.setPort idx port, buf, mem } : Forwarder).AllPorts P := by
  intro q inside
  by_cases same : q = idx
  · subst same
    show P ((s.plane.setPort q port).ports q)
    rw [Plane.setPort_self]
    exact new inside
  · show P ((s.plane.setPort idx port).ports q)
    rw [Plane.setPort_of_ne _ _ same]
    exact all q inside

end Forwarder

/-! ## Passing one packet on -/

namespace Forwarder

/-- The port `forward_process` passes a packet to. -/
def decision (s : Forwarder) (packet : Packet) : Option Nat :=
  if packet.flag &&& packetError ≠ 0 then none
  else
    let ret := (forwardSwitch s.thread (s.view packet)).ret
    if ret < 0 then none else some ret.toNat

/-- A packet is kept as it is, or goes to a port of the thread. -/
theorem forwardSwitch_cases (thread : UfpdThread) (buf : Bytes) :
    (∃ toTap, forwardSwitch thread buf = ⟨-1, buf, toTap⟩) ∨
      ∃ port sent, (forwardSwitch thread buf = ⟨(port : Nat), sent, false⟩) ∧
        (thread.PortsIn → port < thread.numPorts) := by
  unfold forwardSwitch
  split_ifs
  · exact .inl ⟨true, rfl⟩
  · rcases forwardIpProcess_cases thread buf with ⟨-, done⟩ | ⟨-, done⟩ | ⟨port, entry, hop, -, done⟩
    · exact .inl ⟨_, done⟩
    · exact .inl ⟨_, done⟩
    · exact .inr ⟨port, _, done, fun ok => nextHop_port ok.inet hop⟩
  · rcases forwardIp6Process_cases thread buf with
      ⟨-, -, done⟩ | ⟨-, done⟩ | ⟨port, entry, -, hop, -, done⟩
    · exact .inl ⟨_, done⟩
    · exact .inl ⟨_, done⟩
    · exact .inr ⟨port, _, done, fun ok => nextHop_port ok.inet6 hop⟩
  · exact .inl ⟨false, rfl⟩

variable {s : Forwarder} {packet : Packet} {portIndex p : Nat}

theorem store_view : s.store packet (s.view packet) = s := by
  have same : (fun a => if a < packet.slotBuf then s.mem a else s.view packet (a - packet.slotBuf)) =
      s.mem := by
    funext a
    split
    · rfl
    · show s.mem (packet.slotBuf + (a - packet.slotBuf)) = s.mem a
      congr 1
      omega
  unfold store
  rw [same]

/-- A packet that is not sent on changes nothing but what was written to the TAP; one
that is sent on is handed to `ufp_tx_assign`. -/
theorem forwardPacket_cases (s : Forwarder) (portIndex : Nat) (packet : Packet) :
    (s.decision packet = none ∧ ∃ tap, s.forwardPacket portIndex packet = { s with tap }) ∨
    ∃ p, s.decision packet = some p ∧ (s.thread.PortsIn → p < s.thread.numPorts) ∧
      ∃ mem tap, s.forwardPacket portIndex packet =
        ({ s with mem, tap } : Forwarder).onPort p fun port buf => ufpTxAssign port buf packet := by
  unfold decision forwardPacket
  by_cases error : packet.flag &&& packetError ≠ 0
  · rw [if_pos error, if_pos error]
    exact .inl ⟨rfl, s.tap, rfl⟩
  · rw [if_neg error, if_neg error]
    rcases forwardSwitch_cases s.thread (s.view packet) with ⟨toTap, done⟩ | ⟨port, sent, done, inside⟩
    · left
      rw [done]
      refine ⟨rfl, ?_⟩
      cases toTap with
      | true => exact ⟨_, @store_view (s.writeTap portIndex packet) packet⟩
      | false => exact ⟨s.tap, store_view⟩
    · right
      have natural : ¬ (port : Int) < 0 := Int.not_lt.mpr (Int.natCast_nonneg port)
      rw [done]
      dsimp only
      rw [if_neg natural, if_neg natural]
      exact ⟨port, rfl, inside, _, _, rfl⟩

theorem decision_lt (ok : s.thread.PortsIn) (sent : s.decision packet = some p) :
    p < s.thread.numPorts := by
  rcases s.forwardPacket_cases 0 packet with ⟨kept, -⟩ | ⟨q, chosen, inside, -⟩
  · rw [kept] at sent
    cases sent
  · obtain rfl := Option.some.inj (chosen.symm.trans sent)
    exact inside ok

/-- What `ufp_tx_assign` and `ufp_slot_release` keep, `forward_process` keeps. -/
theorem forwardProcess_rule {I : Forwarder → Prop}
    (other : ∀ s mem tap, I s → I { s with mem, tap })
    (assign : ∀ s p packet, (s.thread.PortsIn → p < s.thread.numPorts) → I s →
      I (s.onPort p fun port buf => ufpTxAssign port buf packet))
    (release : ∀ s slot, I s → I (s.release slot)) {s : Forwarder} {portIndex : Nat}
    {packets : List Packet} (start : I s) : I (s.forwardProcess portIndex packets) := by
  unfold forwardProcess
  induction packets generalizing s with
  | nil => exact start
  | cons packet packets ih =>
      apply ih
      apply release
      rcases s.forwardPacket_cases portIndex packet with ⟨-, tap, done⟩ | ⟨p, -, inside, mem, tap, done⟩
      · rw [done]
        exact other s s.mem tap start
      · rw [done]
        exact assign _ p packet inside (other s mem tap start)

@[simp] theorem forwardProcess_thread {packets : List Packet} :
    (s.forwardProcess portIndex packets).thread = s.thread :=
  forwardProcess_rule (I := fun s' => s'.thread = s.thread) (fun _ _ _ same => same)
    (fun _ _ _ _ same => same) (fun _ _ same => same) rfl

/-! ## An RX interrupt -/

/-- The packets an RX interrupt of a port brings. -/
def received (s : Forwarder) (portIndex : Nat) : List Packet :=
  (ufpRxClean (s.plane.ports portIndex) s.buf).1

/-- The state after `ufp_rx_clean`. -/
def cleaned (s : Forwarder) (portIndex : Nat) : Forwarder :=
  { s with plane := s.plane.setPort portIndex (ufpRxClean (s.plane.ports portIndex) s.buf).2 }

theorem threadProcessIrqRx_eq (s : Forwarder) (portIndex : Nat) :
    s.threadProcessIrqRx portIndex =
      ((s.cleaned portIndex).forwardProcess portIndex (s.received portIndex)).everyPort xmit := rfl

/-! ## A frame from the TAP device -/

/-- The state after `ufp_slot_assign` has returned a slot and the frame was copied. -/
def taking (s : Forwarder) (portIndex slotNext slot : Nat) (mem : Bytes) : Forwarder :=
  { s with
    plane := s.plane.setPort portIndex { s.plane.ports portIndex with rxSlotNext := slotNext }
    buf := s.buf.mark slot
    mem }

/-- Nothing happens to a frame that does not fit or finds no slot; any other is handed to
`ufp_tx_assign` in a slot that was free. -/
theorem forwardProcessTun_cases (s : Forwarder) (portIndex : Nat) (readBuf : List UInt8) :
    s.forwardProcessTun portIndex readBuf = s ∨
      ∃ slotNext mem packet, s.buf.inflight packet.slotIndex = false ∧
        ufpSlotAssign (s.plane.ports portIndex) s.buf = (some packet.slotIndex,
          { s.plane.ports portIndex with rxSlotNext := slotNext }, s.buf.mark packet.slotIndex) ∧
        s.forwardProcessTun portIndex readBuf =
          (s.taking portIndex slotNext packet.slotIndex mem).onPort portIndex
            fun port buf => ufpTxAssign port buf packet := by
  unfold forwardProcessTun
  split
  · exact .inl rfl
  · rcases ufpSlotAssign_spec (s.plane.ports portIndex) s.buf with none | ⟨slot, slotNext, free, taken⟩
    · left
      rw [none]
      have same : s.plane.setPort portIndex (s.plane.ports portIndex) = s.plane := by
        rw [Plane.setPort, Function.update_eq_self]
      dsimp only
      simp only [same]
    · right
      rw [taken]
      exact ⟨slotNext, _, ⟨_, _, slot, _⟩, free, rfl, rfl⟩

/-! ## The tables -/

@[simp] theorem forwardProcessTun_thread {readBuf : List UInt8} :
    (s.forwardProcessTun portIndex readBuf).thread = s.thread := by
  rcases s.forwardProcessTun_cases portIndex readBuf with same | ⟨slotNext, mem, packet, -, -, done⟩
  · rw [same]
  · rw [done]
    rfl

@[simp] theorem threadProcessIrqRx_thread : (s.threadProcessIrqRx portIndex).thread = s.thread := by
  simp [threadProcessIrqRx]

@[simp] theorem threadProcessIrqTx_thread : (s.threadProcessIrqTx portIndex).thread = s.thread := by
  simp [threadProcessIrqTx]

@[simp] theorem threadProcessTun_thread {readBuf : List UInt8} :
    (s.threadProcessTun portIndex readBuf).thread = s.thread := by
  simp [threadProcessTun]

theorem threadProcessNetlink_eq {readBuf : List UInt8} {thread : UfpdThread}
    (read : netlinkProcess s.thread readBuf readBuf.length = thread)
    (numPorts : thread.numPorts = s.plane.numPorts) :
    s.threadProcessNetlink readBuf = { s with thread, numPorts } := by
  subst read
  rfl

/-- Only netlink messages change the tables. -/
theorem handle_thread (s : Forwarder) (event : Event) :
    (s.handle event).2.thread = s.thread ∨
      ∃ readBuf, (s.handle event).2.thread = netlinkProcess s.thread readBuf readBuf.length := by
  cases event with
  | device rx tx mem => exact .inl rfl
  | irqRx portIndex read => exact .inl threadProcessIrqRx_thread
  | irqTx portIndex read => exact .inl threadProcessIrqTx_thread
  | tun portIndex read =>
      cases read with
      | none => exact .inl rfl
      | some readBuf => exact .inl threadProcessTun_thread
  | netlink read =>
      cases read with
      | none => exact .inl rfl
      | some readBuf => exact .inr ⟨readBuf, rfl⟩
  | signal read => exact .inl rfl

theorem handle_portsIn (ok : s.thread.PortsIn) (event : Event) : (s.handle event).2.thread.PortsIn := by
  rcases s.handle_thread event with same | ⟨readBuf, heard⟩
  · rwa [same]
  · rw [heard]
    exact netlinkProcess_portsIn ok readBuf _

end Forwarder

/-! ## The start -/

/-- A thread that gets to its event loop: the buffer and its tables could be
allocated, and the rings of the interfaces have just been made. The slots of all ports
can be counted in the `int` of `ufp_alloc_buf`, so that `buf->slots` has an element for
each of them. -/
structure Boot where
  host : Host
  devs : List Dev
  rings : ∀ dev ∈ devs, ∀ iface ∈ dev.iface, iface.Reset
  slotSize : UInt32
  bufCount : UInt32
  mpool : Ufp.Lib.Mem.Mpool
  mpool' : Ufp.Lib.Mem.Mpool
  buf : Buf
  made : ufpAllocBuf host devs slotSize bufCount mpool = (some buf, mpool')
  counted : numIfaces devs * bufCount.toNat < 2 ^ 31
  heap : Heap
  thread : UfpdThread
  prepared : threadPrepare (ufpPlaneAlloc devs buf).numPorts
    (fun idx => ((ufpPlaneAlloc devs buf).ports idx).tapIndex)
    (fun idx => ((ufpPlaneAlloc devs buf).ports idx).macAddr) heap = some thread
  mem : Bytes

namespace Boot

variable (boot : Boot)

/-- The state in front of `Prepare initial RX buffer`. -/
def fresh : Forwarder where
  thread := boot.thread
  plane := ufpPlaneAlloc boot.devs boot.buf
  buf := boot.buf
  mem := boot.mem
  tap := fun _ => []
  numPorts := (threadPrepare_spec boot.prepared).1.1

/-- The state in which `thread_wait` is called. -/
def start : Forwarder := boot.fresh.everyPort ufpRxAssign

/-- The buffer has `count` slots for each port. -/
theorem whole : boot.buf.Whole (numIfaces boot.devs) := (ufpAllocBuf_whole_iff boot.made).mpr boot.counted

theorem port_lt {idx : Nat} (inside : idx < boot.fresh.thread.numPorts) : idx < numIfaces boot.devs := by
  rw [boot.fresh.numPorts] at inside
  exact Nat.lt_of_lt_of_le inside (Nat.mod_le _ _)

theorem portsIn : boot.fresh.thread.PortsIn := threadPrepare_portsIn boot.prepared

/-- A port before the first slots are posted. -/
theorem port {idx : Nat} (inside : idx < boot.fresh.thread.numPorts) :
    ∃ ops iface, iface.Reset ∧ boot.fresh.plane.ports idx = planePort boot.buf idx (ops, iface) := by
  rw [boot.fresh.numPorts] at inside
  obtain ⟨dev, known, iface, among, same⟩ := ufpPlaneAlloc_port inside
  exact ⟨dev.ops, iface, boot.rings dev known iface among, same⟩

theorem free (slot : Nat) : boot.fresh.buf.inflight slot = false := by
  obtain ⟨-, -, -, -, zero⟩ := ufpAllocBuf_spec boot.made
  show (boot.buf.slots slot &&& slotInflight != 0) = false
  rw [zero]
  rfl

end Boot

/-- The devices of `sampleBoot`: one, with rings of four descriptors. -/
def sampleDevs : List Dev := [sampleDev Dev.I40e.i40eOps 4]

/-- Its buffer of eight slots. -/
def sampleSlots : Buf := (ufpAllocBuf samplePages sampleDevs 2048 8 samplePool).1.get (by decide +kernel)

/-- A thread with one port, whose TAP device is interface 5. -/
def sampleBoot : Boot where
  host := samplePages
  devs := sampleDevs
  rings := by
    intro dev member iface among
    obtain rfl := List.mem_singleton.mp member
    obtain rfl := List.mem_singleton.mp among
    exact ⟨⟨by decide, rfl, rfl, rfl⟩, ⟨by decide, rfl, rfl, rfl⟩⟩
  slotSize := 2048
  bufCount := 8
  mpool := samplePool
  mpool' := (ufpAllocBuf samplePages sampleDevs 2048 8 samplePool).2
  buf := sampleSlots
  made := by
    rw [sampleSlots, Option.some_get]
  counted := by decide
  heap := sampleHeap some
  thread := (threadPrepare (ufpPlaneAlloc sampleDevs sampleSlots).numPorts
    (fun idx => ((ufpPlaneAlloc sampleDevs sampleSlots).ports idx).tapIndex)
    (fun idx => ((ufpPlaneAlloc sampleDevs sampleSlots).ports idx).macAddr) (sampleHeap some)).get
      (by decide +kernel)
  prepared := (Option.some_get _).symm
  mem := fun _ => 0

/-- The devices have written one packet of 64 bytes into the first slot posted, which is
at address 8192. -/
def sampleArrival (frame : Bytes) : Event :=
  .device (fun _ i => if i = 0 then ⟨0, 3 + 64 <<< 38⟩ else ⟨0, 0⟩) (fun _ _ => ⟨0, 0⟩)
    fun a => frame (a - 8192)

/-! ## Rules for runs -/

/-- Each event handled on the way meets a condition on the state before it. -/
def Along (C : Forwarder → Event → Prop) : List Event → Forwarder → Prop
  | [], _ => True
  | event :: events, s =>
      C s event ∧
        match s.handle event with
        | (none, s) => Along C events s
        | (some _, _) => True

/-- What each event keeps under its condition holds between any two events. -/
theorem threadWait_rule {I : Forwarder → Prop} {C : Forwarder → Event → Prop}
    (step : ∀ s event, I s → C s event → I (s.handle event).2) {events : List Event} {s : Forwarder}
    (start : I s) (along : Along C events s) : I (threadWait events s).2 := by
  induction events generalizing s with
  | nil => exact start
  | cons event events ih =>
      obtain ⟨meets, later⟩ := along
      have next := step s event start meets
      rcases handled : s.handle event with ⟨_ | ret, s'⟩
      · rw [handled] at next later
        simp only [threadWait, handled]
        exact ih next later
      · rw [handled] at next
        simp only [threadWait, handled]
        exact next

/-- A run goes on from the state the events so far have led to. -/
theorem threadWait_append {events : List Event} {s s' : Forwarder} (later : List Event)
    (run : threadWait events s = (none, s')) : threadWait (events ++ later) s = threadWait later s' := by
  induction events generalizing s with
  | nil =>
      obtain rfl : s = s' := congrArg Prod.snd run
      rfl
  | cons event events ih =>
      rw [threadWait] at run
      rw [List.cons_append, threadWait]
      split at run
      · exact ih run
      · cases run

/-- A condition that holds of every state of an invariant and every event of the list
is met along the run. -/
theorem along_of_forall {C : Forwarder → Event → Prop} {events : List Event}
    (all : ∀ event ∈ events, ∀ s, C s event) (s : Forwarder) : Along C events s := by
  induction events generalizing s with
  | nil => trivial
  | cons event events ih =>
      obtain ⟨first, rest⟩ := List.forall_mem_cons.mp all
      refine ⟨first s, ?_⟩
      split
      · exact ih rest _
      · trivial

end Ufp.Daemon
