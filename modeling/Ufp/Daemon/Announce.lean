/-
# Ufp.Daemon.Announce — every descriptor that was filled is announced

A device looks at a descriptor once the tail register of its ring has passed it.
`ufp_rx_assign` writes the RX tail itself; `ufp_tx_assign` only counts, in
`tx_suspended`, and `ufp_tx_xmit` writes the TX tail later. Each handler that may
fill a TX descriptor ends with `ufp_tx_xmit` on all ports, and routes lead to ports
of the thread, so between two events nothing is left over
(`filled_is_announced`).
-/
import Ufp.Daemon.Events

namespace Ufp.Daemon

open Ufp.Lib.Io Ufp.Theory

set_option autoImplicit false

/-! ## One port -/

/-- The tail registers are up to date, and nothing waits for `ufp_tx_xmit`. -/
structure Announced (port : Port) : Prop where
  rx : port.rxRing.tail = port.rxRing.nextToUse
  tx : port.txRing.tail = port.txRing.nextToUse
  suspended : port.txSuspended = 0

/-- While packets are handed to `ufp_tx_assign`: `tx_suspended` counts descriptors in
the window, so it does not overflow, and it is 0 only if the tail is up to date. -/
structure Suspending (port : Port) : Prop where
  rx : port.rxRing.tail = port.rxRing.nextToUse
  tx : port.txSuspended = 0 → port.txRing.tail = port.txRing.nextToUse
  counted : port.txSuspended ≤
    Ring.occupied port.numTxDesc port.txRing.nextToClean port.txRing.nextToUse

/-- The state of a port between two events. -/
structure Settled (port : Port) : Prop where
  rings : port.RingsOk
  announced : Announced port

/-- The state of a port inside a handler. -/
structure Unsettled (port : Port) : Prop where
  rings : port.RingsOk
  suspending : Suspending port

section Port

variable {port : Port} (buf : Buf)

theorem Settled.unsettled (settled : Settled port) : Unsettled port := by
  obtain ⟨rings, rx, tx, suspended⟩ := settled
  refine ⟨rings, rx, fun _ => tx, ?_⟩
  rw [suspended]
  exact Nat.zero_le _

theorem Unsettled.txAssign (unsettled : Unsettled port) (packet : Packet) :
    Unsettled (ufpTxAssign port buf packet).1 := by
  obtain ⟨rings, rx, tx, counted⟩ := unsettled
  refine ⟨rings.txAssign buf packet, ?_⟩
  by_cases full : ufpDescUnused port.txRing port.numTxDesc = 0
  · rw [ufpTxAssign_full full]
    exact ⟨rx, tx, counted⟩
  · have room := rings.tx.room full
    have narrow := rings.tx.narrow
    have more := Ring.occupied_push rings.tx.clean rings.tx.use room
    have exact : (port.txSuspended + 1) % 2 ^ 32 = port.txSuspended + 1 := Nat.mod_eq_of_lt (by omega)
    simp only [ufpTxAssign, full, if_false, exact]
    refine ⟨rx, fun zero => absurd zero (Nat.succ_ne_zero _), ?_⟩
    simp only [Ring.push, bump_eq_next narrow rings.tx.use]
    rw [more]
    omega

theorem Unsettled.xmit (unsettled : Unsettled port) : Settled (ufpTxXmit port) := by
  refine ⟨unsettled.rings.txXmit, ?_⟩
  unfold ufpTxXmit
  split
  · rename_i none
    exact ⟨unsettled.suspending.rx, unsettled.suspending.tx none, none⟩
  · exact ⟨unsettled.suspending.rx, rfl, rfl⟩

theorem Settled.rxAssign (settled : Settled port) : Settled (ufpRxAssign port buf).1 := by
  have tail := ufpRxAssign_tail buf settled.announced.rx
  refine ⟨settled.rings.rxAssign buf, ?_⟩
  obtain ⟨ring, slotNext, failed, frame⟩ := (ufpRxAssign_spec port buf settled.rings.rx).1.frame
  rw [frame] at tail ⊢
  exact ⟨tail, settled.announced.tx, settled.announced.suspended⟩

theorem Settled.rxClean (settled : Settled port) : Settled (ufpRxClean port buf).2 := by
  refine ⟨settled.rings.rxClean buf, ?_⟩
  obtain ⟨clean, total, frame⟩ := (ufpRxClean_spec port buf settled.rings.rx).frame
  rw [frame]
  exact ⟨settled.announced.rx, settled.announced.tx, settled.announced.suspended⟩

theorem Settled.txClean (settled : Settled port) : Settled (ufpTxClean port buf).1 := by
  refine ⟨settled.rings.txClean buf, ?_⟩
  obtain ⟨clean, total, frame⟩ := (ufpTxClean_spec port buf settled.rings.tx).1.frame
  rw [frame]
  exact ⟨settled.announced.rx, settled.announced.tx, settled.announced.suspended⟩

theorem Settled.slotAssign (settled : Settled port) : Settled (ufpSlotAssign port buf).2.1 := by
  refine ⟨settled.rings.slotAssign buf, ?_⟩
  rcases ufpSlotAssign_spec port buf with none | ⟨slot, slotNext, -, taken⟩
  · rw [none]
    exact settled.announced
  · rw [taken]
    exact ⟨settled.announced.rx, settled.announced.tx, settled.announced.suspended⟩

end Port

/-! ## The handlers -/

namespace Forwarder

variable {s : Forwarder}

/-- `ufp_tx_xmit` on every port settles what a handler has filled. -/
theorem everyPort_xmit (unsettled : s.AllPorts Unsettled) : (s.everyPort xmit).AllPorts Settled := by
  intro idx inside
  rw [everyPort_thread] at inside
  obtain ⟨buf, called⟩ := @everyPort_port s idx xmit inside
  rw [called]
  exact (unsettled idx inside).xmit

theorem AllPorts.unsettled (settled : s.AllPorts Settled) : s.AllPorts Unsettled :=
  fun idx inside => (settled idx inside).unsettled

theorem settled_irqRx (settled : s.AllPorts Settled) (portIndex : Nat) :
    (s.threadProcessIrqRx portIndex).AllPorts Settled := by
  apply everyPort_xmit
  apply forwardProcess_rule (I := AllPorts Unsettled)
  · exact fun _ _ _ all => all
  · exact fun s p packet _ all => all.onPort fun port buf unsettled => unsettled.txAssign buf packet
  · exact fun _ _ all => all
  · apply AllPorts.unsettled
    apply settled.setPort
    exact fun inside => (settled portIndex inside).rxClean s.buf

theorem settled_irqTx (settled : s.AllPorts Settled) (portIndex : Nat) :
    (s.threadProcessIrqTx portIndex).AllPorts Settled := by
  have cleaned : (s.onPort portIndex ufpTxClean).AllPorts Settled :=
    settled.onPort fun port buf one => one.txClean buf
  apply everyPort_rule (I := AllPorts Settled)
  · exact fun s' _ idx _ all => all.onPort fun port buf one => one.rxAssign buf
  · exact cleaned

theorem settled_tun (settled : s.AllPorts Settled) (portIndex : Nat) (readBuf : List UInt8) :
    (s.threadProcessTun portIndex readBuf).AllPorts Settled := by
  apply everyPort_xmit
  rcases s.forwardProcessTun_cases portIndex readBuf with same | ⟨slotNext, mem, packet, -, taken, done⟩
  · rw [same]
    exact settled.unsettled
  · rw [done]
    have next : (s.taking portIndex slotNext packet.slotIndex mem).AllPorts Settled := by
      refine settled.setPort fun inside => ?_
      have one := (settled portIndex inside).slotAssign s.buf
      rwa [taken] at one
    exact next.unsettled.onPort fun port buf unsettled => unsettled.txAssign buf packet

theorem settled_device (settled : s.AllPorts Settled) (rx tx : Nat → Nat → Desc) (mem : Bytes) :
    (s.device rx tx mem).AllPorts Settled := by
  intro idx inside
  obtain ⟨⟨⟨a, b, c, d⟩, e, f, g, h⟩, announced⟩ := settled idx inside
  exact ⟨⟨⟨a, b, c, d⟩, e, f, g, h⟩, announced.rx, announced.tx, announced.suspended⟩

end Forwarder

/-! ## Runs -/

/-- Between two events. -/
structure Quiet (s : Forwarder) : Prop where
  settled : s.AllPorts Settled
  portsIn : s.thread.PortsIn

theorem Quiet.handle {s : Forwarder} (quiet : Quiet s) (event : Event) : Quiet (s.handle event).2 := by
  refine ⟨?_, Forwarder.handle_portsIn quiet.portsIn event⟩
  have settled := quiet.settled
  cases event with
  | device rx tx mem => exact Forwarder.settled_device settled rx tx mem
  | irqRx portIndex read => exact Forwarder.settled_irqRx settled portIndex
  | irqTx portIndex read => exact Forwarder.settled_irqTx settled portIndex
  | tun portIndex read =>
      cases read with
      | none => exact settled
      | some readBuf => exact Forwarder.settled_tun settled portIndex readBuf
  | netlink read =>
      cases read with
      | none => exact settled
      | some readBuf =>
          intro idx inside
          exact settled idx (netlinkProcess_numPorts s.thread readBuf _ ▸ inside)
  | signal read => exact settled

theorem Boot.quiet (boot : Boot) : Quiet boot.start := by
  refine ⟨?_, ?_⟩
  · apply Forwarder.everyPort_rule (I := Forwarder.AllPorts Settled)
    · exact fun s _ idx _ all => all.onPort fun port buf one => one.rxAssign buf
    · intro idx inside
      obtain ⟨ops, iface, reset, same⟩ := boot.port inside
      rw [same]
      have rx := reset.rx
      have tx := reset.tx
      refine ⟨⟨rx.ok, tx.ok⟩, ?_, ?_, rfl⟩
      · exact rx.tail.trans rx.use.symm
      · exact tx.tail.trans tx.use.symm
  · rw [Boot.start, Forwarder.everyPort_thread]
    exact boot.portsIn

/-- **Nothing filled stays unannounced.** Between any two events, the last value
written to each tail register is `next_to_use` of its ring and `tx_suspended` is 0,
for every port of the thread; and a packet can only be passed to one of these. -/
theorem filled_is_announced (boot : Boot) (events : List Event) :
    let s := (threadWait events boot.start).2
    (∀ idx < s.thread.numPorts, Announced (s.plane.ports idx)) ∧
      ∀ packet p, s.decision packet = some p → p < s.thread.numPorts := by
  have quiet : Quiet (threadWait events boot.start).2 := by
    apply threadWait_rule (I := Quiet) (C := fun _ _ => True)
    · exact fun s event quiet _ => quiet.handle event
    · exact boot.quiet
    · exact along_of_forall (fun _ _ _ => trivial) _
  refine ⟨fun idx inside => (quiet.settled idx inside).announced, ?_⟩
  intro packet p sent
  exact Forwarder.decision_lt quiet.portsIn sent

end Ufp.Daemon
