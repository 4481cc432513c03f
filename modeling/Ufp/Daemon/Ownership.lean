/-
# Ufp.Daemon.Ownership — who holds a packet slot

Between two events a slot is free, or posted in an RX ring, or waiting in a TX
ring, and `UFP_SLOT_INFLIGHT` should say which slots are not free (`Owned`).
TX interrupts and frames from the TAP devices keep it so. An RX interrupt does
not: `forward_process` releases the slot of a packet that it has just put into a TX
ring, unless the ring was full. From a state in order, an RX interrupt keeps it in
order exactly if every packet to be sent on finds its TX ring full
(`slots_owned_iff`).
-/
import Ufp.Daemon.Events
import Ufp.Daemon.FibFollow
import Ufp.Daemon.NeighFollow
import Mathlib.Logic.Basic

namespace Ufp.Daemon

open Ufp.Lib.Io

set_option autoImplicit false

/-! ## Slots in order -/

/-- The slots in the windows of the rings are marked, and each is in one place. -/
structure Owned (s : Forwarder) : Prop where
  inflight : ∀ slot ∈ s.plane.slots, s.buf.inflight slot = true
  distinct : s.plane.slots.Nodup

/-- A slot is in the TX window of some port. -/
def Attached (s : Forwarder) (slot : Nat) : Prop :=
  ∃ idx < s.thread.numPorts, slot ∈ (s.plane.ports idx).txRing.queue (s.plane.ports idx).numTxDesc

/-- A slot is free. -/
def Released (s : Forwarder) (slot : Nat) : Prop := s.buf.inflight slot = false

namespace Forwarder

/-- The TX ring of a port is full. -/
def TxFull (s : Forwarder) (idx : Nat) : Prop :=
  ufpDescUnused (s.plane.ports idx).txRing (s.plane.ports idx).numTxDesc = 0

/-- Each packet that is to be sent on finds the TX ring of its port full, in the state
in which its turn comes. -/
def FindsFull (portIndex : Nat) : Forwarder → List Packet → Prop
  | _, [] => True
  | s, packet :: packets =>
      (∀ p, s.decision packet = some p → s.TxFull p) ∧
        FindsFull portIndex ((s.forwardPacket portIndex packet).release packet.slotIndex) packets

end Forwarder

/-- The condition on an event: its port is one of the thread, and an RX interrupt brings
no packet that can be put into a TX ring. -/
def Calm (s : Forwarder) (event : Event) : Prop :=
  event.Ok s.thread.numPorts ∧
    ∀ portIndex read, event = .irqRx portIndex read →
      Forwarder.FindsFull portIndex (s.cleaned portIndex) (s.received portIndex)

/-- The invariant: the slots in flight are those of the windows. -/
structure InOrder (s : Forwarder) : Prop where
  rings : s.AllPorts Port.RingsOk
  ledger : Ledger s.buf s.plane.slots
  portsIn : s.thread.PortsIn

theorem InOrder.owned {s : Forwarder} (order : InOrder s) : Owned s :=
  ⟨fun slot member => (order.ledger.flagged slot).mpr member, order.ledger.nodup⟩

/-! ## Calls on one port -/

namespace Forwarder

variable {s : Forwarder} {idx : Nat} {f : Port → Buf → Port × Buf} {held : List Nat}

/-- A call that keeps the account of its port keeps the account of the plane. -/
theorem ledger_onPort (inside : idx < s.thread.numPorts)
    (kept : ∀ rest, Ledger s.buf ((s.plane.ports idx).slots ++ rest) →
      Ledger (f (s.plane.ports idx) s.buf).2 ((f (s.plane.ports idx) s.buf).1.slots ++ rest))
    (ledger : Ledger s.buf (held ++ s.plane.slots)) :
    Ledger (s.onPort idx f).buf (held ++ (s.onPort idx f).plane.slots) := by
  have inside' : idx < s.plane.numPorts := s.numPorts ▸ inside
  exact Ledger.setPort inside' (kept _ (Ledger.port inside' ledger))

/-- `ufp_tx_assign` takes over a slot that the thread holds. -/
theorem ledger_txAssign (inside : idx < s.thread.numPorts) (packet : Packet)
    (ok : (s.plane.ports idx).txRing.Ok (s.plane.ports idx).numTxDesc)
    (ledger : Ledger s.buf (packet.slotIndex :: s.plane.slots)) :
    let s' := s.onPort idx fun port buf => ufpTxAssign port buf packet
    Ledger s'.buf s'.plane.slots := by
  have inside' : idx < s.plane.numPorts := s.numPorts ▸ inside
  have mine := @Ledger.port s.plane idx inside' s.buf [packet.slotIndex] ledger
  have moved := ufpTxAssign_slots (s.plane.ports idx) s.buf packet ok (mine.perm List.perm_middle)
  exact @Ledger.setPort s.plane idx inside' _ _ [] moved

theorem everyPort_order (order : InOrder s)
    (rings : ∀ port buf, port.RingsOk → (f port buf).1.RingsOk)
    (kept : ∀ port buf rest, port.RingsOk → Ledger buf (port.slots ++ rest) →
      Ledger (f port buf).2 ((f port buf).1.slots ++ rest)) : InOrder (s.everyPort f) := by
  apply everyPort_rule (I := InOrder) _ order
  intro s' same idx inside order'
  rw [← same] at inside
  refine ⟨order'.rings.onPort rings, ?_, order'.portsIn⟩
  exact @ledger_onPort s' idx f [] inside (fun rest => kept _ _ rest (order'.rings idx inside))
    order'.ledger

theorem everyPort_xmit_order (order : InOrder s) : InOrder (s.everyPort xmit) := by
  apply everyPort_order order
  · exact fun port buf ok => ok.txXmit
  · intro port buf rest _ ledger
    show Ledger buf ((ufpTxXmit port).slots ++ rest)
    rwa [ufpTxXmit_slots]

/-- Announcing packets moves no slot. -/
theorem everyPort_xmit_slots :
    (s.everyPort xmit).plane.slots = s.plane.slots ∧ (s.everyPort xmit).buf = s.buf := by
  apply everyPort_rule (I := fun s' => s'.plane.slots = s.plane.slots ∧ s'.buf = s.buf)
  · rintro s' - idx - ⟨slots, buf⟩
    exact ⟨(Plane.slots_setPort (ufpTxXmit_slots _)).trans slots, buf⟩
  · exact ⟨rfl, rfl⟩

end Forwarder

/-! ## `forward_process` -/

namespace Forwarder

variable {s : Forwarder} {portIndex : Nat} {packet : Packet} {packets : List Packet} {held : List Nat}

/-- A packet that is dropped, or finds its ring full: its slot is released (the second
time to no effect), and the windows stay. -/
theorem forwardPacket_calm (portIndex : Nat) (rings : s.AllPorts Port.RingsOk)
    (full : ∀ p, s.decision packet = some p → s.TxFull p)
    (ledger : Ledger s.buf (packet.slotIndex :: held)) :
    let s' := (s.forwardPacket portIndex packet).release packet.slotIndex
    s'.thread = s.thread ∧ s'.AllPorts Port.RingsOk ∧ s'.plane.slots = s.plane.slots ∧
      Ledger s'.buf held := by
  rcases s.forwardPacket_cases portIndex packet with ⟨-, tap, done⟩ | ⟨p, sent, -, mem, tap, done⟩
  · rw [done]
    exact ⟨rfl, rings, rfl, ledger.release⟩
  · rw [done]
    have here : ufpDescUnused (s.plane.ports p).txRing (s.plane.ports p).numTxDesc = 0 := full p sent
    have out := ufpTxAssign_full here s.buf packet
    refine ⟨rfl, AllPorts.onPort rings fun port buf ok => ok.txAssign buf packet, ?_, ?_⟩
    · apply Plane.slots_setPort
      show (ufpTxAssign (s.plane.ports p) s.buf packet).1.slots = _
      rw [out]
      rfl
    · show Ledger (ufpSlotRelease (ufpTxAssign (s.plane.ports p) s.buf packet).2 packet.slotIndex) held
      rw [out]
      exact ledger.release.release_free (List.nodup_cons.mp ledger.nodup).1

theorem forwardProcess_calm (rings : s.AllPorts Port.RingsOk) (full : FindsFull portIndex s packets)
    (ledger : Ledger s.buf (packets.map Packet.slotIndex ++ s.plane.slots)) :
    let s' := s.forwardProcess portIndex packets
    s'.AllPorts Port.RingsOk ∧ s'.plane.slots = s.plane.slots ∧ Ledger s'.buf s'.plane.slots := by
  induction packets generalizing s with
  | nil => exact ⟨rings, rfl, ledger⟩
  | cons packet packets ih =>
      obtain ⟨here, later⟩ := full
      obtain ⟨-, rings', slots, ledger'⟩ := forwardPacket_calm portIndex rings here ledger
      rw [← slots] at ledger'
      obtain ⟨rings'', slots', ledger''⟩ := ih rings' later ledger'
      exact ⟨rings'', slots'.trans slots, ledger''⟩

/-- A slot waits in a TX ring although it is marked free. -/
structure Leaked (slot : Nat) (s : Forwarder) : Prop where
  rings : s.AllPorts Port.RingsOk
  attached : Attached s slot
  released : Released s slot

theorem mem_slots {plane : Plane} {slot : Nat} :
    slot ∈ plane.slots ↔ ∃ idx < plane.numPorts, slot ∈ (plane.ports idx).slots :=
  Theory.Slots.mem_gather

theorem mem_slots_of_attached {slot : Nat} (attached : Attached s slot) : slot ∈ s.plane.slots := by
  obtain ⟨idx, inside, here⟩ := attached
  exact mem_slots.mpr ⟨idx, s.numPorts ▸ inside, List.mem_append_right _ here⟩

variable {slot : Nat}

theorem Leaked.not_owned (leaked : Leaked slot s) : ¬ Owned s := by
  intro owned
  have free : s.buf.inflight slot = false := leaked.released
  rw [owned.inflight slot (mem_slots_of_attached leaked.attached)] at free
  cases free

/-- `ufp_tx_assign` takes no slot out of a TX ring and marks none. -/
theorem Leaked.txAssign (leaked : Leaked slot s) (p : Nat) (packet : Packet) :
    Leaked slot (s.onPort p fun port buf => ufpTxAssign port buf packet) := by
  obtain ⟨rings, ⟨idx, inside, here⟩, free⟩ := leaked
  refine ⟨rings.onPort fun port buf ok => ok.txAssign buf packet, ⟨idx, inside, ?_⟩, ?_⟩
  · by_cases same : idx = p
    · subst same
      obtain ⟨more, queue⟩ := (rings idx inside).txAssign_queue s.buf packet
      rw [onPort_self, queue]
      exact List.mem_append_left _ here
    · rwa [onPort_of_ne same]
  · show (ufpTxAssign (s.plane.ports p) s.buf packet).2.inflight slot = false
    rcases ufpTxAssign_buf (s.plane.ports p) s.buf packet with same | released
    · rwa [same]
    · rw [released]
      exact ufpSlotRelease_free free

theorem Leaked.forwardProcess (leaked : Leaked slot s) :
    Leaked slot (s.forwardProcess portIndex packets) := by
  apply forwardProcess_rule (I := Leaked slot)
  · exact fun s mem tap leaked => ⟨leaked.rings, leaked.attached, leaked.released⟩
  · exact fun s p packet _ leaked => leaked.txAssign p packet
  · exact fun s other leaked => ⟨leaked.rings, leaked.attached, ufpSlotRelease_free leaked.released⟩
  · exact leaked

theorem Leaked.xmit (leaked : Leaked slot s) : Leaked slot (s.everyPort xmit) := by
  apply everyPort_rule (I := Leaked slot) _ leaked
  rintro s' - q - ⟨rings, ⟨idx, inside, here⟩, free⟩
  refine ⟨rings.onPort fun port buf ok => ok.txXmit, ⟨idx, inside, ?_⟩, free⟩
  by_cases same : idx = q
  · subst same
    obtain ⟨tail, suspended, frame⟩ := ufpTxXmit_frame (s'.plane.ports idx)
    rw [onPort_self]
    show slot ∈ (ufpTxXmit (s'.plane.ports idx)).txRing.queue (ufpTxXmit (s'.plane.ports idx)).numTxDesc
    rw [frame]
    exact here
  · rwa [onPort_of_ne same]

/-- A packet that finds room in its TX ring has its slot released all the same. -/
theorem forwardPacket_leaks (rings : s.AllPorts Port.RingsOk) (portsIn : s.thread.PortsIn) {p : Nat}
    (sent : s.decision packet = some p) (room : ¬ s.TxFull p) :
    Leaked packet.slotIndex ((s.forwardPacket portIndex packet).release packet.slotIndex) := by
  rcases s.forwardPacket_cases portIndex packet with ⟨none, -⟩ | ⟨q, chosen, inside, mem, tap, done⟩
  · rw [none] at sent
    cases sent
  obtain rfl : q = p := Option.some.inj (chosen.symm.trans sent)
  rw [done]
  refine ⟨AllPorts.onPort rings fun port buf ok => ok.txAssign buf packet,
    ⟨q, inside portsIn, ?_⟩, ?_⟩
  · have ok := (rings q (inside portsIn)).tx
    obtain ⟨-, queue⟩ := ufpTxAssign_room ok room s.buf packet
    obtain ⟨ring, suspended, failed, frame⟩ := (ufpTxAssign_assigned (s.plane.ports q) s.buf packet ok).frame
    show packet.slotIndex ∈ Ring.queue (Port.txRing ((Plane.setPort _ _ _).ports q)) _
    rw [Plane.setPort_self]
    show packet.slotIndex ∈ (ufpTxAssign (s.plane.ports q) s.buf packet).1.txRing.queue
      ((Plane.setPort _ _ (ufpTxAssign (s.plane.ports q) s.buf packet).1).ports q).numTxDesc
    rw [Plane.setPort_self]
    rw [frame] at queue ⊢
    dsimp only at queue ⊢
    rw [queue]
    simp
  · exact ufpSlotRelease_self _ _

theorem forwardProcess_leaks (rings : s.AllPorts Port.RingsOk) (portsIn : s.thread.PortsIn)
    (some : ¬ FindsFull portIndex s packets)
    (ledger : Ledger s.buf (packets.map Packet.slotIndex ++ s.plane.slots)) :
    ∃ slot, Leaked slot (s.forwardProcess portIndex packets) := by
  induction packets generalizing s with
  | nil => exact absurd trivial some
  | cons packet packets ih =>
      by_cases here : ∀ p, s.decision packet = .some p → s.TxFull p
      · have later : ¬ FindsFull portIndex _ packets := fun rest => some ⟨here, rest⟩
        obtain ⟨thread, rings', slots, ledger'⟩ := forwardPacket_calm portIndex rings here ledger
        rw [← slots] at ledger'
        exact ih rings' (thread ▸ portsIn) later ledger'
      · obtain ⟨p, found⟩ := not_forall.mp here
        obtain ⟨sent, room⟩ := Classical.not_imp.mp found
        exact ⟨_, (forwardPacket_leaks rings portsIn sent room).forwardProcess⟩

end Forwarder

/-! ## The handlers -/

namespace Forwarder

variable {s : Forwarder} {portIndex : Nat}

/-- After `ufp_rx_clean`, the thread holds the slots of the packets received. -/
theorem cleaned_order (order : InOrder s) (inside : portIndex < s.thread.numPorts) :
    (s.cleaned portIndex).AllPorts Port.RingsOk ∧
      Ledger (s.cleaned portIndex).buf
        ((s.received portIndex).map Packet.slotIndex ++ (s.cleaned portIndex).plane.slots) := by
  have ok := order.rings portIndex inside
  have inside' : portIndex < s.plane.numPorts := s.numPorts ▸ inside
  refine ⟨order.rings.setPort fun _ => ok.rxClean s.buf, ?_⟩
  have taken := ufpRxClean_slots (s.plane.ports portIndex) s.buf ok.rx
    (@Ledger.port s.plane portIndex inside' s.buf [] order.ledger)
  refine Ledger.setPort inside' (taken.perm ?_)
  exact List.perm_append_comm_assoc _ _ _

/-- A packet received is released and attached nowhere. -/
theorem irqRx_calm (order : InOrder s) (inside : portIndex < s.thread.numPorts)
    (full : FindsFull portIndex (s.cleaned portIndex) (s.received portIndex)) :
    InOrder (s.threadProcessIrqRx portIndex) ∧
      ∀ packet ∈ s.received portIndex,
        Xor (Attached (s.threadProcessIrqRx portIndex) packet.slotIndex)
          (Released (s.threadProcessIrqRx portIndex) packet.slotIndex) := by
  obtain ⟨rings, ledger⟩ := cleaned_order order inside
  obtain ⟨rings', slots, ledger'⟩ := forwardProcess_calm rings full ledger
  have done : InOrder ((s.cleaned portIndex).forwardProcess portIndex (s.received portIndex)) :=
    ⟨rings', ledger', by rw [forwardProcess_thread]; exact order.portsIn⟩
  have final : InOrder (s.threadProcessIrqRx portIndex) := everyPort_xmit_order done
  refine ⟨final, fun packet member => ?_⟩
  have gone : packet.slotIndex ∉ (s.threadProcessIrqRx portIndex).plane.slots := by
    rw [threadProcessIrqRx_eq, everyPort_xmit_slots.1, slots]
    have apart := (List.nodup_append.mp ledger.nodup).2.2
    exact fun here => apart _ (List.mem_map_of_mem member) _ here rfl
  refine .inr ⟨?_, ?_⟩
  · show Buf.inflight _ _ = false
    rw [← Bool.not_eq_true]
    exact fun marked => gone ((final.ledger.flagged _).mp marked)
  · exact fun attached => gone (mem_slots_of_attached attached)

theorem irqRx_leaks (order : InOrder s) (inside : portIndex < s.thread.numPorts)
    (some : ¬ FindsFull portIndex (s.cleaned portIndex) (s.received portIndex)) :
    ¬ Owned (s.threadProcessIrqRx portIndex) := by
  obtain ⟨rings, ledger⟩ := cleaned_order order inside
  obtain ⟨slot, leaked⟩ := forwardProcess_leaks rings order.portsIn some ledger
  exact leaked.xmit.not_owned

theorem irqTx_order (order : InOrder s) (inside : portIndex < s.thread.numPorts) :
    InOrder (s.threadProcessIrqTx portIndex) := by
  have cleaned : InOrder (s.onPort portIndex ufpTxClean) := by
    refine ⟨order.rings.onPort fun port buf ok => ok.txClean buf, ?_, order.portsIn⟩
    refine @ledger_onPort s portIndex ufpTxClean [] inside (fun rest ledger => ?_) order.ledger
    exact ufpTxClean_slots _ _ (order.rings portIndex inside).tx ledger
  apply everyPort_order cleaned
  · exact fun port buf ok => ok.rxAssign buf
  · exact fun port buf rest ok ledger => ufpRxAssign_slots port buf ok.rx ledger

theorem tun_order (order : InOrder s) (inside : portIndex < s.thread.numPorts) (readBuf : List UInt8) :
    InOrder (s.threadProcessTun portIndex readBuf) := by
  apply everyPort_xmit_order
  have ok := order.rings portIndex inside
  rcases s.forwardProcessTun_cases portIndex readBuf with same | ⟨slotNext, mem, packet, free, -, done⟩
  · rw [same]
    exact order
  · rw [done]
    have rings : (s.taking portIndex slotNext packet.slotIndex mem).AllPorts Port.RingsOk :=
      order.rings.setPort fun _ => ⟨ok.rx, ok.tx⟩
    refine ⟨rings.onPort fun port buf ok => ok.txAssign buf _, ?_, order.portsIn⟩
    refine @ledger_txAssign (s.taking portIndex slotNext packet.slotIndex mem) portIndex inside packet
      (rings portIndex inside).tx ?_
    have same : (s.taking portIndex slotNext packet.slotIndex mem).plane.slots = s.plane.slots :=
      Plane.slots_setPort rfl
    rw [same]
    exact order.ledger.take free

end Forwarder

theorem InOrder.device {s : Forwarder} (order : InOrder s) (rx tx : Nat → Nat → Desc) (mem : Bytes) :
    InOrder (s.device rx tx mem) := by
  refine ⟨fun idx inside => ?_, ?_, order.portsIn⟩
  · obtain ⟨⟨a, b, c, d⟩, e, f, g, h⟩ := order.rings idx inside
    exact ⟨⟨a, b, c, d⟩, e, f, g, h⟩
  · have same : (s.device rx tx mem).plane.slots = s.plane.slots := rfl
    rw [same]
    exact order.ledger

/-- Every event that meets its condition keeps the slots in order. -/
theorem InOrder.handle {s : Forwarder} (order : InOrder s) (event : Event) (calm : Calm s event) :
    InOrder (s.handle event).2 := by
  obtain ⟨inside, full⟩ := calm
  cases event with
  | device rx tx mem => exact order.device rx tx mem
  | irqRx portIndex read => exact (Forwarder.irqRx_calm order inside (full portIndex read rfl)).1
  | irqTx portIndex read => exact Forwarder.irqTx_order order inside
  | tun portIndex read =>
      cases read with
      | none => exact order
      | some readBuf => exact Forwarder.tun_order order inside readBuf
  | netlink read =>
      cases read with
      | none => exact order
      | some readBuf =>
          refine ⟨fun idx less => ?_, order.ledger, netlinkProcess_portsIn order.portsIn readBuf _⟩
          exact order.rings idx (netlinkProcess_numPorts s.thread readBuf _ ▸ less)
  | signal read => exact order

theorem Boot.inOrder (boot : Boot) : InOrder boot.start := by
  have rings : boot.fresh.AllPorts Port.RingsOk := by
    intro idx inside
    obtain ⟨ops, iface, reset, same⟩ := boot.port inside
    rw [same]
    exact ⟨reset.rx.ok, reset.tx.ok⟩
  have empty : boot.fresh.plane.slots = [] := by
    apply Theory.Slots.gather_eq_nil
    intro idx inside
    obtain ⟨ops, iface, reset, same⟩ := boot.port (boot.fresh.numPorts.symm ▸ inside)
    rw [same]
    simp [Port.slots, Ring.queue, planePort, reset.rx.use, reset.rx.clean, reset.tx.use, reset.tx.clean,
      Theory.Ring.contents_self]
  have fresh : InOrder boot.fresh := by
    refine ⟨rings, ?_, boot.portsIn⟩
    rw [empty]
    exact ⟨List.nodup_nil, fun slot => by simp [boot.free slot]⟩
  apply Forwarder.everyPort_order fresh
  · exact fun port buf ok => ok.rxAssign buf
  · exact fun port buf rest ok ledger => ufpRxAssign_slots port buf ok.rx ledger

/-- **Packet slots have one holder.** In a run in which every packet that is to be sent
on finds its TX ring full, the slots of all ring windows are marked and in one window
each, in every state between two events. From any such state, an RX interrupt keeps
this, with each packet it brings either attached to a TX ring or released, exactly if
it meets the same condition. -/
theorem slots_owned_iff (boot : Boot) (events : List Event) (calm : Along Calm events boot.start) :
    let s := (threadWait events boot.start).2
    Owned s ∧ ∀ portIndex < s.thread.numPorts,
      ((Owned (s.threadProcessIrqRx portIndex) ∧ ∀ packet ∈ s.received portIndex,
          Xor (Attached (s.threadProcessIrqRx portIndex) packet.slotIndex)
            (Released (s.threadProcessIrqRx portIndex) packet.slotIndex)) ↔
        Forwarder.FindsFull portIndex (s.cleaned portIndex) (s.received portIndex)) := by
  have order : InOrder (threadWait events boot.start).2 :=
    threadWait_rule (fun s event order calm => order.handle event calm) boot.inOrder calm
  refine ⟨order.owned, fun portIndex inside => ⟨?_, ?_⟩⟩
  · rintro ⟨owned, -⟩
    by_contra some
    exact Forwarder.irqRx_leaks order inside some owned
  · intro full
    obtain ⟨after, settled⟩ := Forwarder.irqRx_calm order inside full
    exact ⟨after.owned, settled⟩

/-- A frame that is no ARP or IP packet comes in, and a frame from the TAP device goes
out. -/
def sampleTraffic : List Event :=
  [sampleArrival fun _ => 0, .irqRx 0 true, .tun 0 (some [1, 2, 3]), .irqTx 0 true]

theorem slots_owned_sample :
    Along Calm sampleTraffic sampleBoot.start ∧ Owned (threadWait sampleTraffic sampleBoot.start).2 := by
  have calm : Along Calm sampleTraffic sampleBoot.start := by
    have other : ∀ s event, event.Ok s.thread.numPorts → (∀ idx read, event ≠ .irqRx idx read) →
        Calm s event := fun s event ok not => ⟨ok, fun idx read same => absurd same (not idx read)⟩
    refine ⟨other _ _ trivial (by rintro _ _ ⟨⟩), ?_⟩
    show Along Calm _ (sampleBoot.start.device _ _ _)
    refine ⟨⟨by decide +kernel, ?_⟩, ?_⟩
    · rintro idx read ⟨⟩
      have one : (sampleBoot.start.handle (sampleArrival fun _ => 0)).2.received 0 = [⟨8192, 64, 0, 2⟩] := by
        decide +kernel
      have kept : ((sampleBoot.start.handle (sampleArrival fun _ => 0)).2.cleaned 0).decision
          ⟨8192, 64, 0, 2⟩ = none := by
        decide +kernel
      show Forwarder.FindsFull 0 ((sampleBoot.start.handle (sampleArrival fun _ => 0)).2.cleaned 0)
        ((sampleBoot.start.handle (sampleArrival fun _ => 0)).2.received 0)
      rw [one]
      refine ⟨fun p sent => ?_, trivial⟩
      rw [kept] at sent
      cases sent
    · refine ⟨other _ _ (by decide +kernel) (by rintro _ _ ⟨⟩), ?_⟩
      exact ⟨other _ _ (by decide +kernel) (by rintro _ _ ⟨⟩), trivial⟩
  exact ⟨calm, (slots_owned_iff sampleBoot _ calm).1⟩

/-- A packet to `10.1.2.3` in an Ethernet frame. -/
def sampleFrame : Bytes := fun i => if i = 12 then 8 else samplePacket 64 i

/-- The kernel announces the gateway and the route; a packet for the route comes in. -/
def sampleNews : List Event :=
  [.netlink (some (buffer [sampleNeighMsg (some [1, 1, 1, 1, 1, 1])])),
    .netlink (some (buffer [sampleRouteMsg true 1])), sampleArrival sampleFrame]

/-- The tables after the two messages. -/
def sampleKnowing : UfpdThread :=
  (sampleBoot.start.thread.hear (sampleNeigh (some [1, 1, 1, 1, 1, 1]))).learn (sampleRouteNews true 1)

theorem sampleKnowing_numPorts : sampleKnowing.numPorts = sampleBoot.start.plane.numPorts := by
  decide +kernel

/-- The state when the RX interrupt is handled. -/
def sampleReady : Forwarder :=
  (({ sampleBoot.start with thread := sampleKnowing, numPorts := sampleKnowing_numPorts } : Forwarder).handle
    (sampleArrival sampleFrame)).2

theorem sampleNews_run : threadWait sampleNews sampleBoot.start = (none, sampleReady) := by
  have gateway : ∀ thread : UfpdThread,
      netlinkProcess thread (buffer [sampleNeighMsg (some [1, 1, 1, 1, 1, 1])])
        (buffer [sampleNeighMsg (some [1, 1, 1, 1, 1, 1])]).length =
      thread.hear (sampleNeigh (some [1, 1, 1, 1, 1, 1])) := by
    intro thread
    have heard : List.Forall₂ Msg.IsNeigh [[sampleNeighMsg (some [1, 1, 1, 1, 1, 1])]].flatten
        [sampleNeigh (some [1, 1, 1, 1, 1, 1])] :=
      .cons (sampleNeighMsg_formed (by rintro _ ⟨⟩; rfl)) .nil
    exact listen_hear heard
  have route : ∀ thread : UfpdThread,
      netlinkProcess thread (buffer [sampleRouteMsg true 1]) (buffer [sampleRouteMsg true 1]).length =
      thread.learn (sampleRouteNews true 1) := by
    intro thread
    have heard : List.Forall₂ Msg.IsRoute [[sampleRouteMsg true 1]].flatten [sampleRouteNews true 1] :=
      .cons (sampleRouteMsg_formed _ _) .nil
    exact listen_learn heard
  have ports : (sampleBoot.start.thread.hear (sampleNeigh (some [1, 1, 1, 1, 1, 1]))).numPorts =
      sampleBoot.start.plane.numPorts := by
    rw [← gateway, netlinkProcess_numPorts]
    exact sampleBoot.start.numPorts
  simp only [sampleNews, threadWait, Forwarder.handle]
  have second := @Forwarder.threadProcessNetlink_eq
    { sampleBoot.start with thread := _, numPorts := ports } _ _ (route _) sampleKnowing_numPorts
  rw [Forwarder.threadProcessNetlink_eq (gateway _) ports, second]
  rfl

theorem sampleReady_inOrder : InOrder sampleReady := by
  have calm : Along Calm sampleNews sampleBoot.start := by
    apply along_of_forall
    intro event here s
    simp only [sampleNews, List.mem_cons, List.not_mem_nil, or_false] at here
    rcases here with rfl | rfl | rfl
    all_goals exact ⟨trivial, by rintro _ _ ⟨⟩⟩
  have order : InOrder (threadWait sampleNews sampleBoot.start).2 :=
    threadWait_rule (fun s event order calm => order.handle event calm) sampleBoot.inOrder calm
  rwa [sampleNews_run] at order

/-- The slot of a forwarded packet waits in the TX ring and is marked free. -/
theorem forwarded_slot_released :
    let s := (threadWait (sampleNews ++ [.irqRx 0 true]) sampleBoot.start).2
    Attached s 0 ∧ Released s 0 ∧ ¬ Owned s := by
  have run := threadWait_append [.irqRx 0 true] sampleNews_run
  have one : sampleReady.received 0 = [⟨8192, 64, 0, 2⟩] := by decide +kernel
  have bytes : (sampleReady.cleaned 0).view ⟨8192, 64, 0, 2⟩ = sampleFrame := by
    have mem : (sampleReady.cleaned 0).mem = fun a => sampleFrame (a - 8192) := by
      simp only [sampleReady, sampleArrival, Forwarder.handle, Forwarder.device, Forwarder.cleaned]
    funext i
    rw [Forwarder.view, mem]
    exact congrArg sampleFrame (Nat.add_sub_cancel_left ..)
  have sent : (sampleReady.cleaned 0).decision ⟨8192, 64, 0, 2⟩ = some 0 := by
    have thread : (sampleReady.cleaned 0).thread = sampleKnowing := rfl
    have ret : (Forwarder.forwardSwitch sampleKnowing sampleFrame).ret = 0 := by decide +kernel
    rw [Forwarder.decision, bytes, thread, ret]
    rfl
  have room : ¬ (sampleReady.cleaned 0).TxFull 0 := by
    unfold Forwarder.TxFull
    decide +kernel
  have inside : 0 < sampleReady.thread.numPorts := by decide +kernel
  have rings := (Forwarder.cleaned_order sampleReady_inOrder inside).1
  have leaked : Forwarder.Leaked 0 (((sampleReady.cleaned 0).forwardPacket 0 ⟨8192, 64, 0, 2⟩).release 0) :=
    Forwarder.forwardPacket_leaks rings sampleReady_inOrder.portsIn sent room
  dsimp only
  rw [run]
  show Attached (sampleReady.threadProcessIrqRx 0) 0 ∧ Released (sampleReady.threadProcessIrqRx 0) 0 ∧
    ¬ Owned (sampleReady.threadProcessIrqRx 0)
  rw [Forwarder.threadProcessIrqRx_eq, one]
  exact ⟨leaked.xmit.attached, leaked.xmit.released, leaked.xmit.not_owned⟩

end Ufp.Daemon
