/-
# Ufp.Daemon.Refill — whether the receive rings run dry

Slots are posted to the RX rings by `ufp_rx_assign`, and after the start only
the TX interrupt calls it. A port whose RX ring is empty although it has slots to
spare must therefore wait for some TX ring to hold a descriptor, whose completion
brings that interrupt (`NoStall`).

TX interrupts, frames from the TAP devices and netlink messages keep it so. An RX
interrupt does not: when it takes the last posted descriptor and sends nothing on,
the slots are released and nobody posts them again. From a state that is not
stalled, an RX interrupt leads to one that is not stalled exactly if it finds
nothing, leaves something posted, or some packet is in a TX ring or on its way to
one (`receive_supplied_iff`).
-/
import Ufp.Daemon.Events
import Ufp.Lib.Region

namespace Ufp.Daemon

open Ufp.Lib.Io

set_option autoImplicit false

/-- Some TX ring of the thread holds an outstanding descriptor. -/
def Sending (s : Forwarder) : Prop := ∃ p < s.thread.numPorts, (s.plane.ports p).TxBusy

/-- A port with nothing posted and slots to spare can hope for a TX interrupt. -/
def NoStall (s : Forwarder) : Prop :=
  ∀ idx < s.thread.numPorts, (s.plane.ports idx).RxEmpty → (s.plane.ports idx).Spare s.buf → Sending s

/-- What an RX interrupt of a port has to find for the rings not to run dry: no packet,
or an outstanding descriptor in some TX ring, or fewer packets than descriptors are
posted, or a packet to send on. -/
def Forwarder.Feeds (s : Forwarder) (portIndex : Nat) : Prop :=
  s.received portIndex = [] ∨ Sending s ∨
    (s.received portIndex).length <
      ((s.plane.ports portIndex).rxRing.queue (s.plane.ports portIndex).numRxDesc).length ∨
    ∃ packet ∈ s.received portIndex, s.decision packet ≠ none

/-- The condition on an event. -/
def Fed (s : Forwarder) (event : Event) : Prop :=
  event.Ok s.thread.numPorts ∧ ∀ portIndex read, event = .irqRx portIndex read → s.Feeds portIndex

/-- Every port has kept to its region. -/
structure Supplied (s : Forwarder) : Prop where
  posted : ∀ idx < s.thread.numPorts, (s.plane.ports idx).Posted idx s.buf.count
  portsIn : s.thread.PortsIn

namespace Forwarder

/-! ## Passing packets on -/

/-- What handing packets to `ufp_tx_assign`, releasing slots and announcing leaves of the
receive side, and that TX rings do not get empty. -/
structure Passed (s s' : Forwarder) : Prop where
  supplied : Supplied s'
  thread : s'.thread = s.thread
  count : s'.buf.count = s.buf.count
  rxRing : ∀ idx, (s'.plane.ports idx).rxRing = (s.plane.ports idx).rxRing
  offset : ∀ idx, (s'.plane.ports idx).rxSlotOffset = (s.plane.ports idx).rxSlotOffset
  busy : Sending s → Sending s'

variable {s s' : Forwarder} {portIndex : Nat} {packet : Packet} {packets : List Packet}

theorem Passed.refl (supplied : Supplied s) : Passed s s :=
  ⟨supplied, rfl, rfl, fun _ => rfl, fun _ => rfl, fun busy => busy⟩

/-- A call on one port that keeps to the transmit side. -/
theorem Passed.onPort (passed : Passed s s') (p : Nat) {f : Port → Buf → Port × Buf}
    (posted : ∀ port idx count, port.Posted idx count → (f port s'.buf).1.Posted idx count)
    (busy : ∀ port idx count, port.Posted idx count → port.TxBusy → (f port s'.buf).1.TxBusy)
    (rx : ∀ port, (f port s'.buf).1.rxRing = port.rxRing ∧
      (f port s'.buf).1.rxSlotOffset = port.rxSlotOffset)
    (count : (f (s'.plane.ports p) s'.buf).2.count = s'.buf.count) : Passed s (s'.onPort p f) := by
  have same : (s'.onPort p f).buf.count = s'.buf.count := count
  refine ⟨⟨fun idx inside => ?_, passed.supplied.portsIn⟩, passed.thread, same.trans passed.count,
    fun idx => ?_, fun idx => ?_, fun before => ?_⟩
  · rw [same]
    by_cases here : idx = p
    · subst here
      rw [onPort_self]
      exact posted _ _ _ (passed.supplied.posted idx inside)
    · rw [onPort_of_ne here]
      exact passed.supplied.posted idx inside
  · by_cases here : idx = p
    · subst here
      rw [onPort_self, (rx _).1, passed.rxRing]
    · rw [onPort_of_ne here, passed.rxRing]
  · by_cases here : idx = p
    · subst here
      rw [onPort_self, (rx _).2, passed.offset]
    · rw [onPort_of_ne here, passed.offset]
  · obtain ⟨q, inside, waiting⟩ := passed.busy before
    refine ⟨q, inside, ?_⟩
    by_cases here : q = p
    · subst here
      rw [onPort_self]
      exact busy _ _ _ (passed.supplied.posted q inside) waiting
    · rwa [onPort_of_ne here]

theorem Passed.txAssign (passed : Passed s s') (p : Nat) (packet : Packet) :
    Passed s (s'.onPort p fun port buf => ufpTxAssign port buf packet) := by
  apply passed.onPort p
  · exact fun port idx count posted => posted.txAssign s'.buf packet
  · exact fun port idx count posted _ => posted.txAssign_busy s'.buf packet
  · intro port
    unfold ufpTxAssign
    split
    · exact ⟨rfl, rfl⟩
    · exact ⟨rfl, rfl⟩
  · rcases ufpTxAssign_buf (s'.plane.ports p) s'.buf packet with same | released
    · rw [same]
    · rw [released]
      rfl

theorem Passed.release (passed : Passed s s') (slot : Nat) : Passed s (s'.release slot) :=
  ⟨⟨passed.supplied.posted, passed.supplied.portsIn⟩, passed.thread, passed.count, passed.rxRing,
    passed.offset, passed.busy⟩

theorem Passed.other (passed : Passed s s') (mem : Bytes) (tap : Nat → List (List UInt8)) :
    Passed s { s' with mem, tap } :=
  ⟨⟨passed.supplied.posted, passed.supplied.portsIn⟩, passed.thread, passed.count, passed.rxRing,
    passed.offset, passed.busy⟩

theorem Passed.forwardProcess (passed : Passed s s') :
    Passed s (s'.forwardProcess portIndex packets) := by
  apply forwardProcess_rule (I := Passed s)
  · exact fun s' mem tap passed => passed.other mem tap
  · exact fun s' p packet _ passed => passed.txAssign p packet
  · exact fun s' slot passed => passed.release slot
  · exact passed

/-- The first packet that is to be sent on fills a TX ring. -/
theorem forwardProcess_sends (supplied : Supplied s) (some : ∃ packet ∈ packets, s.decision packet ≠ none) :
    Sending (s.forwardProcess portIndex packets) := by
  induction packets generalizing s with
  | nil =>
      obtain ⟨packet, member, -⟩ := some
      cases member
  | cons packet packets ih =>
      show Sending (((s.forwardPacket portIndex packet).release packet.slotIndex).forwardProcess
        portIndex packets)
      rcases s.forwardPacket_cases portIndex packet with ⟨kept, tap, done⟩ | ⟨p, sent, inside, mem, tap, done⟩
      · -- tables and memory are as before, and so is what is decided for the rest
        have passed := ((Passed.refl supplied).other s.mem tap).release packet.slotIndex
        rw [done]
        apply ih passed.supplied
        obtain ⟨other, member, chosen⟩ := some
        rcases List.mem_cons.mp member with rfl | later
        · exact absurd kept chosen
        · exact ⟨other, later, chosen⟩
      · rw [done]
        have passed := (((Passed.refl supplied).other mem tap).txAssign p packet).release packet.slotIndex
        refine (Passed.refl passed.supplied).forwardProcess.busy ⟨p, inside supplied.portsIn, ?_⟩
        have busy := (supplied.posted p (inside supplied.portsIn)).txAssign_busy s.buf packet
        show Port.TxBusy ((s.plane.setPort p (ufpTxAssign (s.plane.ports p) s.buf packet).1).ports p)
        rwa [Plane.setPort_self]

/-- Without a packet to send on, the rings stay as they are. -/
theorem forwardProcess_plane (none : ∀ packet ∈ packets, s.decision packet = none) :
    (s.forwardProcess portIndex packets).plane = s.plane := by
  induction packets generalizing s with
  | nil => rfl
  | cons packet packets ih =>
      obtain ⟨first, rest⟩ := List.forall_mem_cons.mp none
      show (((s.forwardPacket portIndex packet).release packet.slotIndex).forwardProcess
        portIndex packets).plane = s.plane
      rcases s.forwardPacket_cases portIndex packet with ⟨-, tap, done⟩ | ⟨p, sent, -⟩
      · rw [done]
        exact ih rest
      · rw [first] at sent
        cases sent

/-- Handling a packet touches no slot but its own. -/
theorem forwardPacket_inflight {slot : Nat} (ne : slot ≠ packet.slotIndex) :
    ((s.forwardPacket portIndex packet).release packet.slotIndex).buf.inflight slot =
      s.buf.inflight slot := by
  show (ufpSlotRelease (s.forwardPacket portIndex packet).buf packet.slotIndex).inflight slot = _
  rw [ufpSlotRelease_of_ne ne]
  rcases s.forwardPacket_cases portIndex packet with ⟨-, tap, done⟩ | ⟨p, -, -, mem, tap, done⟩
  · rw [done]
  · rw [done]
    show (ufpTxAssign (s.plane.ports p) s.buf packet).2.inflight slot = _
    rcases ufpTxAssign_buf (s.plane.ports p) s.buf packet with same | released
    · rw [same]
    · rw [released, ufpSlotRelease_of_ne ne]

theorem forwardProcess_inflight {slot : Nat} (apart : slot ∉ packets.map Packet.slotIndex) :
    (s.forwardProcess portIndex packets).buf.inflight slot = s.buf.inflight slot := by
  induction packets generalizing s with
  | nil => rfl
  | cons packet packets ih =>
      rw [List.map_cons, List.mem_cons, not_or] at apart
      exact (ih apart.2).trans (forwardPacket_inflight apart.1)

theorem forwardProcess_free {slot : Nat} (free : s.buf.inflight slot = false) :
    (s.forwardProcess portIndex packets).buf.inflight slot = false := by
  apply forwardProcess_rule (I := fun s' => s'.buf.inflight slot = false)
  · exact fun s' mem tap free => free
  · intro s' p packet _ free
    show (ufpTxAssign (s'.plane.ports p) s'.buf packet).2.inflight slot = false
    rcases ufpTxAssign_buf (s'.plane.ports p) s'.buf packet with same | released
    · rwa [same]
    · rw [released]
      exact ufpSlotRelease_free free
  · exact fun s' other free => ufpSlotRelease_free free
  · exact free

/-- The slot of every packet handled is free afterwards. -/
theorem forwardProcess_released (member : packet ∈ packets) :
    (s.forwardProcess portIndex packets).buf.inflight packet.slotIndex = false := by
  induction packets generalizing s with
  | nil => cases member
  | cons first packets ih =>
      rcases List.mem_cons.mp member with rfl | later
      · exact forwardProcess_free (s := (s.forwardPacket portIndex packet).release packet.slotIndex)
          (ufpSlotRelease_self _ _)
      · exact ih later

/-! ## Announcing packets -/

/-- `ufp_tx_xmit` writes the tail registers; the rings keep their descriptors. -/
theorem everyPort_xmit_rings (s : Forwarder) :
    (s.everyPort xmit).buf = s.buf ∧ ∀ idx,
      ((s.everyPort xmit).plane.ports idx).rxRing = (s.plane.ports idx).rxRing ∧
      ((s.everyPort xmit).plane.ports idx).rxSlotOffset = (s.plane.ports idx).rxSlotOffset ∧
      (((s.everyPort xmit).plane.ports idx).TxBusy ↔ (s.plane.ports idx).TxBusy) := by
  apply everyPort_rule (I := fun s' => s'.buf = s.buf ∧ ∀ idx,
    (s'.plane.ports idx).rxRing = (s.plane.ports idx).rxRing ∧
    (s'.plane.ports idx).rxSlotOffset = (s.plane.ports idx).rxSlotOffset ∧
    ((s'.plane.ports idx).TxBusy ↔ (s.plane.ports idx).TxBusy))
  · rintro s' - q - ⟨buf, ports⟩
    refine ⟨buf, fun idx => ?_⟩
    by_cases here : idx = q
    · subst here
      obtain ⟨tail, suspended, frame⟩ := ufpTxXmit_frame (s'.plane.ports idx)
      rw [onPort_self]
      show (ufpTxXmit _).rxRing = _ ∧ (ufpTxXmit _).rxSlotOffset = _ ∧ ((ufpTxXmit _).TxBusy ↔ _)
      rw [frame]
      exact ports idx
    · rw [onPort_of_ne here]
      exact ports idx
  · exact ⟨rfl, fun idx => ⟨rfl, rfl, Iff.rfl⟩⟩

theorem everyPort_xmit_noStall : NoStall (s.everyPort xmit) ↔ NoStall s := by
  obtain ⟨buf, ports⟩ := everyPort_xmit_rings s
  simp only [NoStall, Sending, Port.RxEmpty, Port.Spare, everyPort_thread, buf, ports]

theorem Supplied.xmit (supplied : Supplied s) : Supplied (s.everyPort xmit) := by
  refine (everyPort_rule (I := Passed s) ?_ (Passed.refl supplied)).supplied
  intro s' _ q _ passed
  apply passed.onPort q
  · exact fun port idx count posted => posted.txXmit
  · intro port idx count _ busy
    obtain ⟨tail, suspended, frame⟩ := ufpTxXmit_frame port
    show (ufpTxXmit port).TxBusy
    rw [frame]
    exact busy
  · intro port
    obtain ⟨tail, suspended, frame⟩ := ufpTxXmit_frame port
    show (ufpTxXmit port).rxRing = _ ∧ (ufpTxXmit port).rxSlotOffset = _
    rw [frame]
    exact ⟨rfl, rfl⟩
  · rfl

/-! ## Refilling -/

/-- `ufp_rx_assign` on every port leaves no port with an empty RX ring and a free slot. -/
theorem everyPort_refill (supplied : Supplied s) :
    Supplied (s.everyPort ufpRxAssign) ∧ NoStall (s.everyPort ufpRxAssign) := by
  -- before the call on port `n`, the ports below have what they can get
  have loop := everyPort_induct (s := s) (f := ufpRxAssign)
    (I := fun n s' => Supplied s' ∧
      ∀ idx < n, (s'.plane.ports idx).RxEmpty → ¬ (s'.plane.ports idx).Spare s'.buf) ?_ ?_
  · refine ⟨loop.1, fun idx inside empty spare => ?_⟩
    rw [everyPort_thread] at inside
    exact absurd spare (loop.2 idx inside empty)
  · rintro s' same n inside ⟨supplied', dry⟩
    rw [← same] at inside
    obtain ⟨posted, count, marks, dryHere⟩ := ufpRxAssign_refills (supplied'.posted n inside)
    have count' : (s'.onPort n ufpRxAssign).buf.count = s'.buf.count := count
    refine ⟨⟨fun idx inside' => ?_, supplied'.portsIn⟩, fun idx less empty => ?_⟩
    · rw [count']
      by_cases here : idx = n
      · subst here
        rwa [onPort_self]
      · rw [onPort_of_ne here]
        exact supplied'.posted idx inside'
    · by_cases here : idx = n
      · subst here
        rw [onPort_self] at empty ⊢
        exact dryHere empty
      · rw [onPort_of_ne here] at empty ⊢
        rintro ⟨k, small, free⟩
        rw [count'] at small
        refine dry idx (by omega) empty ⟨k, small, ?_⟩
        rw [← Bool.not_eq_true]
        intro taken
        have still : (s'.onPort n ufpRxAssign).buf.inflight _ = true := marks _ taken
        rw [free] at still
        cases still
  · exact ⟨supplied, fun idx less => absurd less (Nat.not_lt_zero idx)⟩

/-! ## The handlers -/

theorem irqTx_refills (supplied : Supplied s) (portIndex : Nat) :
    Supplied (s.threadProcessIrqTx portIndex) ∧ NoStall (s.threadProcessIrqTx portIndex) := by
  apply everyPort_refill
  refine ⟨fun idx inside => ?_, supplied.portsIn⟩
  have count : (s.onPort portIndex ufpTxClean).buf.count = s.buf.count := ufpTxClean_count _ _
  rw [count]
  by_cases here : idx = portIndex
  · subst here
    rw [onPort_self]
    exact (supplied.posted idx inside).txClean s.buf
  · rw [onPort_of_ne here]
    exact supplied.posted idx inside

/-- A frame from the TAP device takes a slot only to fill a TX ring. -/
theorem tun_refills (supplied : Supplied s) (flowing : NoStall s) (inside : portIndex < s.thread.numPorts)
    (readBuf : List UInt8) :
    Supplied (s.threadProcessTun portIndex readBuf) ∧ NoStall (s.threadProcessTun portIndex readBuf) := by
  have done : Supplied (s.forwardProcessTun portIndex readBuf) ∧
      NoStall (s.forwardProcessTun portIndex readBuf) := by
    rcases s.forwardProcessTun_cases portIndex readBuf with same | ⟨slotNext, mem, packet, -, taken, done⟩
    · rw [same]
      exact ⟨supplied, flowing⟩
    · have here := (supplied.posted portIndex inside).slotAssign s.buf rfl
      rw [taken] at here
      have taking : Supplied (s.taking portIndex slotNext packet.slotIndex mem) := by
        refine ⟨fun idx less => ?_, supplied.portsIn⟩
        show Port.Posted ((s.plane.setPort portIndex _).ports idx) idx s.buf.count
        by_cases same : idx = portIndex
        · subst same
          rwa [Plane.setPort_self]
        · rw [Plane.setPort_of_ne _ _ same]
          exact supplied.posted idx less
      have passed := (Passed.refl taking).txAssign portIndex packet
      rw [done]
      refine ⟨passed.supplied, fun _ _ _ _ => ⟨portIndex, inside, ?_⟩⟩
      rw [onPort_self]
      exact (taking.posted portIndex inside).txAssign_busy _ packet
  exact ⟨Supplied.xmit done.1, everyPort_xmit_noStall.mpr done.2⟩

/-! ## An RX interrupt -/

section IrqRx

variable (supplied : Supplied s) (inside : portIndex < s.thread.numPorts)

include supplied inside

theorem Supplied.cleaned : Supplied (s.cleaned portIndex) := by
  refine ⟨fun idx less => ?_, supplied.portsIn⟩
  show Port.Posted ((s.plane.setPort portIndex _).ports idx) idx s.buf.count
  by_cases same : idx = portIndex
  · subst same
    rw [Plane.setPort_self]
    exact (supplied.posted idx inside).rxClean s.buf
  · rw [Plane.setPort_of_ne _ _ same]
    exact supplied.posted idx less

/-- `ufp_rx_clean` leaves the TX rings alone. -/
theorem cleaned_sending : Sending (s.cleaned portIndex) ↔ Sending s := by
  have same : ∀ idx, ((s.cleaned portIndex).plane.ports idx).TxBusy ↔ (s.plane.ports idx).TxBusy := by
    intro idx
    show Port.TxBusy ((s.plane.setPort portIndex _).ports idx) ↔ _
    by_cases here : idx = portIndex
    · subst here
      obtain ⟨clean, total, frame⟩ := (ufpRxClean_spec _ s.buf (supplied.posted idx inside).rings.rx).frame
      rw [Plane.setPort_self, frame]
      exact Iff.rfl
    · rw [Plane.setPort_of_ne _ _ here]
  simp only [Sending, same]
  exact Iff.rfl

/-- The packets received are those at the front of the queue. -/
theorem received_queue :
    (s.plane.ports portIndex).rxRing.queue (s.plane.ports portIndex).numRxDesc =
      (s.received portIndex).map Packet.slotIndex ++
        ((s.cleaned portIndex).plane.ports portIndex).rxRing.queue
          ((s.cleaned portIndex).plane.ports portIndex).numRxDesc := by
  obtain ⟨⟨clean, total, frame⟩, -, queue, -⟩ :=
    ufpRxClean_spec _ s.buf (supplied.posted portIndex inside).rings.rx
  have here : (s.cleaned portIndex).plane.ports portIndex = (ufpRxClean (s.plane.ports portIndex) s.buf).2 :=
    Plane.setPort_self _ _ _
  rw [here]
  rw [frame] at queue ⊢
  exact queue

theorem cleaned_empty :
    ((s.cleaned portIndex).plane.ports portIndex).RxEmpty ↔
      ((s.plane.ports portIndex).rxRing.queue (s.plane.ports portIndex).numRxDesc).length ≤
        (s.received portIndex).length := by
  have ok := ((Supplied.cleaned supplied inside).posted portIndex inside).rings.rx
  rw [Port.RxEmpty, ← ok.queue_eq_nil, received_queue supplied inside, List.length_append, List.length_map,
    ← List.length_eq_zero_iff]
  omega

/-- A slot of a received packet is one of the port's own. -/
theorem received_region {packet : Packet} (member : packet ∈ s.received portIndex) :
    ∃ k < s.buf.count, packet.slotIndex = portIndex * s.buf.count + k := by
  have posted := supplied.posted portIndex inside
  obtain ⟨k, less, same⟩ := posted.region packet.slotIndex (by
    rw [received_queue supplied inside]
    exact List.mem_append_left _ (List.mem_map_of_mem member))
  exact ⟨k, less, same.trans (by rw [posted.offset])⟩

/-- Where no slot was released, what is spare now was spare before. -/
theorem spare_before {idx : Nat} (less : idx < s.thread.numPorts)
    (other : idx ≠ portIndex ∨ s.received portIndex = []) :
    let s' := (s.cleaned portIndex).forwardProcess portIndex (s.received portIndex)
    (s'.plane.ports idx).Spare s'.buf → (s.plane.ports idx).Spare s.buf := by
  rintro s' ⟨k, small, free⟩
  have passed : Passed (s.cleaned portIndex) s' :=
    (Passed.refl (Supplied.cleaned supplied inside)).forwardProcess
  have count : s'.buf.count = s.buf.count := passed.count
  have offset : (s'.plane.ports idx).rxSlotOffset = (s.plane.ports idx).rxSlotOffset := by
    rw [(passed.supplied.posted idx (passed.thread ▸ less)).offset, (supplied.posted idx less).offset, count]
  rw [offset] at free
  rw [count] at small
  refine ⟨k, small, ?_⟩
  rw [← free]
  refine (forwardProcess_inflight (s := s.cleaned portIndex) fun member => ?_).symm
  obtain ⟨packet, here, same⟩ := List.mem_map.mp member
  rcases other with apart | none
  · obtain ⟨k', small', slot⟩ := received_region supplied inside here
    rw [slot, (supplied.posted idx less).offset] at same
    rcases Nat.lt_or_gt_of_ne apart with below | above
    · have gap := Nat.mul_le_mul_right s.buf.count (show idx + 1 ≤ portIndex from below)
      rw [Nat.succ_mul] at gap
      omega
    · have gap := Nat.mul_le_mul_right s.buf.count (show portIndex + 1 ≤ idx from above)
      rw [Nat.succ_mul] at gap
      omega
  · rw [none] at here
    cases here

/-- A port that got no slot back and has nothing posted had nothing posted before. -/
theorem empty_before {idx : Nat} (other : idx ≠ portIndex ∨ s.received portIndex = []) :
    ((s.cleaned portIndex).plane.ports idx).RxEmpty → (s.plane.ports idx).RxEmpty := by
  intro empty
  by_cases same : idx = portIndex
  · subst same
    have none : s.received idx = [] := other.resolve_left (fun ne => ne rfl)
    have posted := (cleaned_empty supplied inside).mp empty
    rw [none, List.length_nil, Nat.le_zero, List.length_eq_zero_iff] at posted
    exact (supplied.posted idx inside).rings.rx.queue_eq_nil.mp posted
  · have untouched : (s.cleaned portIndex).plane.ports idx = s.plane.ports idx :=
      Plane.setPort_of_ne _ _ same
    rwa [untouched] at empty

/-- An RX interrupt that meets the condition leaves no port stalled. -/
theorem irqRx_flows (flowing : NoStall s) (feeds : s.Feeds portIndex) :
    NoStall (s.threadProcessIrqRx portIndex) := by
  rw [threadProcessIrqRx_eq, everyPort_xmit_noStall]
  have cleaned := Supplied.cleaned supplied inside
  have passed : Passed (s.cleaned portIndex)
      ((s.cleaned portIndex).forwardProcess portIndex (s.received portIndex)) :=
    (Passed.refl cleaned).forwardProcess
  have still : Sending s → Sending ((s.cleaned portIndex).forwardProcess portIndex (s.received portIndex)) :=
    fun sending => passed.busy ((cleaned_sending supplied inside).mpr sending)
  intro idx less empty spare
  rw [passed.thread] at less
  rw [Port.RxEmpty, passed.rxRing] at empty
  -- the other cases come down to a port that was without slots already
  have before : idx ≠ portIndex ∨ s.received portIndex = [] →
      Sending ((s.cleaned portIndex).forwardProcess portIndex (s.received portIndex)) := fun other =>
    still (flowing idx less (empty_before supplied inside other empty)
      (spare_before supplied inside less other spare))
  rcases feeds with none | sending | more | sent
  · exact before (.inr none)
  · exact still sending
  · by_cases same : idx = portIndex
    · subst same
      have posted := (cleaned_empty supplied inside).mp empty
      omega
    · exact before (.inl same)
  · exact forwardProcess_sends cleaned sent

/-- Otherwise the port whose packets were received is stalled. -/
theorem irqRx_stalls (starved : ¬ s.Feeds portIndex) : ¬ NoStall (s.threadProcessIrqRx portIndex) := by
  rw [threadProcessIrqRx_eq, everyPort_xmit_noStall]
  simp only [Feeds, not_or, not_exists, not_and, not_not, Nat.not_lt] at starved
  obtain ⟨some, idle, all, none⟩ := starved
  have passed : Passed (s.cleaned portIndex)
      ((s.cleaned portIndex).forwardProcess portIndex (s.received portIndex)) :=
    (Passed.refl (Supplied.cleaned supplied inside)).forwardProcess
  have plane : ((s.cleaned portIndex).forwardProcess portIndex (s.received portIndex)).plane =
      (s.cleaned portIndex).plane := forwardProcess_plane none
  intro flowing
  obtain ⟨packet, member⟩ := List.exists_mem_of_ne_nil _ some
  obtain ⟨k, small, slot⟩ := received_region supplied inside member
  have empty : ((s.cleaned portIndex).plane.ports portIndex).RxEmpty :=
    (cleaned_empty supplied inside).mpr all
  have spare : Port.Spare
      (((s.cleaned portIndex).forwardProcess portIndex (s.received portIndex)).plane.ports portIndex)
      ((s.cleaned portIndex).forwardProcess portIndex (s.received portIndex)).buf := by
    refine ⟨k, Nat.lt_of_lt_of_eq small passed.count.symm, ?_⟩
    have offset := (passed.supplied.posted portIndex (passed.thread ▸ inside)).offset
    rw [offset, passed.count]
    show Buf.inflight _ (portIndex * s.buf.count + k) = false
    rw [← slot]
    exact forwardProcess_released member
  have sending := flowing portIndex (passed.thread ▸ inside) (plane ▸ empty) spare
  apply idle
  rw [← cleaned_sending supplied inside]
  simpa only [Sending, plane, passed.thread] using sending

theorem irqRx_supplied : Supplied (s.threadProcessIrqRx portIndex) :=
  Supplied.xmit ((Passed.refl (Supplied.cleaned supplied inside)).forwardProcess).supplied

end IrqRx

theorem Supplied.device (supplied : Supplied s) (rx tx : Nat → Nat → Desc) (mem : Bytes) :
    Supplied (s.device rx tx mem) := by
  refine ⟨fun idx inside => ?_, supplied.portsIn⟩
  obtain ⟨⟨⟨a, b, c, d⟩, e, f, g, h⟩, deepRx, deepTx, offset, next, region⟩ := supplied.posted idx inside
  exact ⟨⟨⟨a, b, c, d⟩, e, f, g, h⟩, deepRx, deepTx, offset, next, region⟩

end Forwarder

/-! ## Runs -/

/-- Every event that meets its condition leaves no port stalled. -/
theorem fed_handle {s : Forwarder} (event : Event) (ready : Supplied s ∧ NoStall s) (fed : Fed s event) :
    Supplied (s.handle event).2 ∧ NoStall (s.handle event).2 := by
  obtain ⟨supplied, flowing⟩ := ready
  obtain ⟨inside, feeds⟩ := fed
  cases event with
  | device rx tx mem => exact ⟨Forwarder.Supplied.device supplied rx tx mem, flowing⟩
  | irqRx portIndex read =>
      exact ⟨Forwarder.irqRx_supplied supplied inside,
        Forwarder.irqRx_flows supplied inside flowing (feeds portIndex read rfl)⟩
  | irqTx portIndex read => exact Forwarder.irqTx_refills supplied portIndex
  | tun portIndex read =>
      cases read with
      | none => exact ⟨supplied, flowing⟩
      | some readBuf => exact Forwarder.tun_refills supplied flowing inside readBuf
  | netlink read =>
      cases read with
      | none => exact ⟨supplied, flowing⟩
      | some readBuf =>
          have same := netlinkProcess_numPorts s.thread readBuf readBuf.length
          refine ⟨⟨fun idx less => supplied.posted idx (same ▸ less),
            netlinkProcess_portsIn supplied.portsIn readBuf _⟩, fun idx less empty spare => ?_⟩
          obtain ⟨p, inside, busy⟩ := flowing idx (same ▸ less) empty spare
          exact ⟨p, same.symm ▸ inside, busy⟩
  | signal read => exact ⟨supplied, flowing⟩

/-- Each port of a new thread has its own region. -/
theorem Boot.supplied (boot : Boot)
    (deep : ∀ dev ∈ boot.devs, ∀ iface ∈ dev.iface, 2 ≤ iface.numRxDesc ∧ 2 ≤ iface.numTxDesc) :
    Supplied boot.fresh := by
  refine ⟨fun idx inside => ?_, boot.portsIn⟩
  obtain ⟨dev, known, iface, among, same⟩ := ufpPlaneAlloc_port (boot.fresh.numPorts ▸ inside)
  have reset := boot.rings dev known iface among
  obtain ⟨deepRx, deepTx⟩ := deep dev known iface among
  have offset := (region_bounds boot.whole (boot.port_lt inside)).1
  have empty : iface.rxRing.queue iface.numRxDesc = [] := by
    rw [reset.rx.ok.queue_eq_nil, reset.rx.use, reset.rx.clean]
  show Port.Posted ((ufpPlaneAlloc boot.devs boot.buf).ports idx) idx boot.buf.count
  rw [same] at offset ⊢
  refine ⟨⟨reset.rx.ok, reset.tx.ok⟩, deepRx, deepTx, offset, fun positive => positive, fun slot member => ?_⟩
  have inside : slot ∈ iface.rxRing.queue iface.numRxDesc := member
  rw [empty] at inside
  cases inside

/-- **Receiving does not stall while RX interrupts are fed.** Rings have two descriptors
or more. In a run in which every RX interrupt meets the condition, no state between two
events is stalled. From any such state, an RX interrupt leads to one that is not stalled
exactly if it meets the condition. -/
theorem receive_supplied_iff (boot : Boot)
    (deep : ∀ dev ∈ boot.devs, ∀ iface ∈ dev.iface, 2 ≤ iface.numRxDesc ∧ 2 ≤ iface.numTxDesc)
    (events : List Event) (fed : Along Fed events boot.start) :
    let s := (threadWait events boot.start).2
    NoStall s ∧ ∀ portIndex < s.thread.numPorts,
      (NoStall (s.threadProcessIrqRx portIndex) ↔ s.Feeds portIndex) := by
  have ready : Supplied (threadWait events boot.start).2 ∧ NoStall (threadWait events boot.start).2 :=
    threadWait_rule (I := fun s => Supplied s ∧ NoStall s) (fun s event ready fed => fed_handle event ready fed)
      (Forwarder.everyPort_refill (boot.supplied deep)) fed
  obtain ⟨supplied, flowing⟩ := ready
  refine ⟨flowing, fun portIndex inside => ⟨fun flows => ?_, Forwarder.irqRx_flows supplied inside flowing⟩⟩
  by_contra starved
  exact Forwarder.irqRx_stalls supplied inside starved flows

/-- One of three posted descriptors is used. -/
theorem receive_supplied_sample :
    let events := [sampleArrival fun _ => 0, .irqRx 0 true]
    Along Fed events sampleBoot.start ∧ NoStall (threadWait events sampleBoot.start).2 := by
  have fed : Along Fed [sampleArrival fun _ => 0, .irqRx 0 true] sampleBoot.start := by
    refine ⟨⟨trivial, by rintro _ _ ⟨⟩⟩, ⟨⟨by decide +kernel, ?_⟩, trivial⟩⟩
    rintro idx read ⟨⟩
    exact .inr (.inr (.inl (by decide +kernel)))
  refine ⟨fed, (receive_supplied_iff sampleBoot ?_ _ fed).1⟩
  intro dev member iface among
  obtain rfl := List.mem_singleton.mp member
  obtain rfl := List.mem_singleton.mp among
  decide

/-- The devices have filled every posted slot with a frame that is no ARP or IP packet. -/
def sampleFlood : Event :=
  .device (fun _ _ => ⟨0, 3 + 64 <<< 38⟩) (fun _ _ => ⟨0, 0⟩) fun _ => 0

/-- The RX interrupt drops all three frames. Nothing is posted, no slot is in use, and
no TX interrupt will come. -/
theorem receive_stalls :
    let s := (threadWait [sampleFlood, .irqRx 0 true] sampleBoot.start).2
    (s.plane.ports 0).RxEmpty ∧ (s.plane.ports 0).Spare s.buf ∧ ¬ Sending s ∧ ¬ NoStall s := by
  intro s
  have ports : s.thread.numPorts = 1 := by decide +kernel
  have empty : (s.plane.ports 0).RxEmpty := by
    unfold Port.RxEmpty
    decide +kernel
  have spare : (s.plane.ports 0).Spare s.buf := ⟨0, by decide +kernel, by decide +kernel⟩
  have idle : ¬ Sending s := by
    rintro ⟨p, inside, busy⟩
    obtain rfl : p = 0 := by omega
    revert busy
    unfold Port.TxBusy
    decide +kernel
  exact ⟨empty, spare, idle, fun flowing => idle (flowing 0 (by omega) empty spare)⟩

end Ufp.Daemon
