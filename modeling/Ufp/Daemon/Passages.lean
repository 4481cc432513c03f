/-
# Ufp.Daemon.Passages — every packet of a thread, from its arrival on

Beside a run of `thread_wait` this module writes down a passage for each packet that
`ufp_rx_clean` returns and each frame that is read from a TAP device: where it came from
and what became of it. The decision is the code's own, taken in the state the packet
meets, so packets of one batch are followed one after the other.

The counters of a port and the contents of its TX ring are compared with that list.
`Conserved q passages waiting s` is the invariant for port `q`, in the terms of the
port's own traffic (`Traffic.Account`): `waiting` packets have been taken from its RX
ring and were not looked at yet.

* `forwardPacket_conserved`: one packet of a batch adds its passage;
* `handle_conserved`: one event adds the passages of its packets;
* `packets_conserved`: over a whole run, no packet is lost, none is counted twice, and
  each TX ring holds the packets that were queued on it in their order.
-/
import Ufp.Daemon.Events
import Ufp.Lib.Fifo

namespace Ufp.Daemon

open Ufp.Lib.Io

set_option autoImplicit false

/-! ## Passages -/

inductive Source where
  | rx (port : Nat)
  | tun (port : Nat)
  deriving DecidableEq

/-- What became of a packet: it was dropped, written to the TAP device, put into the TX
ring of a port, or given up by `ufp_tx_assign` because that ring was full. -/
inductive Fate where
  | dropped
  | tap (frame : List UInt8)
  | queued (port slot : Nat)
  | refused (port : Nat)
  deriving DecidableEq

structure Passage where
  source : Source
  fate : Fate
  deriving DecidableEq

namespace Passage

variable (q : Nat)

def receivedOn (passage : Passage) : Bool := passage.source = .rx q

/-- The slot, for a packet in the TX ring of port `q`. -/
def queuedOn : Passage → Option Nat
  | ⟨_, .queued port slot⟩ => if port = q then some slot else none
  | _ => none

def refusedBy (passage : Passage) : Bool := passage.fate = .refused q

/-- `ufp_tx_assign` was called for port `q`. -/
def passedTo (passage : Passage) : Bool := (passage.queuedOn q).isSome || passage.refusedBy q

/-- The bytes, for a packet written to the TAP device of port `q`. -/
def writtenTo : Passage → Option (List UInt8)
  | ⟨.rx port, .tap frame⟩ => if port = q then some frame else none
  | _ => none

end Passage

namespace Forwarder

variable (s : Forwarder)

def frame (packet : Packet) : List UInt8 := (List.range packet.slotSize).map (s.view packet)

/-- What `ufp_tx_assign` does with a packet for port `p`. -/
def txFate (p slot : Nat) : Fate :=
  if ufpDescUnused (s.plane.ports p).txRing (s.plane.ports p).numTxDesc = 0 then .refused p
  else .queued p slot

/-- What `forward_process` does with a packet. -/
def fate (packet : Packet) : Fate :=
  if packet.flag &&& packetError ≠ 0 then .dropped
  else
    let done := forwardSwitch s.thread (s.view packet)
    if done.toTap then .tap (s.frame packet)
    else if done.ret < 0 then .dropped
    else s.txFate done.ret.toNat packet.slotIndex

/-- What `forward_process_tun` does with a frame. -/
def tunFate (portIndex : Nat) (readBuf : List UInt8) : Fate :=
  if readBuf.length > s.buf.slotSize then .dropped
  else
    match ufpSlotAssign (s.plane.ports portIndex) s.buf with
    | (none, _, _) => .dropped
    | (some slot, _, _) => s.txFate portIndex slot

/-- The passages of a batch, each packet in the state the packets before it leave. -/
def batch (portIndex : Nat) : List Packet → Forwarder → List Passage
  | [], _ => []
  | packet :: packets, s =>
      ⟨.rx portIndex, s.fate packet⟩ ::
        batch portIndex packets ((s.forwardPacket portIndex packet).release packet.slotIndex)

/-- The passages of one event. -/
def passages : Event → List Passage
  | .irqRx portIndex _ => batch portIndex (s.received portIndex) (s.cleaned portIndex)
  | .tun portIndex (some readBuf) => [⟨.tun portIndex, s.tunFate portIndex readBuf⟩]
  | _ => []

end Forwarder

/-- The passages of a run of `thread_wait`. -/
def runPassages : List Event → Forwarder → List Passage
  | [], _ => []
  | event :: events, s =>
      s.passages event ++
        match s.handle event with
        | (none, s) => runPassages events s
        | (some _, _) => []

/-! ## The invariant of one port -/

/-- The traffic of port `q` agrees with the passages; `waiting` packets of the port have
been received and have no passage yet. -/
structure Conserved (q : Nat) (passages : List Passage) (waiting : Nat) (s : Forwarder) : Prop where
  account : ∃ rxNum txNum t, Traffic.Account rxNum txNum t ∧ t.port = s.plane.ports q ∧
    t.history.received.length = passages.countP (Passage.receivedOn q) + waiting ∧
    t.history.txAssigns = passages.countP (Passage.passedTo q) ∧
    t.history.sent = passages.filterMap (Passage.queuedOn q)
  tap : s.tap q = passages.filterMap (Passage.writtenTo q)

/-- A call that neither receives nor sends. -/
def Aside (f : Port → Buf → Port × Buf) : Prop :=
  ∀ buf, ∃ call : PortCall, ∀ t, (call.run t).port = (f t.port buf).1 ∧
    (call.run t).history.received = t.history.received ∧
    (call.run t).history.txAssigns = t.history.txAssigns ∧ (call.run t).history.sent = t.history.sent

theorem aside_xmit : Aside Forwarder.xmit := fun _ => ⟨.txXmit, fun _ => ⟨rfl, rfl, rfl, rfl⟩⟩

theorem aside_rxAssign : Aside ufpRxAssign := fun buf => ⟨.rxAssign buf, fun _ => ⟨rfl, rfl, rfl, rfl⟩⟩

theorem aside_txClean : Aside ufpTxClean := fun buf => ⟨.txClean buf, fun _ => ⟨rfl, rfl, rfl, rfl⟩⟩

theorem filterMap_one {α β : Type} (f : α → Option β) (x : α) : [x].filterMap f = (f x).toList := by
  rw [List.filterMap_cons, List.filterMap_nil]
  cases f x <;> rfl

namespace Conserved

variable {q : Nat} {passages : List Passage} {waiting : Nat} {s s' : Forwarder}

/-- Port `q` and its TAP device are as they were. -/
theorem congr (conserved : Conserved q passages waiting s) (port : s'.plane.ports q = s.plane.ports q)
    (tap : s'.tap q = s.tap q) : Conserved q passages waiting s' := by
  refine ⟨?_, tap.trans conserved.tap⟩
  rw [port]
  exact conserved.account

/-- A call on port `q` that neither receives nor sends. -/
theorem call (conserved : Conserved q passages waiting s) (call : PortCall)
    (port : ∀ t, t.port = s.plane.ports q → (call.run t).port = s'.plane.ports q ∧
      (call.run t).history.received = t.history.received ∧
      (call.run t).history.txAssigns = t.history.txAssigns ∧ (call.run t).history.sent = t.history.sent)
    (tap : s'.tap q = s.tap q) : Conserved q passages waiting s' := by
  obtain ⟨⟨rxNum, txNum, t, account, here, received, assigns, sent⟩, written⟩ := conserved
  obtain ⟨port, sameReceived, sameAssigns, sameSent⟩ := port t here
  refine ⟨⟨rxNum, txNum, call.run t, account.step call, port, ?_, ?_, ?_⟩, tap.trans written⟩
  · rw [sameReceived, received]
  · rw [sameAssigns, assigns]
  · rw [sameSent, sent]

theorem onPort (conserved : Conserved q passages waiting s) {f : Port → Buf → Port × Buf} (aside : Aside f)
    (idx : Nat) : Conserved q passages waiting (s.onPort idx f) := by
  by_cases here : q = idx
  · subst here
    obtain ⟨call, runs⟩ := aside s.buf
    refine conserved.call call (fun t port => ?_) rfl
    obtain ⟨same, rest⟩ := runs t
    refine ⟨?_, rest⟩
    rw [same, port, Forwarder.onPort_self]
  · exact conserved.congr (Forwarder.onPort_of_ne here) rfl

theorem everyPort (conserved : Conserved q passages waiting s) {f : Port → Buf → Port × Buf}
    (aside : Aside f) : Conserved q passages waiting (s.everyPort f) :=
  Forwarder.everyPort_rule (I := Conserved q passages waiting)
    (fun _ _ idx _ conserved => conserved.onPort aside idx) conserved

/-- A packet has met its fate: `run` is what its passage did to the traffic of the port. -/
theorem add (conserved : Conserved q passages waiting s) (passage : Passage) (run : Traffic → Traffic)
    (keeps : ∀ {rxNum txNum t}, Traffic.Account rxNum txNum t → Traffic.Account rxNum txNum (run t))
    (port : ∀ t, t.port = s.plane.ports q → (run t).port = s'.plane.ports q ∧
      (run t).history.received = t.history.received ∧
      (run t).history.txAssigns = t.history.txAssigns + (if passage.passedTo q then 1 else 0) ∧
      (run t).history.sent = t.history.sent ++ (passage.queuedOn q).toList)
    (tap : s'.tap q = s.tap q ++ (passage.writtenTo q).toList) {waiting' : Nat}
    (counted : waiting = (if passage.receivedOn q then 1 else 0) + waiting') :
    Conserved q (passages ++ [passage]) waiting' s' := by
  obtain ⟨⟨rxNum, txNum, t, account, here, received, assigns, sent⟩, written⟩ := conserved
  obtain ⟨port, sameReceived, moreAssigns, moreSent⟩ := port t here
  refine ⟨⟨rxNum, txNum, run t, keeps account, port, ?_, ?_, ?_⟩, ?_⟩
  · rw [sameReceived, received, counted, List.countP_append, List.countP_singleton, Nat.add_assoc]
  · rw [moreAssigns, assigns, List.countP_append, List.countP_singleton]
  · rw [moreSent, sent, List.filterMap_append, filterMap_one]
  · rw [tap, written, List.filterMap_append, filterMap_one]

/-- A packet that is not handed to `ufp_tx_assign`. -/
theorem keep (conserved : Conserved q passages waiting s) (passage : Passage)
    (notQueued : passage.queuedOn q = none) (notRefused : passage.refusedBy q = false)
    (port : s'.plane.ports q = s.plane.ports q)
    (tap : s'.tap q = s.tap q ++ (passage.writtenTo q).toList) {waiting' : Nat}
    (counted : waiting = (if passage.receivedOn q then 1 else 0) + waiting') :
    Conserved q (passages ++ [passage]) waiting' s' := by
  refine conserved.add passage id id (fun t here => ⟨here.trans port.symm, rfl, ?_, ?_⟩) tap counted
  · simp [Passage.passedTo, notQueued, notRefused]
  · simp [notQueued]

/-- A packet that is handed to `ufp_tx_assign` of port `p`. -/
theorem pass (conserved : Conserved q passages waiting s) (source : Source) (p : Nat) (packet : Packet)
    {waiting' : Nat} (counted : waiting = (if source = .rx q then 1 else 0) + waiting') :
    Conserved q (passages ++ [⟨source, s.txFate p packet.slotIndex⟩]) waiting'
      (s.onPort p fun port buf => ufpTxAssign port buf packet) := by
  have notTap : Passage.writtenTo q ⟨source, s.txFate p packet.slotIndex⟩ = none := by
    unfold Forwarder.txFate
    split <;> cases source <;> rfl
  have tap : (s.onPort p fun port buf => ufpTxAssign port buf packet).tap q = s.tap q ++
      (Passage.writtenTo q ⟨source, s.txFate p packet.slotIndex⟩).toList := by
    rw [notTap, Option.toList_none, List.append_nil]
    rfl
  have counted' : waiting = (if Passage.receivedOn q ⟨source, s.txFate p packet.slotIndex⟩ then 1 else 0) +
      waiting' := by simpa [Passage.receivedOn] using counted
  by_cases here : q = p
  · subst here
    refine conserved.add _ (fun t => (PortCall.txAssign s.buf packet).run t)
      (fun account => account.step _) (fun t port => ⟨?_, rfl, ?_, ?_⟩) tap counted'
    · rw [Forwarder.onPort_self, ← port]
      rfl
    · unfold Forwarder.txFate
      split <;> simp [PortCall.run, Passage.passedTo, Passage.queuedOn, Passage.refusedBy]
    · show t.history.sent ++ sentSlots t.port s.buf packet = _
      rw [port]
      congr 1
      unfold sentSlots ufpTxAssign Forwarder.txFate
      split <;> simp [Passage.queuedOn]
  · refine conserved.keep _ ?_ ?_ (Forwarder.onPort_of_ne here) tap counted'
    · unfold Forwarder.txFate
      split <;> simp [Passage.queuedOn, Ne.symm here]
    · unfold Forwarder.txFate
      split <;> simp [Passage.refusedBy, Ne.symm here]

end Conserved

/-! ## A batch of packets -/

namespace Forwarder

variable {q : Nat} {passages : List Passage} {waiting : Nat} {s : Forwarder} {portIndex : Nat}

/-- `forward_process` drops a packet, writes it to the TAP device or hands it to
`ufp_tx_assign`, as `fate` has it. -/
theorem forwardPacket_fate (s : Forwarder) (portIndex : Nat) (packet : Packet) :
    (s.fate packet = .dropped ∧ s.forwardPacket portIndex packet = s) ∨
    (s.fate packet = .tap (s.frame packet) ∧ s.forwardPacket portIndex packet = s.writeTap portIndex packet) ∨
    ∃ p mem, s.fate packet = s.txFate p packet.slotIndex ∧ s.forwardPacket portIndex packet =
      ({ s with mem } : Forwarder).onPort p fun port buf => ufpTxAssign port buf packet := by
  unfold fate forwardPacket
  by_cases error : packet.flag &&& packetError ≠ 0
  · rw [if_pos error, if_pos error]
    exact .inl ⟨rfl, rfl⟩
  · rw [if_neg error, if_neg error]
    rcases forwardSwitch_cases s.thread (s.view packet) with ⟨toTap, done⟩ | ⟨port, sent, done, -⟩
    · rw [done]
      cases toTap with
      | true => exact .inr (.inl ⟨rfl, @store_view (s.writeTap portIndex packet) packet⟩)
      | false => exact .inl ⟨rfl, store_view⟩
    · have natural : ¬ (port : Int) < 0 := Int.not_lt.mpr (Int.natCast_nonneg port)
      rw [done]
      dsimp only
      rw [if_neg natural, if_neg natural]
      exact .inr (.inr ⟨port, _, rfl, rfl⟩)

/-- A packet of port `portIndex` that was waiting has its passage. -/
theorem forwardPacket_conserved (packet : Packet)
    (conserved : Conserved q passages ((if portIndex = q then 1 else 0) + waiting) s) :
    Conserved q (passages ++ [⟨.rx portIndex, s.fate packet⟩]) waiting (s.forwardPacket portIndex packet) := by
  rcases s.forwardPacket_fate portIndex packet with ⟨dropped, same⟩ | ⟨written, same⟩ | ⟨p, mem, passed, same⟩
  · rw [dropped, same]
    exact conserved.keep _ rfl rfl rfl (by simp [Passage.writtenTo]) (by simp [Passage.receivedOn])
  · rw [written, same]
    have port : (s.writeTap portIndex packet).plane.ports q = s.plane.ports q := rfl
    refine conserved.keep _ rfl rfl port ?_ (by simp [Passage.receivedOn])
    show Function.update s.tap portIndex (s.tap portIndex ++ [s.frame packet]) q = _
    by_cases here : portIndex = q
    · subst here
      simp [Passage.writtenTo]
    · rw [Function.update_of_ne (Ne.symm here)]
      simp [Passage.writtenTo, here]
  · rw [passed, same]
    have stored : Conserved q passages _ { s with mem } := conserved.congr rfl rfl
    exact stored.pass (.rx portIndex) p packet (by simp)

/-- Induction over the batch, with the packets not yet looked at as those waiting. -/
theorem forwardProcess_conserved {packets : List Packet}
    (conserved : Conserved q passages (if portIndex = q then packets.length else 0) s) :
    Conserved q (passages ++ batch portIndex packets s) 0 (s.forwardProcess portIndex packets) := by
  induction packets generalizing s passages with
  | nil =>
      rw [List.length_nil, ite_self] at conserved
      rw [batch, List.append_nil]
      exact conserved
  | cons packet packets ih =>
      have split : (if portIndex = q then (packet :: packets).length else 0) =
          (if portIndex = q then 1 else 0) + if portIndex = q then packets.length else 0 := by
        split <;> simp [Nat.add_comm]
      rw [split] at conserved
      have next : Conserved q (passages ++ [⟨.rx portIndex, s.fate packet⟩]) _
          ((s.forwardPacket portIndex packet).release packet.slotIndex) :=
        (forwardPacket_conserved packet conserved).congr rfl rfl
      have rest := ih next
      rwa [List.append_assoc, List.singleton_append] at rest

/-- `ufp_rx_clean` makes its packets wait. -/
theorem cleaned_conserved (conserved : Conserved q passages 0 s) :
    Conserved q passages (if portIndex = q then (s.received portIndex).length else 0)
      (s.cleaned portIndex) := by
  by_cases here : portIndex = q
  · subst here
    rw [if_pos rfl]
    obtain ⟨⟨rxNum, txNum, t, account, port, received, assigns, sent⟩, written⟩ := conserved
    refine ⟨⟨rxNum, txNum, _, account.step (.rxClean s.buf), ?_, ?_, assigns, sent⟩, written⟩
    · show (ufpRxClean t.port s.buf).2 = (s.plane.setPort portIndex _).ports portIndex
      rw [Plane.setPort_self, port]
    · show (t.history.received ++ (ufpRxClean t.port s.buf).1.map Packet.slotIndex).length = _
      rw [List.length_append, List.length_map, received, port]
      rfl
  · rw [if_neg here]
    exact conserved.congr (Plane.setPort_of_ne _ _ (Ne.symm here)) rfl

/-! ## Events -/

/-- Port `portIndex` after `ufp_slot_assign`, with the frame copied into the slot. -/
theorem taking_conserved (conserved : Conserved q passages waiting s) {slotNext slot : Nat} (mem : Bytes)
    (taken : ufpSlotAssign (s.plane.ports portIndex) s.buf = (some slot,
      { s.plane.ports portIndex with rxSlotNext := slotNext }, s.buf.mark slot)) :
    Conserved q passages waiting (s.taking portIndex slotNext slot mem) := by
  by_cases here : q = portIndex
  · subst here
    refine conserved.call (.slotAssign s.buf) (fun t port => ⟨?_, rfl, rfl, rfl⟩) rfl
    show (ufpSlotAssign t.port s.buf).2.1 = (s.plane.setPort q _).ports q
    rw [port, taken, Plane.setPort_self]
  · exact conserved.congr (Plane.setPort_of_ne _ _ here) rfl

theorem taking_txFate {slotNext slot : Nat} {mem : Bytes} :
    (s.taking portIndex slotNext slot mem).txFate portIndex slot = s.txFate portIndex slot := by
  unfold txFate taking
  dsimp only
  rw [Plane.setPort_self]

theorem forwardProcessTun_conserved (conserved : Conserved q passages 0 s) (readBuf : List UInt8) :
    Conserved q (passages ++ [⟨.tun portIndex, s.tunFate portIndex readBuf⟩]) 0
      (s.forwardProcessTun portIndex readBuf) := by
  have dropped : Conserved q (passages ++ [⟨.tun portIndex, .dropped⟩]) 0 s :=
    conserved.keep _ rfl rfl rfl (by simp [Passage.writtenTo]) (by simp [Passage.receivedOn])
  unfold tunFate forwardProcessTun
  split
  · exact dropped
  · rcases ufpSlotAssign_spec (s.plane.ports portIndex) s.buf with none | ⟨slot, slotNext, -, taken⟩
    · rw [none]
      refine dropped.congr ?_ rfl
      show (s.plane.setPort portIndex (s.plane.ports portIndex)).ports q = s.plane.ports q
      rw [Plane.setPort, Function.update_eq_self]
    · have passed := fun mem packet => (taking_conserved conserved mem taken).pass
        (.tun portIndex) portIndex packet (Nat.zero_add 0).symm
      rw [taken]
      have done := passed (copyTo s.mem (ufpSlotAddrVirt (s.buf.mark slot) slot) (bytesAt readBuf)
        readBuf.length) ⟨ufpSlotAddrVirt (s.buf.mark slot) slot, readBuf.length, slot, packetEof⟩
      rw [taking_txFate] at done
      exact done

/-- The devices write descriptors and memory only. -/
theorem device_conserved (conserved : Conserved q passages waiting s) (rx tx : Nat → Nat → Desc)
    (mem : Bytes) : Conserved q passages waiting (s.device rx tx mem) := by
  refine conserved.call (.device (rx q) (tx q)) (fun t port => ⟨?_, rfl, rfl, rfl⟩) rfl
  rw [PortCall.run, port]
  rfl

/-- Each event adds the passages of its packets. -/
theorem handle_conserved (conserved : Conserved q passages 0 s) (event : Event) :
    Conserved q (passages ++ s.passages event) 0 (s.handle event).2 := by
  have none : Conserved q (passages ++ []) 0 s := by rwa [List.append_nil]
  cases event with
  | device rx tx mem => exact device_conserved none rx tx mem
  | irqRx portIndex read =>
      exact (forwardProcess_conserved (cleaned_conserved conserved)).everyPort aside_xmit
  | irqTx portIndex read => exact (none.onPort aside_txClean portIndex).everyPort aside_rxAssign
  | tun portIndex read =>
      cases read with
      | none => exact none
      | some readBuf => exact (forwardProcessTun_conserved conserved readBuf).everyPort aside_xmit
  | netlink read =>
      cases read with
      | none => exact none
      | some readBuf => exact none.congr rfl rfl
  | signal read => exact none

end Forwarder

/-! ## Whole runs -/

/-- Induction over the events handled. -/
theorem threadWait_conserved {q : Nat} {passages : List Passage} (events : List Event) {s : Forwarder}
    (conserved : Conserved q passages 0 s) :
    Conserved q (passages ++ runPassages events s) 0 (threadWait events s).2 := by
  induction events generalizing s passages with
  | nil =>
      rw [runPassages, List.append_nil]
      exact conserved
  | cons event events ih =>
      have next := Forwarder.handle_conserved conserved event
      rcases handled : s.handle event with ⟨_ | ret, s'⟩
      · rw [handled] at next
        simp only [threadWait, runPassages, handled]
        rw [← List.append_assoc]
        exact ih next
      · rw [handled] at next
        simp only [threadWait, runPassages, handled]
        rwa [List.append_nil]

/-- Nothing has come or gone when the first slots are posted. -/
theorem Boot.conserved (boot : Boot) {q : Nat} (inside : q < boot.fresh.thread.numPorts) :
    Conserved q [] 0 boot.start := by
  refine Conserved.everyPort ⟨?_, rfl⟩ aside_rxAssign
  obtain ⟨ops, iface, reset, port⟩ := boot.port inside
  have start : Traffic.Start ⟨boot.fresh.plane.ports q, ⟨[], [], 0, [], []⟩⟩ := by
    rw [port]
    exact ⟨reset.rx.ok, reset.tx.ok, reset.rx.clean.trans reset.rx.use.symm,
      reset.tx.clean.trans reset.tx.use.symm, ⟨rfl, rfl, rfl⟩, rfl⟩
  exact ⟨_, _, _, start.account, rfl, rfl, rfl, rfl⟩

/-- A packet handed to `ufp_tx_assign` is queued or refused. -/
theorem Passage.passedTo_eq (q : Nat) (passage : Passage) :
    (if passage.passedTo q then 1 else 0) =
      (if passage.refusedBy q then 1 else 0) + (passage.queuedOn q).toList.length := by
  obtain ⟨source, fate⟩ := passage
  cases fate with
  | dropped => rfl
  | tap frame => rfl
  | queued p slot => by_cases here : p = q <;> simp [passedTo, queuedOn, refusedBy, here]
  | refused p => by_cases here : p = q <;> simp [passedTo, queuedOn, refusedBy, here]

theorem countP_passedTo (q : Nat) (passages : List Passage) :
    passages.countP (Passage.passedTo q) =
      passages.countP (Passage.refusedBy q) + (passages.filterMap (Passage.queuedOn q)).length := by
  induction passages with
  | nil => rfl
  | cons passage passages ih =>
      rw [← List.singleton_append, List.filterMap_append, filterMap_one, List.length_append,
        List.countP_append, List.countP_append, List.countP_singleton, List.countP_singleton, ih,
        passage.passedTo_eq q]
      omega

/-- **No packet is lost, and none is counted twice.** Take any run of a thread, whatever
the devices write and whatever arrives, and any of its ports.

* The packets queued on the port, in the order in which they were decided on, are those
  that `ufp_tx_clean` has counted followed by those in the TX ring.
* `count_tx_xmit_failed` counts the packets refused because the ring was full.
* `count_rx_clean_total` counts the packets received on the port: each has one fate.
* The TAP device was written the frames that were meant for it, in their order. -/
theorem packets_conserved (boot : Boot) (events : List Event) {q : Nat}
    (inside : q < boot.fresh.thread.numPorts) :
    let s := (threadWait events boot.start).2
    let port := s.plane.ports q
    let passages := runPassages events boot.start
    (∃ cleaned, cleaned.length = port.countTxCleanTotal ∧
        passages.filterMap (Passage.queuedOn q) = cleaned ++ port.txRing.queue port.numTxDesc) ∧
      port.countTxXmitFailed = passages.countP (Passage.refusedBy q) ∧
      port.countRxCleanTotal = passages.countP (Passage.receivedOn q) ∧
      s.tap q = passages.filterMap (Passage.writtenTo q) := by
  intro s port passages
  have conserved : Conserved q passages 0 s := by
    have run := threadWait_conserved events (boot.conserved inside)
    rwa [List.nil_append] at run
  obtain ⟨⟨rxNum, txNum, t, account, here, received, assigns, sent⟩, written⟩ := conserved
  have here : t.port = port := here
  refine ⟨⟨t.history.cleaned, ?_, ?_⟩, ?_, ?_, written⟩
  · rw [← here, account.txTotal]
  · rw [← sent, account.tx.order, ← here, account.txSize]
  · have total := account.txAssigns
    rw [assigns, countP_passedTo, ← sent, here] at total
    omega
  · rw [← here, account.rxTotal, received]
    rfl

/-- An ARP packet comes in on the only port and goes to the TAP device, and a frame from
the TAP device is queued on the port. -/
theorem packets_conserved_sample :
    let events := [sampleArrival (bytesAt (List.replicate 12 0 ++ [8, 6])), .irqRx 0 true,
      .tun 0 (some [1, 2, 3])]
    (runPassages events sampleBoot.start).map Passage.source = [.rx 0, .tun 0] ∧
      ((threadWait events sampleBoot.start).2.plane.ports 0).countRxCleanTotal =
        (runPassages events sampleBoot.start).countP (Passage.receivedOn 0) := by
  intro events
  exact ⟨by decide +kernel, (packets_conserved sampleBoot events (by decide +kernel)).2.2.1⟩

end Ufp.Daemon
