/-
# Ufp.Daemon.SlotBounds — a thread keeps to the array of slots

The handlers of a thread over the calls of `Ufp.Lib.SlotArray`, in which an index outside
`buf->slots` or an `int` that overflows is `none`. In every run of a thread whose slots
were counted right (`Boot.counted`) there is no such access, and the run is the one that
`Ufp.Daemon.Events` computes (`slots_stay_in_array`).
-/
import Ufp.Daemon.Events
import Ufp.Lib.SlotArray

namespace Ufp.Daemon

open Ufp.Lib.Io Ufp.Theory

set_option autoImplicit false

/-! ## The handlers -/

namespace Forwarder

variable (s : Forwarder)

/-- A library call on one port. -/
def onPortInt (idx : Nat) (code : Port → Buf → Option (Port × Buf)) : Option Forwarder := do
  let (port, buf) ← code (s.plane.ports idx) s.buf
  return { s with plane := s.plane.setPort idx port, buf }

/-- `for(i = 0; i < thread->num_ports; i++)` with a library call on port `i`. -/
def everyPortInt (code : Port → Buf → Option (Port × Buf)) : Option Forwarder :=
  (List.range s.thread.numPorts).foldlM (fun s idx => s.onPortInt idx code) s

def releaseInt (slot : Nat) : Option Forwarder := do
  let buf ← ufpSlotReleaseInt s.buf slot
  return { s with buf }

/-- One iteration of `forward_process`. -/
def forwardPacketInt (portIndex : Nat) (packet : Packet) : Option Forwarder :=
  if packet.flag &&& packetError ≠ 0 then some s
  else
    let done := forwardSwitch s.thread (s.view packet)
    let s := if done.toTap then s.writeTap portIndex packet else s
    let s := s.store packet done.buf
    if done.ret < 0 then some s else s.onPortInt done.ret.toNat (ufpTxAssignInt packet)

/-- `forward_process`. -/
def forwardProcessInt (portIndex : Nat) (packets : List Packet) : Option Forwarder :=
  packets.foldlM (fun s packet => do
    let s ← s.forwardPacketInt portIndex packet
    s.releaseInt packet.slotIndex) s

/-- `forward_process_tun`. -/
def forwardProcessTunInt (portIndex : Nat) (readBuf : List UInt8) : Option Forwarder :=
  if readBuf.length > s.buf.slotSize then some s
  else do
    let (slotIndex, port, buf) ← ufpSlotAssignInt (s.plane.ports portIndex) s.buf
    if slotIndex < 0 then return { s with plane := s.plane.setPort portIndex port, buf }
    let packet : Packet :=
      { slotBuf := ufpSlotAddrVirt buf slotIndex.toNat, slotSize := readBuf.length
        slotIndex := slotIndex.toNat, flag := packetEof }
    let s := { s with
      plane := s.plane.setPort portIndex port
      buf
      mem := copyTo s.mem packet.slotBuf (bytesAt readBuf) readBuf.length }
    s.onPortInt portIndex (ufpTxAssignInt packet)

/-- One iteration over the events. -/
def handleInt : Event → Option (Option Int × Forwarder)
  | .irqRx portIndex read => do
      let (packets, port) := ufpRxClean (s.plane.ports portIndex) s.buf
      let s := { s with plane := s.plane.setPort portIndex port }
      let s ← s.forwardProcessInt portIndex packets
      return (if read then none else some (-1), s.everyPort xmit)
  | .irqTx portIndex read => do
      let s ← s.onPortInt portIndex ufpTxCleanInt
      let s ← s.everyPortInt ufpRxAssignInt
      return (if read then none else some (-1), s)
  | .tun portIndex (some readBuf) => do
      let s ← s.forwardProcessTunInt portIndex readBuf
      return (none, s.everyPort xmit)
  | event => some (s.handle event)

end Forwarder

/-- `thread_wait`. -/
def threadWaitInt : List Event → Forwarder → Option (Option Int × Forwarder)
  | [], s => some (none, s)
  | event :: events, s => do
      match ← s.handleInt event with
      | (none, s) => threadWaitInt events s
      | (some ret, s) => return (some ret, s)

/-- The thread from `Prepare initial RX buffer` on. -/
def Boot.runInt (boot : Boot) (events : List Event) : Option (Option Int × Forwarder) := do
  let s ← boot.fresh.everyPortInt ufpRxAssignInt
  threadWaitInt events s

/-! ## What holds between two calls -/

/-- Every port keeps to an array of `length` slots. -/
structure InSlots (count length : Nat) (s : Forwarder) : Prop where
  ports : s.AllPorts fun port => port.Inside count length
  buf : s.buf.Sized count length
  portsIn : s.thread.PortsIn

namespace Forwarder

variable {s : Forwarder} {count length idx portIndex : Nat} {code : Port → Buf → Option (Port × Buf)}
  {call : Port → Buf → Port × Buf}

theorem onPortInt_eq (inSlots : InSlots count length s) (computes : Computes count length code call)
    (inside : idx < s.thread.numPorts) :
    s.onPortInt idx code = some (s.onPort idx call) ∧ InSlots count length (s.onPort idx call) := by
  obtain ⟨same, port, buf⟩ := computes inSlots.buf (inSlots.ports idx inside)
  constructor
  · simp only [onPortInt, same, Option.bind_eq_bind, Option.bind_some]
    rfl
  · exact ⟨inSlots.ports.setPort fun _ => port, buf, inSlots.portsIn⟩

theorem everyPortInt_eq (inSlots : InSlots count length s) (computes : Computes count length code call) :
    s.everyPortInt code = some (s.everyPort call) ∧ InSlots count length (s.everyPort call) := by
  -- the calls so far, on the ports below `n`
  have loop : ∀ n ≤ s.thread.numPorts,
      (List.range n).foldlM (fun s idx => s.onPortInt idx code) s =
          some ((List.range n).foldl (fun s idx => s.onPort idx call) s) ∧
        ((List.range n).foldl (fun s idx => s.onPort idx call) s).thread = s.thread ∧
        InSlots count length ((List.range n).foldl (fun s idx => s.onPort idx call) s) := by
    intro n few
    induction n with
    | zero => exact ⟨rfl, rfl, inSlots⟩
    | succ n ih =>
        obtain ⟨same, thread, kept⟩ := ih (by omega)
        obtain ⟨last, kept⟩ := @onPortInt_eq _ _ _ n _ _ kept computes (by rw [thread]; omega)
        rw [List.range_succ, List.foldlM_append, List.foldl_append, same]
        refine ⟨?_, thread, kept⟩
        simp only [Option.bind_eq_bind, Option.bind_some, List.foldlM_cons, List.foldlM_nil, last, List.foldl_cons,
          List.foldl_nil]
        rfl
  obtain ⟨same, -, kept⟩ := loop _ (Nat.le_refl _)
  exact ⟨same, kept⟩

theorem xmit_inSlots (inSlots : InSlots count length s) : InSlots count length (s.everyPort xmit) :=
  everyPort_rule (I := InSlots count length)
    (fun _ _ _ _ kept => ⟨kept.ports.onPort fun _ _ inside => inside.txXmit, kept.buf, kept.portsIn⟩) inSlots

theorem forwardPacketInt_eq (inSlots : InSlots count length s) {packet : Packet} (less : packet.slotIndex < length) :
    s.forwardPacketInt portIndex packet = some (s.forwardPacket portIndex packet) ∧
      InSlots count length (s.forwardPacket portIndex packet) := by
  unfold forwardPacketInt forwardPacket
  split
  case isTrue => exact ⟨rfl, inSlots⟩
  case isFalse =>
      have stored : ∀ tap mem, InSlots count length ({ s with tap, mem } : Forwarder) :=
        fun _ _ => ⟨inSlots.ports, inSlots.buf, inSlots.portsIn⟩
      rcases forwardSwitch_cases s.thread (s.view packet) with ⟨toTap, done⟩ | ⟨port, sent, done, inside⟩
      · rw [done]
        cases toTap with
        | true => exact ⟨rfl, stored _ _⟩
        | false => exact ⟨rfl, stored _ _⟩
      · have natural : ¬ (port : Int) < 0 := Int.not_lt.mpr (Int.natCast_nonneg port)
        rw [done]
        dsimp only
        rw [if_neg natural, if_neg natural]
        exact onPortInt_eq (stored _ _) (ufpTxAssign_computes less) (inside inSlots.portsIn)

theorem forwardProcessInt_eq {packets : List Packet} (inSlots : InSlots count length s)
    (all : ∀ packet ∈ packets, packet.slotIndex < length) :
    s.forwardProcessInt portIndex packets = some (s.forwardProcess portIndex packets) ∧
      InSlots count length (s.forwardProcess portIndex packets) := by
  unfold forwardProcessInt forwardProcess
  induction packets generalizing s with
  | nil => exact ⟨rfl, inSlots⟩
  | cons packet packets ih =>
      rw [List.forall_mem_cons] at all
      obtain ⟨same, ports, buf, portsIn⟩ := @forwardPacketInt_eq _ _ _ portIndex inSlots packet all.1
      have released : (s.forwardPacket portIndex packet).releaseInt packet.slotIndex =
          some ((s.forwardPacket portIndex packet).release packet.slotIndex) := by
        simp only [releaseInt, ufpSlotReleaseInt_eq buf all.1]
        rfl
      simp only [List.foldlM_cons, List.foldl_cons, Option.bind_eq_bind, same, Option.bind_some, released]
      exact ih ⟨ports, buf.release _, portsIn⟩ all.2

theorem forwardProcessTunInt_eq (inSlots : InSlots count length s) (inside : portIndex < s.thread.numPorts)
    (readBuf : List UInt8) :
    s.forwardProcessTunInt portIndex readBuf = some (s.forwardProcessTun portIndex readBuf) ∧
      InSlots count length (s.forwardProcessTun portIndex readBuf) := by
  have port := inSlots.ports portIndex inside
  have code := port.slotAssignInt inSlots.buf
  have next := port.slotAssign inSlots.buf
  unfold forwardProcessTunInt forwardProcessTun
  split
  case isTrue => exact ⟨rfl, inSlots⟩
  case isFalse =>
      rcases ufpSlotAssign_spec (s.plane.ports portIndex) s.buf with none | ⟨slot, slotNext, -, taken⟩
      · rw [none] at code
        simp only [code, none, Option.elim, Option.bind_eq_bind, Option.bind_some]
        exact ⟨rfl, inSlots.ports.setPort fun _ => port, inSlots.buf, inSlots.portsIn⟩
      · have less := port.assigned inSlots.buf (congrArg Prod.fst taken)
        have natural : ¬ (slot : Int) < 0 := by omega
        rw [taken] at code next
        simp only [code, taken, Option.elim, Option.bind_eq_bind, Option.bind_some, if_neg natural, Int.toNat_natCast]
        exact onPortInt_eq ⟨inSlots.ports.setPort fun _ => next, inSlots.buf.mark slot, inSlots.portsIn⟩
          (ufpTxAssign_computes less) inside

/-- Each event does what the handlers of `Ufp.Daemon.Events` do, and every port still
keeps to the array. -/
theorem handleInt_eq (inSlots : InSlots count length s) {event : Event} (ok : event.Ok s.thread.numPorts) :
    s.handleInt event = some (s.handle event) ∧ InSlots count length (s.handle event).2 := by
  cases event with
  | device rx tx mem =>
      refine ⟨rfl, fun idx inside => ?_, inSlots.buf, inSlots.portsIn⟩
      obtain ⟨region, next, ⟨⟨a, b, c, d⟩, e, f, g, h⟩, slots⟩ := inSlots.ports idx inside
      exact ⟨region, next, ⟨⟨a, b, c, d⟩, e, f, g, h⟩, slots⟩
  | irqRx portIndex read =>
      obtain ⟨port, packets⟩ := (inSlots.ports portIndex ok).rxClean s.buf
      have cleaned : InSlots count length (s.cleaned portIndex) :=
        ⟨inSlots.ports.setPort fun _ => port, inSlots.buf, inSlots.portsIn⟩
      obtain ⟨same, kept⟩ := @forwardProcessInt_eq _ _ _ portIndex (s.received portIndex) cleaned packets
      refine ⟨?_, xmit_inSlots kept⟩
      show Option.bind ((s.cleaned portIndex).forwardProcessInt portIndex (s.received portIndex)) _ = _
      rw [same]
      rfl
  | irqTx portIndex read =>
      obtain ⟨cleaned, kept⟩ := onPortInt_eq inSlots (ufpTxClean_computes count length) ok
      obtain ⟨same, kept⟩ := everyPortInt_eq kept (ufpRxAssign_computes count length)
      simp only [handleInt, cleaned, same, Option.bind_eq_bind, Option.bind_some]
      exact ⟨rfl, kept⟩
  | tun portIndex read =>
      cases read with
      | none => exact ⟨rfl, inSlots⟩
      | some readBuf =>
          obtain ⟨same, kept⟩ := forwardProcessTunInt_eq inSlots ok readBuf
          simp only [handleInt, same, Option.bind_eq_bind, Option.bind_some]
          exact ⟨rfl, xmit_inSlots kept⟩
  | netlink read =>
      cases read with
      | none => exact ⟨rfl, inSlots⟩
      | some readBuf =>
          have numPorts := netlinkProcess_numPorts s.thread readBuf readBuf.length
          exact ⟨rfl, fun idx inside => inSlots.ports idx (numPorts ▸ inside), inSlots.buf,
            netlinkProcess_portsIn inSlots.portsIn readBuf _⟩
  | signal read => exact ⟨rfl, inSlots⟩

theorem handle_numPorts (s : Forwarder) (event : Event) :
    (s.handle event).2.thread.numPorts = s.thread.numPorts := by
  rcases s.handle_thread event with same | ⟨readBuf, heard⟩
  · rw [same]
  · rw [heard]
    exact netlinkProcess_numPorts s.thread readBuf _

end Forwarder

/-! ## Runs -/

theorem Boot.inSlots (boot : Boot) : InSlots boot.buf.count boot.buf.numSlots boot.fresh := by
  refine ⟨fun idx inside => ?_, ⟨rfl, boot.whole.int, rfl⟩, boot.portsIn⟩
  obtain ⟨offset, last⟩ := region_bounds boot.whole (boot.port_lt inside)
  obtain ⟨ops, iface, reset, same⟩ := boot.port inside
  have rings : (boot.fresh.plane.ports idx).RingsOk := by
    rw [same]
    exact ⟨reset.rx.ok, reset.tx.ok⟩
  have empty : (boot.fresh.plane.ports idx).slots = [] := by
    rw [Port.slots, rings.rx.queue_eq_nil.mpr, rings.tx.queue_eq_nil.mpr]
    · rfl
    · rw [same]
      exact reset.tx.clean.trans reset.tx.use.symm
    · rw [same]
      exact reset.rx.clean.trans reset.rx.use.symm
  refine ⟨?_, fun positive => ?_, rings, fun slot member => ?_⟩
  · rw [show (boot.fresh.plane.ports idx).rxSlotOffset = _ from offset]
    exact last
  · rw [same]
    exact positive
  · rw [empty] at member
    cases member

theorem threadWaitInt_eq {count length : Nat} {events : List Event} {s : Forwarder} (inSlots : InSlots count length s)
    (ok : ∀ event ∈ events, event.Ok s.thread.numPorts) :
    threadWaitInt events s = some (threadWait events s) ∧ InSlots count length (threadWait events s).2 := by
  induction events generalizing s with
  | nil => exact ⟨rfl, inSlots⟩
  | cons event events ih =>
      obtain ⟨first, later⟩ := List.forall_mem_cons.mp ok
      obtain ⟨same, kept⟩ := Forwarder.handleInt_eq inSlots first
      have numPorts := s.handle_numPorts event
      simp only [threadWaitInt, threadWait, same, Option.bind_eq_bind, Option.bind_some]
      rcases handled : s.handle event with ⟨_ | ret, s'⟩
      · rw [handled] at kept numPorts
        exact ih kept (numPorts ▸ later)
      · rw [handled] at kept
        exact ⟨rfl, kept⟩

/-- **A thread keeps to the array of slots.** In every run of a thread, on interrupts and
TAP frames of its ports, no access to `buf->slots` is outside the array and no `int` of
`ufp_slot_assign` overflows: the code does what the model in natural numbers does. In the
state it comes to, the region of each port and every slot in its rings lie in the array. -/
theorem slots_stay_in_array (boot : Boot) (events : List Event)
    (ok : ∀ event ∈ events, event.Ok boot.fresh.thread.numPorts) :
    boot.runInt events = some (threadWait events boot.start) ∧
      (threadWait events boot.start).2.AllPorts fun port =>
        port.rxSlotOffset + boot.buf.count ≤ boot.buf.numSlots ∧ ∀ slot ∈ port.slots, slot < boot.buf.numSlots := by
  obtain ⟨start, inSlots⟩ := Forwarder.everyPortInt_eq boot.inSlots (ufpRxAssign_computes _ _)
  obtain ⟨same, kept⟩ := threadWaitInt_eq inSlots (Forwarder.everyPort_thread ▸ ok)
  constructor
  · rw [Boot.runInt, start]
    exact same
  · exact fun idx inside => ⟨(kept.ports idx inside).region, (kept.ports idx inside).slots⟩

/-- A packet arrives and is kept; a frame from the TAP device is sent. -/
theorem slots_stay_in_array_sample :
    let events := [sampleArrival fun _ => 0, .irqRx 0 true, .tun 0 (some [1, 2, 3]), .irqTx 0 true]
    sampleBoot.runInt events = some (threadWait events sampleBoot.start) := by
  intro events
  refine (slots_stay_in_array sampleBoot events ?_).1
  simp only [events, List.forall_mem_cons]
  exact ⟨trivial, by decide +kernel, by decide +kernel, by decide +kernel, List.forall_mem_nil _⟩

end Ufp.Daemon
