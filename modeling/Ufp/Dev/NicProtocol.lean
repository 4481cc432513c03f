/-
# Ufp.Dev.NicProtocol — the library and the device sharing the rings

The system of a plane of ports, the packet buffer, a client of the library and
the devices behind the ports. A client step calls one library function on one
port; the client may hand on only slots it holds. A device step writes one
descriptor back, the next in ring order, and only while the tail register says
that it is published.

`Nic.rxMarked` and `Nic.txMarked` are history: which descriptors the device has
written back since they were last filled. They are compared with what the driver
reads in the descriptors themselves (`PortOk.rxMarked`), whose contents before
the first fill, and from earlier laps of the ring, are arbitrary.

* `slots_accounted`: in every reachable state the slots in flight are the
  disjoint union of the ring windows and the client's slots, and a slot leaves a
  window only when its descriptor was written back after it was filled.
-/
import Ufp.Dev.I40e
import Ufp.Lib.IoQueue
import Mathlib.Logic.Relation

namespace Ufp.Dev.NicProtocol

open Ufp.Lib.Io Ufp.Dev.I40e

set_option autoImplicit false

/-! ## The system -/

/-- The device's side of one port. -/
structure Nic where
  rxHead : Nat
  txHead : Nat
  rxMarked : Nat → Bool
  txMarked : Nat → Bool

/-- Planes, buffer, the slots the client holds, and the devices. -/
structure System where
  plane : Plane
  buf : Buf
  held : List Nat
  nics : Nat → Nic

inductive Action where
  | rxAssign (idx : Nat)
  | rxClean (idx : Nat)
  | txAssign (idx : Nat) (packet : Packet)
  | txXmit (idx : Nat)
  | txClean (idx : Nat)
  | slotAssign (idx : Nat)
  | slotRelease (slot : Nat)
  | nicRx (idx : Nat) (writeBack : Desc)
  | nicTx (idx : Nat) (writeBack : Desc)

/-- Forget the marks of the descriptors that entered a window: these are the
ones just filled. -/
def unmark (marked : Nat → Bool) (before after : List Nat) (i : Nat) : Bool :=
  if i ∈ after ∧ i ∉ before then false else marked i

/-- A write-back by the device. -/
def writeBackAt (ring : Ring) (i : Nat) (desc : Desc) : Ring :=
  { ring with desc := Function.update ring.desc i desc }

namespace System

def setPort (s : System) (idx : Nat) (port : Port) (nic : Nic) (buf : Buf) (held : List Nat) :
    System :=
  { plane := s.plane.setPort idx port, buf, held, nics := Function.update s.nics idx nic }

def step (s : System) : Action → System
  | .rxAssign idx =>
      let old := s.plane.ports idx
      let (port, buf) := ufpRxAssign old s.buf
      let rxMarked := unmark (s.nics idx).rxMarked (old.rxRing.window old.numRxDesc)
        (port.rxRing.window port.numRxDesc)
      s.setPort idx port { s.nics idx with rxMarked } buf s.held
  | .rxClean idx =>
      let (packets, port) := ufpRxClean (s.plane.ports idx) s.buf
      s.setPort idx port (s.nics idx) s.buf (packets.map Packet.slotIndex ++ s.held)
  | .txAssign idx packet =>
      let old := s.plane.ports idx
      let (port, buf) := ufpTxAssign old s.buf packet
      let txMarked := unmark (s.nics idx).txMarked (old.txRing.window old.numTxDesc)
        (port.txRing.window port.numTxDesc)
      s.setPort idx port { s.nics idx with txMarked } buf (s.held.erase packet.slotIndex)
  | .txXmit idx => s.setPort idx (ufpTxXmit (s.plane.ports idx)) (s.nics idx) s.buf s.held
  | .txClean idx =>
      let (port, buf) := ufpTxClean (s.plane.ports idx) s.buf
      s.setPort idx port (s.nics idx) buf s.held
  | .slotAssign idx =>
      let (slot, port, buf) := ufpSlotAssign (s.plane.ports idx) s.buf
      s.setPort idx port (s.nics idx) buf (slot.toList ++ s.held)
  | .slotRelease slot =>
      { s with buf := ufpSlotRelease s.buf slot, held := s.held.erase slot }
  | .nicRx idx writeBack =>
      let old := s.plane.ports idx
      let nic := s.nics idx
      s.setPort idx { old with rxRing := writeBackAt old.rxRing nic.rxHead writeBack }
        { nic with
          rxMarked := Function.update nic.rxMarked nic.rxHead true
          rxHead := bump old.numRxDesc nic.rxHead } s.buf s.held
  | .nicTx idx writeBack =>
      let old := s.plane.ports idx
      let nic := s.nics idx
      s.setPort idx { old with txRing := writeBackAt old.txRing nic.txHead writeBack }
        { nic with
          txMarked := Function.update nic.txMarked nic.txHead true
          txHead := bump old.numTxDesc nic.txHead } s.buf s.held

/-- The client hands on only slots it holds; the device marks only published
descriptors, with `DD` or `DESC_DONE` set. -/
def Permits (s : System) : Action → Prop
  | .rxAssign idx | .rxClean idx | .txXmit idx | .txClean idx | .slotAssign idx =>
      idx < s.plane.numPorts
  | .txAssign idx packet => idx < s.plane.numPorts ∧ packet.slotIndex ∈ s.held
  | .slotRelease slot => slot ∈ s.held
  | .nicRx idx writeBack =>
      idx < s.plane.numPorts ∧ (s.nics idx).rxHead ≠ (s.plane.ports idx).rxRing.tail ∧
        writeBack.qword1 % 2 = 1
  | .nicTx idx writeBack =>
      idx < s.plane.numPorts ∧ (s.nics idx).txHead ≠ (s.plane.ports idx).txRing.tail ∧
        writeBack.qword1 % 16 = 15

def Next (s s' : System) : Prop := ∃ action, s.Permits action ∧ s' = s.step action

end System

/-- A ring as `ufp_plane_alloc` sets it up, the device having seen nothing. -/
structure FreshRing (ring : Ring) (numDesc head : Nat) : Prop where
  size : 2 ≤ numDesc ∧ numDesc ≤ 65535
  use : ring.nextToUse = 0
  clean : ring.nextToClean = 0
  tail : ring.tail = 0
  head : head = 0

/-- The start: empty rings of any size, no slot in flight, stale descriptors. -/
structure System.Fresh (s : System) : Prop where
  ops : ∀ idx < s.plane.numPorts, (s.plane.ports idx).ops = i40eOps
  rx : ∀ idx < s.plane.numPorts,
    FreshRing (s.plane.ports idx).rxRing (s.plane.ports idx).numRxDesc (s.nics idx).rxHead
  tx : ∀ idx < s.plane.numPorts,
    FreshRing (s.plane.ports idx).txRing (s.plane.ports idx).numTxDesc (s.nics idx).txHead
  slots : ∀ slot, s.buf.inflight slot = false
  held : s.held = []

/-! ## The invariant of one port -/

/-- The rings are in bounds, and what the driver reads in the window is what the
device marked since the last fill. -/
structure PortOk (port : Port) (nic : Nic) : Prop where
  ops : port.ops = i40eOps
  rx : port.rxRing.Ok port.numRxDesc
  tx : port.txRing.Ok port.numTxDesc
  rxMarked : ∀ i ∈ port.rxRing.window port.numRxDesc, rxDone (port.rxRing.desc i) = nic.rxMarked i
  txMarked : ∀ i ∈ port.txRing.window port.numTxDesc, txDone (port.txRing.desc i) = nic.txMarked i

/-- Slots leave the window of `ring` only under a mark. -/
def Kept (ring ring' : Ring) (numDesc : Nat) (marked : Nat → Bool) : Prop :=
  ∀ slot ∈ ring.queue numDesc, slot ∉ ring'.queue numDesc →
    ∃ i ∈ ring.window numDesc, ring.slotIndex i = slot ∧ marked i = true

variable {ring ring' : Ring} {n : Nat} {s : System} {marked : Nat → Bool}

theorem Kept.of_append (marked : Nat → Bool) {slots : List Nat} (queue : ring'.queue n = ring.queue n ++ slots) :
    Kept ring ring' n marked := by
  intro slot member left
  rw [queue] at left
  exact absurd (List.mem_append_left _ member) left

theorem Kept.of_same (marked : Nat → Bool) (queue : ring'.queue n = ring.queue n) : Kept ring ring' n marked :=
  .of_append marked (queue.trans (List.append_nil _).symm)

/-- A cleaned ring: the descriptors passed over carry a mark. -/
theorem Kept.of_taken {taken : List Nat} (slots : ring'.slotIndex = ring.slotIndex)
    (window : ring.window n = taken ++ ring'.window n) (done : ∀ i ∈ taken, marked i = true) :
    Kept ring ring' n marked := by
  intro slot member left
  obtain ⟨i, inside, rfl⟩ := List.mem_map.mp member
  refine ⟨i, inside, rfl, ?_⟩
  have place : i ∈ taken ∨ i ∈ ring'.window n := List.mem_append.mp (window ▸ inside)
  rcases place with early | late
  · exact done i early
  · have kept : ring'.slotIndex i ∈ ring'.queue n := List.mem_map.mpr ⟨i, late, rfl⟩
    rw [slots] at kept
    exact absurd kept left

/-- What one step does to one port: the invariant is kept, and slots leave the
windows only under a mark. -/
structure PortStep (port : Port) (nic : Nic) (port' : Port) (nic' : Nic) : Prop where
  ok : PortOk port' nic'
  rx : Kept port.rxRing port'.rxRing port.numRxDesc nic.rxMarked
  tx : Kept port.txRing port'.txRing port.numTxDesc nic.txMarked

theorem unmark_entered {before after : List Nat} {i : Nat} (inside : i ∈ after) (entered : i ∉ before) :
    unmark marked before after i = false :=
  if_pos ⟨inside, entered⟩

theorem unmark_stayed {before after : List Nat} {i : Nat} (stayed : i ∈ before) :
    unmark marked before after i = marked i :=
  if_neg fun both => both.2 stayed

section Steps

variable {port : Port} {nic : Nic} (ok : PortOk port nic) (buf : Buf)

include ok

theorem PortOk.rxAssign :
    PortStep port nic (ufpRxAssign port buf).1
      { nic with
        rxMarked := unmark nic.rxMarked (port.rxRing.window port.numRxDesc)
          ((ufpRxAssign port buf).1.rxRing.window (ufpRxAssign port buf).1.numRxDesc) } := by
  obtain ⟨⟨ring, slotNext, failed, frame⟩, rx, ⟨slots, queue⟩, -, kept, filled⟩ :=
    (ufpRxAssign_spec port buf ok.rx).1
  rw [frame] at rx queue kept filled ⊢
  refine ⟨⟨ok.ops, rx, ok.tx, ?_, ok.txMarked⟩, .of_append _ queue, .of_same _ rfl⟩
  intro i inside
  by_cases stayed : i ∈ port.rxRing.window port.numRxDesc
  · dsimp only
    rw [unmark_stayed stayed, kept i stayed]
    exact ok.rxMarked i stayed
  · obtain ⟨desc, addr, same⟩ := filled i inside stayed
    rw [ok.ops] at same
    dsimp only at same ⊢
    rw [unmark_entered inside stayed, same]
    exact rxDone_fill desc addr

theorem PortOk.rxClean : PortStep port nic (ufpRxClean port buf).2 nic := by
  obtain ⟨⟨clean, total, frame⟩, rx, -, taken, window, done⟩ := ufpRxClean_spec port buf ok.rx
  rw [frame] at rx window ⊢
  have within : ∀ i ∈ taken, i ∈ port.rxRing.window port.numRxDesc := by
    intro i early
    rw [window]
    exact List.mem_append_left _ early
  refine ⟨⟨ok.ops, rx, ok.tx, ?_, ok.txMarked⟩, .of_taken rfl window ?_, .of_same _ rfl⟩
  · intro i inside
    exact ok.rxMarked i (window ▸ List.mem_append_right _ inside)
  · intro i early
    rw [← ok.rxMarked i (within i early)]
    have fetched := done i early
    rw [ok.ops] at fetched
    exact fetched

theorem PortOk.txAssign (packet : Packet) :
    PortStep port nic (ufpTxAssign port buf packet).1
      { nic with
        txMarked := unmark nic.txMarked (port.txRing.window port.numTxDesc)
          ((ufpTxAssign port buf packet).1.txRing.window
            (ufpTxAssign port buf packet).1.numTxDesc) } := by
  obtain ⟨⟨ring, suspended, failed, frame⟩, tx, ⟨slots, queue⟩, -, kept, filled⟩ :=
    ufpTxAssign_assigned port buf packet ok.tx
  rw [frame] at tx queue kept filled ⊢
  refine ⟨⟨ok.ops, ok.rx, tx, ok.rxMarked, ?_⟩, .of_same _ rfl, .of_append _ queue⟩
  intro i inside
  by_cases stayed : i ∈ port.txRing.window port.numTxDesc
  · dsimp only
    rw [unmark_stayed stayed, kept i stayed]
    exact ok.txMarked i stayed
  · obtain ⟨desc, addr, packet, same⟩ := filled i inside stayed
    rw [ok.ops] at same
    dsimp only at same ⊢
    rw [unmark_entered inside stayed, same]
    exact txDone_fill desc addr packet

theorem PortOk.txClean : PortStep port nic (ufpTxClean port buf).1 nic := by
  obtain ⟨⟨clean, total, frame⟩, tx, taken, window, done⟩ := (ufpTxClean_spec port buf ok.tx).1
  rw [frame] at tx window ⊢
  have within : ∀ i ∈ taken, i ∈ port.txRing.window port.numTxDesc := by
    intro i early
    rw [window]
    exact List.mem_append_left _ early
  refine ⟨⟨ok.ops, ok.rx, tx, ok.rxMarked, ?_⟩, .of_same _ rfl, .of_taken rfl window ?_⟩
  · intro i inside
    exact ok.txMarked i (window ▸ List.mem_append_right _ inside)
  · intro i early
    rw [← ok.txMarked i (within i early)]
    have fetched := done i early
    rw [ok.ops] at fetched
    exact fetched

theorem PortOk.txXmit : PortStep port nic (ufpTxXmit port) nic := by
  obtain ⟨tail, suspended, frame⟩ := ufpTxXmit_frame port
  rw [frame]
  have tx := ok.tx
  exact ⟨⟨ok.ops, ok.rx, ⟨tx.positive, tx.narrow, tx.use, tx.clean⟩, ok.rxMarked, ok.txMarked⟩,
    .of_same _ rfl, .of_same _ rfl⟩

theorem PortOk.slotAssign (slotNext : Nat) :
    PortStep port nic { port with rxSlotNext := slotNext } nic :=
  ⟨⟨ok.ops, ok.rx, ok.tx, ok.rxMarked, ok.txMarked⟩, .of_same _ rfl, .of_same _ rfl⟩

theorem PortOk.nicRx {desc : Desc} (dd : desc.qword1 % 2 = 1) (i head : Nat) :
    PortStep port nic { port with rxRing := writeBackAt port.rxRing i desc }
      { nic with rxMarked := Function.update nic.rxMarked i true, rxHead := head } := by
  have rx := ok.rx
  refine ⟨⟨ok.ops, ⟨rx.positive, rx.narrow, rx.use, rx.clean⟩, ok.tx, ?_, ok.txMarked⟩,
    .of_same _ rfl, .of_same _ rfl⟩
  intro j inside
  by_cases same : j = i
  · subst same
    simpa [writeBackAt] using (rxDone_iff desc).mpr dd
  · simpa [writeBackAt, same] using ok.rxMarked j inside

theorem PortOk.nicTx {desc : Desc} (dd : desc.qword1 % 16 = 15) (i head : Nat) :
    PortStep port nic { port with txRing := writeBackAt port.txRing i desc }
      { nic with txMarked := Function.update nic.txMarked i true, txHead := head } := by
  have tx := ok.tx
  refine ⟨⟨ok.ops, ok.rx, ⟨tx.positive, tx.narrow, tx.use, tx.clean⟩, ok.rxMarked, ?_⟩,
    .of_same _ rfl, .of_same _ rfl⟩
  intro j inside
  by_cases same : j = i
  · subst same
    simpa [writeBackAt] using (txDone_iff desc).mpr dd
  · simpa [writeBackAt, same] using ok.txMarked j inside

theorem PortOk.idle : PortStep port nic port nic := ⟨ok, .of_same _ rfl, .of_same _ rfl⟩

end Steps

/-! ## The system invariant -/

structure Inv (s : System) : Prop where
  ports : ∀ idx < s.plane.numPorts, PortOk (s.plane.ports idx) (s.nics idx)
  ledger : Ledger s.buf (s.held ++ s.plane.slots)

/-- What one step of the system does: every port makes a `PortStep`. -/
structure Stepped (s s' : System) : Prop where
  numPorts : s'.plane.numPorts = s.plane.numPorts
  ports : ∀ idx < s.plane.numPorts,
    PortStep (s.plane.ports idx) (s.nics idx) (s'.plane.ports idx) (s'.nics idx)
  ledger : Ledger s'.buf (s'.held ++ s'.plane.slots)

theorem Stepped.inv {s' : System} (stepped : Stepped s s') : Inv s' where
  ports := fun idx inside => (stepped.ports idx (stepped.numPorts ▸ inside)).ok
  ledger := stepped.ledger

theorem Inv.setPort {s : System} (inv : Inv s) {idx : Nat} (inside : idx < s.plane.numPorts)
    {port : Port} {nic : Nic} {buf : Buf} {held : List Nat}
    (moved : PortStep (s.plane.ports idx) (s.nics idx) port nic)
    (ledger : Ledger buf (port.slots ++ (held ++ s.plane.others idx))) :
    Stepped s (s.setPort idx port nic buf held) where
  numPorts := rfl
  ports := by
    intro q bound
    by_cases same : q = idx
    · subst same
      simpa [System.setPort] using moved
    · simpa [System.setPort, s.plane.setPort_of_ne port same, same] using (inv.ports q bound).idle
  ledger := ledger.setPort inside

/-- Every permitted step keeps the slots accounted for. -/
theorem Inv.next (inv : Inv s) {action : Action} (permitted : s.Permits action) : Stepped s (s.step action) := by
  have account {idx : Nat} (inside : idx < s.plane.numPorts) := inv.ledger.port inside
  cases action with
  | rxAssign idx =>
      have ok := inv.ports idx permitted
      exact inv.setPort permitted (ok.rxAssign s.buf)
        (ufpRxAssign_slots _ _ ok.rx (account permitted))
  | rxClean idx =>
      have ok := inv.ports idx permitted
      refine inv.setPort permitted (ok.rxClean s.buf) ?_
      refine (ufpRxClean_slots _ _ ok.rx (account permitted)).perm ?_
      rw [List.append_assoc]
      exact List.perm_append_comm_assoc _ _ _
  | txAssign idx packet =>
      obtain ⟨inside, held⟩ := permitted
      have ok := inv.ports idx inside
      refine inv.setPort inside (ok.txAssign s.buf packet) ?_
      refine ufpTxAssign_slots _ _ packet ok.tx ((account inside).perm ?_)
      refine List.Perm.trans ?_ List.perm_middle
      exact (List.Perm.append_right _ (List.perm_cons_erase held)).append_left _
  | txXmit idx =>
      refine inv.setPort permitted (inv.ports idx permitted).txXmit ?_
      rw [ufpTxXmit_slots]
      exact account permitted
  | txClean idx =>
      have ok := inv.ports idx permitted
      exact inv.setPort permitted (ok.txClean s.buf) (ufpTxClean_slots _ _ ok.tx (account permitted))
  | slotAssign idx =>
      have ok := inv.ports idx permitted
      simp only [System.step]
      rcases ufpSlotAssign_spec (s.plane.ports idx) s.buf with none | ⟨slot, slotNext, free, some⟩
      · rw [none]
        exact inv.setPort permitted ok.idle (account permitted)
      · rw [some]
        refine inv.setPort permitted (ok.slotAssign slotNext) ?_
        exact ((account permitted).take free).perm List.perm_middle.symm
  | slotRelease slot =>
      refine ⟨rfl, fun idx inside => (inv.ports idx inside).idle, ?_⟩
      exact (inv.ledger.perm (List.Perm.append_right _ (List.perm_cons_erase permitted))).release
  | nicRx idx writeBack =>
      obtain ⟨inside, -, dd⟩ := permitted
      exact inv.setPort inside ((inv.ports idx inside).nicRx dd _ _) (account inside)
  | nicTx idx writeBack =>
      obtain ⟨inside, -, dd⟩ := permitted
      exact inv.setPort inside ((inv.ports idx inside).nicTx dd _ _) (account inside)

theorem FreshRing.ok {head : Nat} (fresh : FreshRing ring n head) : ring.Ok n := by
  obtain ⟨⟨low, high⟩, use, clean, -, -⟩ := fresh
  exact ⟨by omega, by omega, by omega, by omega⟩

theorem FreshRing.window_eq {head : Nat} (fresh : FreshRing ring n head) : ring.window n = [] := by
  simp [Ring.window, fresh.use, fresh.clean, Theory.Ring.window_self]

theorem inv_fresh (fresh : s.Fresh) : Inv s where
  ports := by
    intro idx inside
    have rx := fresh.rx idx inside
    have tx := fresh.tx idx inside
    refine ⟨fresh.ops idx inside, rx.ok, tx.ok, fun i member => ?_, fun i member => ?_⟩
    · rw [rx.window_eq] at member
      cases member
    · rw [tx.window_eq] at member
      cases member
  ledger := by
    have empty : s.plane.slots = [] := by
      refine Theory.Slots.gather_eq_nil fun q inside => ?_
      have rx : (s.plane.ports q).rxRing.queue _ = [] :=
        congrArg (List.map _) (fresh.rx q inside).window_eq
      have tx : (s.plane.ports q).txRing.queue _ = [] :=
        congrArg (List.map _) (fresh.tx q inside).window_eq
      rw [Port.slots, rx, tx]
      rfl
    rw [fresh.held, empty]
    exact ⟨List.nodup_nil, fun slot => by simp [fresh.slots slot]⟩

theorem Inv.of_run {s' : System} (fresh : s.Fresh) (run : Relation.ReflTransGen System.Next s s') : Inv s' := by
  induction run with
  | refl => exact inv_fresh fresh
  | tail _ next ih =>
      obtain ⟨action, permitted, rfl⟩ := next
      exact (ih.next permitted).inv

/-- **Every slot in flight has one place.** In every reachable state the slots
in flight are the disjoint union of the ring windows and the slots the client
holds, and in every step from there a slot leaves a window only if the device
wrote its descriptor back since the descriptor was filled. -/
theorem slots_accounted {s₀ s : System} (fresh : s₀.Fresh)
    (run : Relation.ReflTransGen System.Next s₀ s) :
    ((s.held ++ s.plane.slots).Nodup ∧
      ∀ slot, s.buf.inflight slot = true ↔ slot ∈ s.held ∨ ∃ idx < s.plane.numPorts,
        slot ∈ (s.plane.ports idx).rxRing.queue (s.plane.ports idx).numRxDesc ∨
          slot ∈ (s.plane.ports idx).txRing.queue (s.plane.ports idx).numTxDesc) ∧
      ∀ s', s.Next s' → ∀ idx < s.plane.numPorts,
        Kept (s.plane.ports idx).rxRing (s'.plane.ports idx).rxRing (s.plane.ports idx).numRxDesc
            (s.nics idx).rxMarked ∧
          Kept (s.plane.ports idx).txRing (s'.plane.ports idx).txRing (s.plane.ports idx).numTxDesc
            (s.nics idx).txMarked := by
  have inv := Inv.of_run fresh run
  refine ⟨⟨inv.ledger.nodup, fun slot => ?_⟩, ?_⟩
  · rw [inv.ledger.flagged slot]
    simp [Plane.slots, Theory.Slots.mem_gather, Port.slots]
  · rintro s' ⟨action, permitted, rfl⟩ idx inside
    have moved := (inv.next permitted).ports idx inside
    exact ⟨moved.rx, moved.tx⟩

/-- An empty ring whose descriptors all look done, as left by an earlier lap. -/
def sampleRing : Ring :=
  { desc := fun _ => ⟨0, 15⟩, tail := 0, nextToUse := 0, nextToClean := 0, slotIndex := fun _ => 0 }

/-- One port with rings of four descriptors. -/
def samplePort : Port where
  ops := i40eOps
  rxRing := sampleRing
  txRing := sampleRing
  numTxDesc := 4
  numRxDesc := 4
  rxBudget := 8
  txBudget := 8
  macAddr := fun _ => 0
  tapIndex := 7
  rxSlotNext := 0
  rxSlotOffset := 0
  txSuspended := 0
  countRxAllocFailed := 0
  countRxCleanTotal := 0
  countTxXmitFailed := 0
  countTxCleanTotal := 0

def sampleSystem : System where
  plane := ⟨fun _ => samplePort, 1⟩
  buf := { addrVirt := 0, addrDma := 0, slotSize := 2048, size := 2048 * 8, count := 8, numSlots := 8
           slots := fun _ => 0 }
  held := []
  nics := fun _ => ⟨0, 0, fun _ => false, fun _ => false⟩

/-- Three slots published, one packet received and passed to the client. -/
def sampleReceived : System :=
  ((sampleSystem.step (.rxAssign 0)).step (.nicRx 0 ⟨0, 3⟩)).step (.rxClean 0)

theorem slots_accounted_sample :
    sampleReceived.held = [0] ∧ sampleReceived.plane.slots = [1, 2] ∧
      (sampleReceived.held ++ sampleReceived.plane.slots).Nodup ∧
      Kept (sampleReceived.plane.ports 0).rxRing
        ((sampleReceived.step (.rxClean 0)).plane.ports 0).rxRing 4
        (sampleReceived.nics 0).rxMarked := by
  have ring : FreshRing sampleRing 4 0 := ⟨by decide, rfl, rfl, rfl, rfl⟩
  have fresh : sampleSystem.Fresh :=
    ⟨fun _ _ => rfl, fun _ _ => ring, fun _ _ => ring,
      fun _ => by simp [sampleSystem, Buf.inflight], rfl⟩
  have run : Relation.ReflTransGen System.Next sampleSystem sampleReceived := by
    refine .tail (.tail (.single ⟨.rxAssign 0, ?_, rfl⟩) ⟨.nicRx 0 ⟨0, 3⟩, ?_, rfl⟩)
      ⟨.rxClean 0, ?_, rfl⟩
    · exact Nat.zero_lt_one
    · exact ⟨Nat.zero_lt_one, by decide +kernel, rfl⟩
    · exact Nat.zero_lt_one
  obtain ⟨⟨nodup, -⟩, leave⟩ := slots_accounted fresh run
  exact ⟨by decide +kernel, by decide +kernel, nodup,
    (leave _ ⟨.rxClean 0, Nat.zero_lt_one, rfl⟩ 0 Nat.zero_lt_one).1⟩

end Ufp.Dev.NicProtocol
