/-
# Ufp.Lib.Fifo — descriptor rings as bounded queues

A run of calls on one port, with the slots that went through its rings written down
beside it: `posted` and `received` for the RX ring, `sent` and `cleaned` for the TX
ring, each in the order of the calls. What has entered a ring is what has left it
followed by what its window holds (`Account`), so slots leave in the order they
entered, none is lost and none appears twice. The counters of the port count the same
lists.

Between two calls the device may rewrite any descriptor, and every call sees its own
state of the buffer: which slots are free and which packets are done is left open.
-/
import Ufp.Lib.IoQueue

namespace Ufp.Lib.Io

open Ufp.Theory

set_option autoImplicit false

/-! ## The slots a call moves -/

/-- The slots that `ufp_slot_assign` gives the loop of `ufp_rx_assign`, in turn. -/
def rxAssignSlots : Nat → Port → Buf → List Nat
  | 0, _, _ => []
  | todo + 1, port, buf =>
      match ufpSlotAssign port buf with
      | (none, _, _) => []
      | (some slot, port, buf) => slot :: rxAssignSlots todo port buf

/-- The slots that the loop of `ufp_tx_clean` takes from the ring and releases, in turn. -/
def txCleanSlots : Nat → Port → List Nat
  | 0, _ => []
  | budget + 1, port =>
      if port.txRing.nextToClean = port.txRing.nextToUse then []
      else if !port.ops.fetchTxDesc (port.txRing.desc port.txRing.nextToClean) then []
      else
        port.txRing.slotIndex port.txRing.nextToClean ::
          txCleanSlots budget { port with txRing := port.txRing.pop port.numTxDesc }

/-- What went through the rings of a port. -/
structure History where
  posted : List Nat
  received : List Nat
  txAssigns : Nat
  sent : List Nat
  cleaned : List Nat

/-- A port and its history. -/
structure Traffic where
  port : Port
  history : History

inductive PortCall where
  | rxAssign (buf : Buf)
  | rxClean (buf : Buf)
  | slotAssign (buf : Buf)
  | txAssign (buf : Buf) (packet : Packet)
  | txXmit
  | txClean (buf : Buf)
  /-- The device writes descriptors. -/
  | device (rxDesc txDesc : Nat → Desc)

/-- A packet is sent if `ufp_tx_assign` does not count it as failed. -/
def sentSlots (port : Port) (buf : Buf) (packet : Packet) : List Nat :=
  if (ufpTxAssign port buf packet).1.countTxXmitFailed = port.countTxXmitFailed then [packet.slotIndex]
  else []

def PortCall.run (t : Traffic) : PortCall → Traffic
  | .rxAssign buf =>
      { port := (ufpRxAssign t.port buf).1
        history := { t.history with
          posted := t.history.posted ++
            rxAssignSlots (ufpDescUnused t.port.rxRing t.port.numRxDesc) t.port buf } }
  | .rxClean buf =>
      { port := (ufpRxClean t.port buf).2
        history := { t.history with
          received := t.history.received ++ (ufpRxClean t.port buf).1.map Packet.slotIndex } }
  | .slotAssign buf => { t with port := (ufpSlotAssign t.port buf).2.1 }
  | .txAssign buf packet =>
      { port := (ufpTxAssign t.port buf packet).1
        history := { t.history with
          txAssigns := t.history.txAssigns + 1
          sent := t.history.sent ++ sentSlots t.port buf packet } }
  | .txXmit => { t with port := ufpTxXmit t.port }
  | .txClean buf =>
      { port := (ufpTxClean t.port buf).1
        history := { t.history with
          cleaned := t.history.cleaned ++ txCleanSlots t.port.txBudget t.port } }
  | .device rxDesc txDesc =>
      { t with port := { t.port with
          rxRing := { t.port.rxRing with desc := rxDesc }
          txRing := { t.port.txRing with desc := txDesc } } }

/-- A run of calls. -/
def Traffic.run (t : Traffic) (calls : List PortCall) : Traffic := calls.foldl PortCall.run t

/-- A port with empty rings and counters at 0, before any call. -/
structure Traffic.Start (t : Traffic) : Prop where
  rx : t.port.rxRing.Ok t.port.numRxDesc
  tx : t.port.txRing.Ok t.port.numTxDesc
  rxEmpty : t.port.rxRing.nextToClean = t.port.rxRing.nextToUse
  txEmpty : t.port.txRing.nextToClean = t.port.txRing.nextToUse
  counters : t.port.countRxCleanTotal = 0 ∧ t.port.countTxXmitFailed = 0 ∧ t.port.countTxCleanTotal = 0
  history : t.history = ⟨[], [], 0, [], []⟩

/-! ## One ring -/

/-- A ring of `n` descriptors is a queue of at most `n - 1` slots: `entered` is what
was put in, and `left` what was taken out. -/
structure Ring.Fifo (ring : Ring) (n : Nat) (entered left : List Nat) : Prop where
  ok : ring.Ok n
  order : entered = left ++ ring.queue n

namespace Ring.Fifo

variable {ring ring' : Ring} {n : Nat} {entered left slots : List Nat}

theorem empty (ok : ring.Ok n) (same : ring.nextToClean = ring.nextToUse) : ring.Fifo n [] [] := by
  refine ⟨ok, ?_⟩
  rw [Ring.queue, same, Ring.contents_self, List.append_nil]

/-- Slots join the queue at its back. -/
theorem enter (fifo : ring.Fifo n entered left) (ok : ring'.Ok n)
    (joined : ring'.queue n = ring.queue n ++ slots) : ring'.Fifo n (entered ++ slots) left := by
  refine ⟨ok, ?_⟩
  rw [joined, fifo.order, List.append_assoc]

/-- Slots leave the queue at its front. -/
theorem leave (fifo : ring.Fifo n entered left) (ok : ring'.Ok n)
    (taken : ring.queue n = slots ++ ring'.queue n) : ring'.Fifo n entered (left ++ slots) := by
  refine ⟨ok, ?_⟩
  rw [fifo.order, taken, List.append_assoc]

/-- The descriptors themselves and the tail register do not matter. -/
theorem frame (fifo : ring.Fifo n entered left) (desc : Nat → Desc) (tail : Nat) :
    ({ ring with desc, tail } : Ring).Fifo n entered left :=
  ⟨⟨fifo.ok.positive, fifo.ok.narrow, fifo.ok.use, fifo.ok.clean⟩, fifo.order⟩

theorem entered_length (fifo : ring.Fifo n entered left) :
    entered.length = left.length + (ring.queue n).length := by
  rw [fifo.order, List.length_append]

theorem unused (fifo : ring.Fifo n entered left) :
    ufpDescUnused ring n + (ring.queue n).length + 1 = n := by
  have count := fifo.ok.unused
  rwa [← Ring.contents_length ring.slotIndex] at count

end Ring.Fifo

/-! ## Receive -/

/-- The search for a slot does not look at the ring. -/
theorem ufpSlotAssign_ring (port : Port) (ring : Ring) (buf : Buf) :
    ufpSlotAssign { port with rxRing := ring } buf =
      ((ufpSlotAssign port buf).1, { (ufpSlotAssign port buf).2.1 with rxRing := ring },
        (ufpSlotAssign port buf).2.2) := by
  unfold ufpSlotAssign
  dsimp only
  split <;> rfl

theorem rxAssignSlots_ring (todo : Nat) (port : Port) (ring : Ring) (buf : Buf) :
    rxAssignSlots todo { port with rxRing := ring } buf = rxAssignSlots todo port buf := by
  induction todo generalizing port buf with
  | zero => rfl
  | succ todo ih =>
      rw [rxAssignSlots, rxAssignSlots, ufpSlotAssign_ring]
      rcases ufpSlotAssign port buf with ⟨_ | slot, port', buf'⟩
      · rfl
      · exact congrArg _ (ih port' buf')

theorem rxAssignLoop_queue (todo : Nat) (port : Port) (buf : Buf) (ok : port.rxRing.Ok port.numRxDesc)
    (room : todo ≤ ufpDescUnused port.rxRing port.numRxDesc) :
    (rxAssignLoop todo port buf).2.1.rxRing.queue port.numRxDesc =
      port.rxRing.queue port.numRxDesc ++ rxAssignSlots todo port buf := by
  induction todo generalizing port buf with
  | zero => simp [rxAssignLoop, rxAssignSlots]
  | succ todo ih =>
      rcases ufpSlotAssign_spec port buf with none | ⟨slot, slotNext, -, some⟩
      · simp [rxAssignLoop, rxAssignSlots, none]
      · simp only [rxAssignLoop, rxAssignSlots, some]
        have spare : ufpDescUnused port.rxRing port.numRxDesc ≠ 0 := by omega
        have left := ok.push_unused spare (port.ops.fillRxDesc
          (port.rxRing.desc port.rxRing.nextToUse) (ufpSlotAddrDma (buf.mark slot) slot)) slot
        have rest := ih { port with
          rxSlotNext := slotNext
          rxRing := port.rxRing.push port.numRxDesc (port.ops.fillRxDesc
            (port.rxRing.desc port.rxRing.nextToUse) (ufpSlotAddrDma (buf.mark slot) slot)) slot }
          (buf.mark slot) (ok.push _ _) (by dsimp only; omega)
        dsimp only at rest ⊢
        rw [rest, ok.push_queue spare, List.append_assoc, List.singleton_append,
          rxAssignSlots_ring todo { port with rxSlotNext := slotNext }]

/-- `ufp_rx_assign` puts the slots it is given at the back of the RX queue. -/
theorem ufpRxAssign_queue (port : Port) (buf : Buf) (ok : port.rxRing.Ok port.numRxDesc) :
    (ufpRxAssign port buf).1.rxRing.queue port.numRxDesc = port.rxRing.queue port.numRxDesc ++
      rxAssignSlots (ufpDescUnused port.rxRing port.numRxDesc) port buf := by
  have queue := rxAssignLoop_queue _ port buf ok (Nat.le_refl _)
  simp only [ufpRxAssign]
  split <;> exact queue

theorem rxCleanLoop_total (buf : Buf) (budget : Nat) (port : Port) :
    (rxCleanLoop buf budget port).2.countRxCleanTotal = port.countRxCleanTotal := by
  induction budget generalizing port with
  | zero => rfl
  | succ budget ih =>
      simp only [rxCleanLoop]
      split
      · rfl
      · split
        · rfl
        · exact ih _

theorem ufpRxClean_total (port : Port) (buf : Buf) :
    (ufpRxClean port buf).2.countRxCleanTotal =
      port.countRxCleanTotal + (ufpRxClean port buf).1.length := by
  simp only [ufpRxClean, rxCleanLoop_total]

/-! ## Transmit -/

/-- `ufp_tx_assign` counts a packet as failed, or puts its slot at the back of the TX
queue. -/
theorem ufpTxAssign_queue (port : Port) (buf : Buf) (packet : Packet)
    (ok : port.txRing.Ok port.numTxDesc) :
    (ufpTxAssign port buf packet).1.txRing.queue port.numTxDesc =
        port.txRing.queue port.numTxDesc ++ sentSlots port buf packet ∧
      (ufpTxAssign port buf packet).1.countTxXmitFailed + (sentSlots port buf packet).length =
        port.countTxXmitFailed + 1 := by
  by_cases full : ufpDescUnused port.txRing port.numTxDesc = 0
  · simp [sentSlots, ufpTxAssign_full full]
  · have sent : sentSlots port buf packet = [packet.slotIndex] := by
      simp [sentSlots, ufpTxAssign, full]
    rw [sent]
    refine ⟨(ufpTxAssign_room ok full buf packet).2, ?_⟩
    simp [ufpTxAssign, full]

theorem txCleanLoop_queue (budget : Nat) (port : Port) (buf : Buf) (ok : port.txRing.Ok port.numTxDesc) :
    port.txRing.queue port.numTxDesc = txCleanSlots budget port ++
        (txCleanLoop budget port buf).2.1.txRing.queue port.numTxDesc ∧
      (txCleanLoop budget port buf).1 = (txCleanSlots budget port).length ∧
      (txCleanLoop budget port buf).2.1.countTxCleanTotal = port.countTxCleanTotal := by
  induction budget generalizing port buf with
  | zero => exact ⟨rfl, rfl, rfl⟩
  | succ budget ih =>
      simp only [txCleanLoop, txCleanSlots]
      split
      · exact ⟨rfl, rfl, rfl⟩
      · rename_i some
        split
        · exact ⟨rfl, rfl, rfl⟩
        · obtain ⟨queue, count, total⟩ := ih { port with txRing := port.txRing.pop port.numTxDesc }
            (ufpSlotRelease buf (port.txRing.slotIndex port.txRing.nextToClean)) ok.pop
          dsimp only at queue count total ⊢
          refine ⟨?_, by rw [count, List.length_cons], total⟩
          rw [ok.pop_queue some, queue, List.cons_append]

/-- `ufp_tx_clean` takes slots from the front of the TX queue and counts them. -/
theorem ufpTxClean_queue (port : Port) (buf : Buf) (ok : port.txRing.Ok port.numTxDesc) :
    port.txRing.queue port.numTxDesc = txCleanSlots port.txBudget port ++
        (ufpTxClean port buf).1.txRing.queue port.numTxDesc ∧
      (ufpTxClean port buf).1.countTxCleanTotal =
        port.countTxCleanTotal + (txCleanSlots port.txBudget port).length := by
  obtain ⟨queue, count, total⟩ := txCleanLoop_queue port.txBudget port buf ok
  simp only [ufpTxClean]
  exact ⟨queue, by rw [count, total]⟩

/-! ## Whole runs -/

/-- Both rings are queues, and the counters count what went through them. -/
structure Traffic.Account (rxNum txNum : Nat) (t : Traffic) : Prop where
  rxSize : t.port.numRxDesc = rxNum
  txSize : t.port.numTxDesc = txNum
  rx : t.port.rxRing.Fifo rxNum t.history.posted t.history.received
  tx : t.port.txRing.Fifo txNum t.history.sent t.history.cleaned
  rxTotal : t.port.countRxCleanTotal = t.history.received.length
  txTotal : t.port.countTxCleanTotal = t.history.cleaned.length
  txAssigns : t.history.txAssigns = t.port.countTxXmitFailed + t.history.sent.length

theorem Traffic.Start.account {t : Traffic} (start : t.Start) :
    Traffic.Account t.port.numRxDesc t.port.numTxDesc t := by
  obtain ⟨port, history⟩ := t
  obtain ⟨rx, tx, rxEmpty, txEmpty, ⟨rxTotal, failed, txTotal⟩, rfl⟩ := start
  exact ⟨rfl, rfl, .empty rx rxEmpty, .empty tx txEmpty, rxTotal, txTotal, by simpa using failed.symm⟩

/-- Every call keeps the account. -/
theorem Traffic.Account.step {rxNum txNum : Nat} {t : Traffic} (account : Traffic.Account rxNum txNum t) (call : PortCall) :
    Traffic.Account rxNum txNum (call.run t) := by
  obtain ⟨port, history⟩ := t
  obtain ⟨rfl, rfl, rx, tx, rxTotal, txTotal, txAssigns⟩ := account
  dsimp only at *
  cases call with
  | rxAssign buf =>
      obtain ⟨⟨ring, slotNext, failed, frame⟩, ok, -⟩ := (ufpRxAssign_spec port buf rx.ok).1
      have queue := ufpRxAssign_queue port buf rx.ok
      have entered := rx.enter ok queue
      simp only [PortCall.run]
      rw [frame] at entered ⊢
      exact ⟨rfl, rfl, entered, tx, rxTotal, txTotal, txAssigns⟩
  | rxClean buf =>
      obtain ⟨⟨clean, total, frame⟩, ok, queue, -⟩ := ufpRxClean_spec port buf rx.ok
      have counted := ufpRxClean_total port buf
      have left := rx.leave ok queue
      simp only [PortCall.run]
      rw [frame] at left counted ⊢
      refine ⟨rfl, rfl, left, tx, ?_, txTotal, txAssigns⟩
      rw [counted, rxTotal, List.length_append, List.length_map]
  | slotAssign buf =>
      simp only [PortCall.run]
      rcases ufpSlotAssign_spec port buf with none | ⟨slot, slotNext, -, some⟩
      · rw [none]
        exact ⟨rfl, rfl, rx, tx, rxTotal, txTotal, txAssigns⟩
      · rw [some]
        exact ⟨rfl, rfl, rx, tx, rxTotal, txTotal, txAssigns⟩
  | txAssign buf packet =>
      obtain ⟨⟨ring, suspended, failed, frame⟩, ok, -⟩ := ufpTxAssign_assigned port buf packet tx.ok
      obtain ⟨queue, counted⟩ := ufpTxAssign_queue port buf packet tx.ok
      have entered := tx.enter ok queue
      simp only [PortCall.run]
      rw [frame] at entered counted ⊢
      refine ⟨rfl, rfl, rx, entered, rxTotal, txTotal, ?_⟩
      rw [txAssigns, List.length_append]
      dsimp only at counted ⊢
      omega
  | txXmit =>
      obtain ⟨tail, suspended, frame⟩ := ufpTxXmit_frame port
      simp only [PortCall.run]
      rw [frame]
      exact ⟨rfl, rfl, rx, tx.frame _ _, rxTotal, txTotal, txAssigns⟩
  | txClean buf =>
      obtain ⟨⟨clean, total, frame⟩, ok, -⟩ := (ufpTxClean_spec port buf tx.ok).1
      obtain ⟨queue, counted⟩ := ufpTxClean_queue port buf tx.ok
      have left := tx.leave ok queue
      simp only [PortCall.run]
      rw [frame] at left counted ⊢
      refine ⟨rfl, rfl, rx, left, rxTotal, ?_, txAssigns⟩
      rw [counted, txTotal, List.length_append]
  | device rxDesc txDesc => exact ⟨rfl, rfl, rx.frame _ _, tx.frame _ _, rxTotal, txTotal, txAssigns⟩

theorem Traffic.Account.run {rxNum txNum : Nat} {t : Traffic} (account : Traffic.Account rxNum txNum t)
    (calls : List PortCall) : Traffic.Account rxNum txNum (t.run calls) := by
  induction calls generalizing t with
  | nil => exact account
  | cons call calls ih => exact ih (account.step call)

/-- **Descriptor rings are bounded queues, and the counters are exact.** After any run
of calls on a port whose rings were empty, for each ring: both indices are below the
number of descriptors; `ufp_desc_unused` is one less than that number, less the
occupied descriptors; the slots that entered are the slots that left followed by the
slots of the occupied descriptors, in order. Every `ufp_tx_assign` is counted as
failed, as cleaned, or has its slot in the TX ring, and every slot posted is counted
as received or is in the RX ring. -/
theorem rings_are_fifo {t : Traffic} (start : t.Start) (calls : List PortCall) :
    let t' := t.run calls
    let rxNum := t.port.numRxDesc
    let txNum := t.port.numTxDesc
    let rxQueue := t'.port.rxRing.queue rxNum
    let txQueue := t'.port.txRing.queue txNum
    (t'.port.numRxDesc = rxNum ∧ t'.port.numTxDesc = txNum) ∧
      (t'.port.rxRing.nextToUse < rxNum ∧ t'.port.rxRing.nextToClean < rxNum ∧
        t'.port.txRing.nextToUse < txNum ∧ t'.port.txRing.nextToClean < txNum) ∧
      (rxQueue.length ≤ rxNum - 1 ∧
        ufpDescUnused t'.port.rxRing rxNum = rxNum - 1 - rxQueue.length) ∧
      (txQueue.length ≤ txNum - 1 ∧
        ufpDescUnused t'.port.txRing txNum = txNum - 1 - txQueue.length) ∧
      t'.history.posted = t'.history.received ++ rxQueue ∧
      t'.history.sent = t'.history.cleaned ++ txQueue ∧
      t'.history.txAssigns =
        t'.port.countTxXmitFailed + t'.port.countTxCleanTotal + txQueue.length ∧
      t'.history.posted.length = t'.port.countRxCleanTotal + rxQueue.length := by
  intro t' rxNum txNum rxQueue txQueue
  have account : Traffic.Account rxNum txNum t' := start.account.run calls
  have rxUnused : ufpDescUnused t'.port.rxRing rxNum + rxQueue.length + 1 = rxNum := account.rx.unused
  have txUnused : ufpDescUnused t'.port.txRing txNum + txQueue.length + 1 = txNum := account.tx.unused
  refine ⟨⟨account.rxSize, account.txSize⟩,
    ⟨account.rx.ok.use, account.rx.ok.clean, account.tx.ok.use, account.tx.ok.clean⟩,
    ⟨?_, ?_⟩, ⟨?_, ?_⟩, account.rx.order, account.tx.order, ?_, ?_⟩
  · omega
  · omega
  · omega
  · omega
  · rw [account.txAssigns, account.txTotal, account.tx.entered_length, Nat.add_assoc]
  · rw [account.rxTotal, account.rx.entered_length]

/-- A port with two descriptors a ring, on which every packet is done at once. -/
def sampleTraffic : Traffic where
  port :=
    { ops := ⟨fun _ addr => ⟨addr, 0⟩, fun _ => some (64, 0), fun _ addr _ => ⟨addr, 0⟩, fun _ => true⟩
      rxRing := ⟨fun _ => ⟨0, 0⟩, 0, 0, 0, fun _ => 0⟩
      txRing := ⟨fun _ => ⟨0, 0⟩, 0, 0, 0, fun _ => 0⟩
      numTxDesc := 2, numRxDesc := 2, rxBudget := 8, txBudget := 8
      macAddr := fun _ => 0, tapIndex := 0, rxSlotNext := 0, rxSlotOffset := 0, txSuspended := 0
      countRxAllocFailed := 0, countRxCleanTotal := 0, countTxXmitFailed := 0, countTxCleanTotal := 0 }
  history := ⟨[], [], 0, [], []⟩

/-- Two packets for a ring with room for one: the first is sent, the second fails. -/
theorem rings_are_fifo_sample :
    let buf : Buf := ⟨0, 0, 2048, 8192, 4, 4, fun _ => 0⟩
    let t' := sampleTraffic.run [.txAssign buf ⟨0, 64, 3, 0⟩, .txAssign buf ⟨0, 64, 1, 0⟩]
    t'.history.txAssigns = t'.port.countTxXmitFailed + t'.port.countTxCleanTotal +
        (t'.port.txRing.queue 2).length ∧
      t'.port.countTxXmitFailed = 1 ∧ t'.port.txRing.queue 2 = [3] := by
  intro buf t'
  have start : sampleTraffic.Start :=
    ⟨⟨by decide, by decide, by decide, by decide⟩, ⟨by decide, by decide, by decide, by decide⟩, rfl, rfl,
      ⟨rfl, rfl, rfl⟩, rfl⟩
  have accounted := rings_are_fifo start [.txAssign buf ⟨0, 64, 3, 0⟩, .txAssign buf ⟨0, 64, 1, 0⟩]
  exact ⟨accounted.2.2.2.2.2.2.1, by decide +kernel, by decide +kernel⟩

end Ufp.Lib.Io
