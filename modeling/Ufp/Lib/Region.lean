/-
# Ufp.Lib.Region — the slots of one port

Every port has a region of `buf->count` slots, from `rx_slot_offset` on, and
`ufp_slot_assign` looks for a free slot there. `Port.Posted` says that a port has
kept to its region; every call of the library keeps it. After `ufp_rx_assign` a port
whose RX ring is still empty has no free slot left (`Refilled`).
-/
import Ufp.Lib.Plane

namespace Ufp.Lib.Io

open Ufp.Theory

set_option autoImplicit false

/-! ## Empty and full rings -/

namespace Ring.Ok

variable {ring : Ring} {n : Nat}

theorem queue_eq_nil (ok : ring.Ok n) : ring.queue n = [] ↔ ring.nextToClean = ring.nextToUse := by
  have use := ok.use
  have clean := ok.clean
  rw [← List.length_eq_zero_iff, Ring.queue, Ring.contents_length]
  unfold Theory.Ring.occupied
  split <;> omega

/-- A full ring of two or more descriptors is not empty. -/
theorem ne_of_full (ok : ring.Ok n) (deep : 2 ≤ n) (full : ufpDescUnused ring n = 0) :
    ring.nextToClean ≠ ring.nextToUse := by
  intro same
  have count := ok.unused
  rw [full, same, Ring.occupied_self] at count
  omega

end Ring.Ok

/-- The RX ring of a port holds no posted descriptor. -/
def Port.RxEmpty (port : Port) : Prop := port.rxRing.nextToClean = port.rxRing.nextToUse

/-- The TX ring of a port holds an outstanding descriptor. -/
def Port.TxBusy (port : Port) : Prop := port.txRing.nextToClean ≠ port.txRing.nextToUse

variable {buf : Buf} {idx : Nat} {port : Port}

/-- The regions of the ports follow each other in the array. -/
theorem region_bounds {devs : List Dev} (whole : buf.Whole (numIfaces devs)) (inside : idx < numIfaces devs) :
    ((ufpPlaneAlloc devs buf).ports idx).rxSlotOffset = idx * buf.count ∧
      idx * buf.count + buf.count ≤ buf.numSlots := by
  obtain ⟨length, int⟩ := whole
  have last : idx * buf.count + buf.count ≤ buf.numSlots := by
    rw [length, ← Nat.succ_mul]
    exact Nat.mul_le_mul_right _ inside
  exact ⟨Nat.mod_eq_of_lt (by omega), last⟩

/-- Some slot of the port's region is free. -/
def Port.Spare (port : Port) (buf : Buf) : Prop :=
  ∃ k < buf.count, buf.inflight (port.rxSlotOffset + k) = false

/-! ## The search for a free slot -/

theorem slotSearch_none {offset todo slotNext : Nat} (inside : slotNext < buf.count) (few : todo ≤ buf.count)
    (ran : slotSearch buf offset todo slotNext = none) :
    ∀ j < todo, buf.inflight (offset + Ring.index buf.count slotNext j) = true := by
  induction todo generalizing slotNext with
  | zero => exact fun j less => absurd less (Nat.not_lt_zero j)
  | succ todo ih =>
      simp only [slotSearch] at ran
      split at ran
      · cases ran
      · rename_i taken
        intro j less
        cases j with
        | zero =>
            have first : Ring.index buf.count slotNext 0 = slotNext := by simp [Ring.index, inside]
            rw [first]
            simpa using taken
        | succ j =>
            -- the search goes on at the next slot, wrapping at the end of the region
            have later := ih (by split <;> omega) (by omega) ran j (by omega)
            have shift : Ring.index buf.count slotNext (j + 1) =
                Ring.index buf.count (if slotNext + 1 = buf.count then 0 else slotNext + 1) j := by
              unfold Ring.index
              split_ifs <;> omega
            rwa [shift]

/-- When `ufp_slot_assign` fails, the port has no free slot. -/
theorem ufpSlotAssign_none (next : port.NextOk buf.count) (failed : (ufpSlotAssign port buf).1 = none) :
    ¬ port.Spare buf := by
  rintro ⟨k, less, free⟩
  have inside : port.rxSlotNext < buf.count := next (by omega)
  unfold ufpSlotAssign at failed
  split at failed
  · rename_i ran
    have all := slotSearch_none inside (Nat.le_refl _) ran
    have taken := all _ (Ring.occupied_lt inside less)
    rw [Ring.index_occupied inside less, free] at taken
    cases taken
  · cases failed

theorem Buf.inflight_mark_eq (buf : Buf) (slot other : Nat) :
    (buf.mark slot).inflight other = (buf.inflight other || decide (other = slot)) := by
  by_cases same : other = slot
  · subst same
    have odd : (buf.slots other ||| 1) &&& 1 = 1 := by
      rw [Nat.and_one_is_mod, Nat.or_mod_two_eq_one]
      simp
    simp [Buf.mark, Buf.inflight, slotInflight, odd]
  · simp [Buf.mark, Buf.inflight, same]

theorem Buf.inflight_mark {slot other : Nat} (taken : buf.inflight other = true) :
    (buf.mark slot).inflight other = true := by
  rw [Buf.inflight_mark_eq, taken, Bool.true_or]

/-! ## A port that has kept to its region -/

/-- Port `idx` posts slots of its own region, and both rings have room for a
descriptor. -/
structure Port.Posted (port : Port) (idx count : Nat) : Prop where
  rings : port.RingsOk
  deepRx : 2 ≤ port.numRxDesc
  deepTx : 2 ≤ port.numTxDesc
  offset : port.rxSlotOffset = idx * count
  next : port.NextOk count
  region : ∀ slot ∈ port.rxRing.queue port.numRxDesc, ∃ k < count, slot = port.rxSlotOffset + k

namespace Port.Posted

variable {port : Port} {idx count : Nat} (posted : port.Posted idx count) (buf : Buf)

include posted

theorem txAssign (packet : Packet) : (ufpTxAssign port buf packet).1.Posted idx count := by
  have rings := posted.rings.txAssign buf packet
  obtain ⟨ring, suspended, failed, frame⟩ :=
    (ufpTxAssign_assigned port buf packet posted.rings.tx).frame
  rw [frame] at rings ⊢
  exact ⟨rings, posted.deepRx, posted.deepTx, posted.offset, posted.next, posted.region⟩

theorem txClean : (ufpTxClean port buf).1.Posted idx count := by
  have rings := posted.rings.txClean buf
  obtain ⟨clean, total, frame⟩ := (ufpTxClean_spec port buf posted.rings.tx).1.frame
  rw [frame] at rings ⊢
  exact ⟨rings, posted.deepRx, posted.deepTx, posted.offset, posted.next, posted.region⟩

omit buf in
theorem txXmit : (ufpTxXmit port).Posted idx count := by
  have rings := posted.rings.txXmit
  obtain ⟨tail, suspended, frame⟩ := ufpTxXmit_frame port
  rw [frame] at rings ⊢
  exact ⟨rings, posted.deepRx, posted.deepTx, posted.offset, posted.next, posted.region⟩

theorem rxClean : (ufpRxClean port buf).2.Posted idx count := by
  have rings := posted.rings.rxClean buf
  obtain ⟨⟨clean, total, frame⟩, -, queue, -⟩ := ufpRxClean_spec port buf posted.rings.rx
  rw [frame] at rings queue ⊢
  refine ⟨rings, posted.deepRx, posted.deepTx, posted.offset, posted.next, fun slot member => ?_⟩
  apply posted.region slot
  rw [queue]
  exact List.mem_append_right _ member

theorem slotAssign (same : buf.count = count) : (ufpSlotAssign port buf).2.1.Posted idx count := by
  have rings := posted.rings.slotAssign buf
  subst same
  obtain ⟨-, next, -⟩ := ufpSlotAssign_keeps posted.next
  rcases ufpSlotAssign_spec port buf with none | ⟨slot, slotNext, -, taken⟩
  · rw [none]
    exact posted
  · rw [taken] at rings next ⊢
    exact ⟨rings, posted.deepRx, posted.deepTx, posted.offset, next, posted.region⟩

/-- After `ufp_tx_assign` the TX ring is not empty, whether it took the packet or not. -/
theorem txAssign_busy (packet : Packet) : (ufpTxAssign port buf packet).1.TxBusy := by
  by_cases full : ufpDescUnused port.txRing port.numTxDesc = 0
  · rw [ufpTxAssign_full full]
    exact posted.rings.tx.ne_of_full posted.deepTx full
  · obtain ⟨-, queue⟩ := ufpTxAssign_room posted.rings.tx full buf packet
    have ok := (ufpTxAssign_assigned port buf packet posted.rings.tx).ok
    intro empty
    rw [ok.queue_eq_nil.mpr empty] at queue
    simp at queue

end Port.Posted

theorem txCleanLoop_count (budget : Nat) (port : Port) (buf : Buf) :
    (txCleanLoop budget port buf).2.2.count = buf.count := by
  induction budget generalizing port buf with
  | zero => rfl
  | succ budget ih =>
      simp only [txCleanLoop]
      split
      · rfl
      · split
        · rfl
        · exact ih _ _

theorem ufpTxClean_count (port : Port) (buf : Buf) : (ufpTxClean port buf).2.count = buf.count :=
  txCleanLoop_count port.txBudget port buf

/-! ## `ufp_rx_assign` -/

/-- What `ufp_rx_assign` leaves of a port and the buffer. -/
structure Refilled (idx : Nat) (buf : Buf) (port' : Port) (buf' : Buf) : Prop where
  posted : port'.Posted idx buf.count
  count : buf'.count = buf.count
  marks : ∀ slot, buf.inflight slot = true → buf'.inflight slot = true
  dry : port'.RxEmpty → ¬ port'.Spare buf'

/-- One iteration of `ufp_rx_assign` keeps the port to its region. -/
theorem Port.Posted.push {count slotNext slot : Nat} (posted : port.Posted idx count)
    (room : ufpDescUnused port.rxRing port.numRxDesc ≠ 0) (desc : Desc) (next : 0 < count → slotNext < count)
    (inside : ∃ k < count, slot = port.rxSlotOffset + k) :
    ({ port with
      rxSlotNext := slotNext
      rxRing := port.rxRing.push port.numRxDesc desc slot } : Port).Posted idx count := by
  refine ⟨⟨posted.rings.rx.push desc slot, posted.rings.tx⟩, posted.deepRx, posted.deepTx, posted.offset,
    next, fun other member => ?_⟩
  dsimp only at member ⊢
  rw [posted.rings.rx.push_queue room] at member
  rcases List.mem_append.mp member with old | new
  · exact posted.region other old
  · rwa [List.mem_singleton.mp new]

theorem rxAssignLoop_refills (todo : Nat) (posted : port.Posted idx buf.count)
    (room : todo ≤ ufpDescUnused port.rxRing port.numRxDesc) (tries : todo = 0 → ¬ port.RxEmpty) :
    Refilled idx buf (rxAssignLoop todo port buf).2.1 (rxAssignLoop todo port buf).2.2 := by
  induction todo generalizing port buf with
  | zero => exact ⟨posted, rfl, fun _ taken => taken, fun empty => absurd empty (tries rfl)⟩
  | succ todo ih =>
      rcases ufpSlotAssign_spec port buf with none | ⟨slot, slotNext, -, some⟩
      · have dry : ¬ port.Spare buf := ufpSlotAssign_none posted.next (by rw [none])
        simp only [rxAssignLoop, none]
        refine ⟨?_, rfl, fun _ taken => taken, fun _ => dry⟩
        exact ⟨⟨posted.rings.rx, posted.rings.tx⟩, posted.deepRx, posted.deepTx, posted.offset, posted.next,
          posted.region⟩
      · have spare : ufpDescUnused port.rxRing port.numRxDesc ≠ 0 := by omega
        have inside := ufpSlotAssign_returns posted.next (by rw [some])
        obtain ⟨-, next, -⟩ := ufpSlotAssign_keeps posted.next
        rw [some] at next
        simp only [rxAssignLoop, some]
        generalize port.ops.fillRxDesc _ _ = desc
        have left := posted.rings.rx.push_unused spare desc slot
        have pushed := posted.push spare desc next inside
        have filled : (port.rxRing.push port.numRxDesc desc slot).queue port.numRxDesc ≠ [] := by
          rw [posted.rings.rx.push_queue spare]
          simp
        obtain ⟨posted', count, marks, dry⟩ := @ih (buf.mark slot) _ pushed (by dsimp only; omega)
          fun _ empty => filled (pushed.rings.rx.queue_eq_nil.mpr empty)
        exact ⟨posted', count, fun other taken => marks other (Buf.inflight_mark taken), dry⟩

/-- `ufp_rx_assign` posts slots until the port has none left or the ring is full. -/
theorem ufpRxAssign_refills (posted : port.Posted idx buf.count) :
    Refilled idx buf (ufpRxAssign port buf).1 (ufpRxAssign port buf).2 := by
  obtain ⟨posted', count, marks, dry⟩ := rxAssignLoop_refills _ posted (Nat.le_refl _)
    (posted.rings.rx.ne_of_full posted.deepRx)
  simp only [ufpRxAssign]
  split
  · exact ⟨posted', count, marks, dry⟩
  · refine ⟨?_, count, marks, dry⟩
    obtain ⟨⟨⟨positive, narrow, use, clean⟩, tx⟩, deepRx, deepTx, offset, next, region⟩ := posted'
    exact ⟨⟨⟨positive, narrow, use, clean⟩, tx⟩, deepRx, deepTx, offset, next, region⟩

end Ufp.Lib.Io
