/-
# Ufp.Lib.Plane — the packet buffer and the plane of a thread, `lib/lib_main.c`

`ufp_alloc_buf` takes one block for the slots of all ports and maps it for the
devices; `ufp_plane_alloc` gives each port its range of slots. The sizes are
computed in 32 bits: `num_bufs` is an `int`, `slot_size` a `uint32_t`, and only
their product is widened.

* `slots_inside_iff`: the slots lie apart in the mapped block exactly when the
  true size is below 4 GiB.
* `slot_views_agree_iff`: the CPU and the devices see a slot at the same place
  exactly when the slots can be numbered in 16 bits.
-/
import Ufp.Lib.IoQueue
import Ufp.Lib.Mem
import Ufp.Theory.Bits

namespace Ufp.Lib.Io

open Ufp.Theory Ufp.Lib.Mem

set_option autoImplicit false

deriving instance Inhabited for Ring, Ops

/-! ## Devices and interfaces -/

/-- What a plane takes from `struct ufp_iface`; the rings are those of the thread. -/
structure Iface where
  rxRing : Ring
  txRing : Ring
  numRxDesc : Nat
  numTxDesc : Nat
  rxBudget : Nat
  txBudget : Nat
  macAddr : Nat → UInt8
  tapIndex : Int
  deriving Inhabited

/-- `struct ufp_dev`, with its list of interfaces. -/
structure Dev where
  ops : Ops
  numIfaces : UInt16
  iface : List Iface
  counted : iface.length = numIfaces.toNat

/-- The interfaces of all devices. -/
def numIfaces (devs : List Dev) : Nat := (devs.map fun dev => dev.numIfaces.toNat).sum

/-- What the process gets from the system: whether `malloc` of a size succeeds,
whether an address range can be mapped, and the page size. -/
structure Host where
  malloc : Nat → Bool
  dmaMap : Nat → Nat → Bool
  pageShift : Nat
  pageShift_le : pageShift ≤ 30

/-- `getpagesize()`. -/
def Host.page (host : Host) : Nat := 2 ^ host.pageShift

/-- `ALIGN` on 64-bit words. -/
def align (x a : Nat) : Nat := (x + (a - 1)) % 2 ^ 64 &&& (2 ^ 64 - a)

/-! ## The buffer -/

/-- `num_bufs`, as its 32 bits. -/
def numBufs (devs : List Dev) (count : UInt32) : Nat :=
  devs.foldl (fun n dev => (n + dev.numIfaces.toNat * count.toNat) % 2 ^ 32) 0

/-- `sizeof(int) * num_bufs`: a negative `num_bufs` is sign-extended. -/
def slotsBytes (num : Nat) : Nat := if num < 2 ^ 31 then 4 * num else 2 ^ 64 - 4 * (2 ^ 32 - num)

/-- `sizeof(struct ufp_buf)`. -/
def bufBytes : Nat := 48

/-- `ufp_alloc_buf`. The mapping is 1:1, so `addr_dma` is `addr_virt`. -/
def ufpAllocBuf (host : Host) (devs : List Dev) (slotSize bufCount : UInt32) (mpool : Mpool) :
    Option Buf × Mpool :=
  if !host.malloc bufBytes then (none, mpool)
  else
    let numBufs := numBufs devs bufCount
    let size := slotSize.toNat * numBufs % 2 ^ 32
    let sizeBufAlign := align size host.page
    match ufpMemAllocAlign host.page mpool sizeBufAlign host.page with
    | (none, mpool) => (none, mpool)
    | (some (_, addr), mpool) =>
        if !host.dmaMap addr sizeBufAlign then (none, (ufpMemFree mpool addr).getD mpool)
        else if !host.malloc (slotsBytes numBufs) then (none, (ufpMemFree mpool addr).getD mpool)
        else
          (some { addrVirt := addr, addrDma := addr, slotSize := slotSize.toNat, size
                  count := bufCount.toNat, numSlots := slotsBytes numBufs / 4
                  slots := fun _ => 0 }, mpool)

/-! ## The plane -/

/-- Port `portIdx` of a plane, for an interface of a device with these operations. -/
def planePort (buf : Buf) (portIdx : Nat) (source : Ops × Iface) : Port where
  ops := source.1
  rxRing := source.2.rxRing
  txRing := source.2.txRing
  numRxDesc := source.2.numRxDesc
  numTxDesc := source.2.numTxDesc
  rxBudget := source.2.rxBudget
  txBudget := source.2.txBudget
  macAddr := source.2.macAddr
  tapIndex := source.2.tapIndex
  rxSlotNext := 0
  rxSlotOffset := portIdx * buf.count % 2 ^ 32
  txSuspended := 0
  countRxAllocFailed := 0
  countRxCleanTotal := 0
  countTxXmitFailed := 0
  countTxCleanTotal := 0

/-- The interfaces in the order of the two loops. -/
def allIfaces (devs : List Dev) : List (Ops × Iface) :=
  devs.flatMap fun dev => dev.iface.map fun iface => (dev.ops, iface)

/-- `ufp_plane_alloc`, when nothing it calls fails; `num_ports` is a `uint16_t`. -/
def ufpPlaneAlloc (devs : List Dev) (buf : Buf) : Plane where
  numPorts := numIfaces devs % 2 ^ 16
  ports := fun portIdx => planePort buf portIdx ((allIfaces devs).getD portIdx default)

/-- A ring as `ufp_alloc_ring` leaves it, with its tail register at 0; descriptors and
slot numbers are what the memory held. -/
structure Ring.Reset (ring : Ring) (numDesc : Nat) : Prop where
  size : 0 < numDesc ∧ numDesc < 2 ^ 16
  use : ring.nextToUse = 0
  clean : ring.nextToClean = 0
  tail : ring.tail = 0

theorem Ring.Reset.ok {ring : Ring} {numDesc : Nat} (reset : ring.Reset numDesc) : ring.Ok numDesc := by
  obtain ⟨⟨positive, narrow⟩, use, clean, -⟩ := reset
  exact ⟨positive, narrow, by omega, by omega⟩

/-- An interface whose rings have just been made. -/
structure Iface.Reset (iface : Iface) : Prop where
  rx : iface.rxRing.Reset iface.numRxDesc
  tx : iface.txRing.Reset iface.numTxDesc

theorem length_allIfaces (devs : List Dev) : (allIfaces devs).length = numIfaces devs := by
  simp [allIfaces, numIfaces, List.length_flatMap, Dev.counted]

variable {buf : Buf} {k x : Nat} {devs : List Dev}

/-- Each port of a plane is made for an interface of one of the devices. -/
theorem ufpPlaneAlloc_port {idx : Nat} (inside : idx < (ufpPlaneAlloc devs buf).numPorts) :
    ∃ dev ∈ devs, ∃ iface ∈ dev.iface,
      (ufpPlaneAlloc devs buf).ports idx = planePort buf idx (dev.ops, iface) := by
  have listed : idx < (allIfaces devs).length := by
    rw [length_allIfaces]
    exact Nat.lt_of_lt_of_le inside (Nat.mod_le _ _)
  have member : (allIfaces devs).getD idx default ∈ allIfaces devs := by
    rw [List.getD_eq_getElem?_getD, List.getElem?_eq_getElem listed]
    exact List.getElem_mem listed
  obtain ⟨dev, known, part⟩ := List.mem_flatMap.mp member
  obtain ⟨iface, among, same⟩ := List.mem_map.mp part
  refine ⟨dev, known, iface, among, ?_⟩
  rw [same]
  rfl

/-! ## The sizes -/

theorem align_eq (short : x < 2 ^ 32) (small : k ≤ 30) : align x (2 ^ k) = (x + (2 ^ k - 1)) / 2 ^ k * 2 ^ k := by
  have page : 2 ^ k ≤ 2 ^ 30 := Nat.pow_le_pow_right (by decide) small
  have exact : (x + (2 ^ k - 1)) % 2 ^ 64 = x + (2 ^ k - 1) := Nat.mod_eq_of_lt (by omega)
  rw [align, exact]
  exact Bits.and_mask (by omega) (by omega)

theorem le_align (short : x < 2 ^ 32) (small : k ≤ 30) : x ≤ align x (2 ^ k) := by
  have positive : 0 < 2 ^ k := Nat.two_pow_pos k
  have round := Nat.div_add_mod (x + (2 ^ k - 1)) (2 ^ k)
  have rest := Nat.mod_lt (x + (2 ^ k - 1)) positive
  rw [align_eq short small, Nat.mul_comm]
  omega

/-- Rounding up does not pass a multiple of the page. -/
theorem align_le (short : x < 2 ^ 32) (small : k ≤ 30) : align x (2 ^ k) ≤ 2 ^ 32 := by
  have whole : 2 ^ 32 = 2 ^ (32 - k) * 2 ^ k := by
    rw [← Nat.pow_add]
    congr 1
    omega
  have positive : 0 < 2 ^ k := Nat.two_pow_pos k
  rw [align_eq short small, whole]
  refine Nat.mul_le_mul_right _ ?_
  have less : x + (2 ^ k - 1) < (2 ^ (32 - k) + 1) * 2 ^ k := by
    rw [Nat.add_mul, ← whole]
    omega
  exact Nat.lt_succ_iff.mp ((Nat.div_lt_iff_lt_mul positive).mpr less)

theorem align_zero (small : k ≤ 30) : align 0 (2 ^ k) = 0 := by
  have positive : 0 < 2 ^ k := Nat.two_pow_pos k
  rw [align_eq (by decide) small, Nat.zero_add, Nat.div_eq_of_lt (by omega), Nat.zero_mul]

theorem foldl_numBufs (devs : List Dev) (count : UInt32) (n : Nat) :
    devs.foldl (fun n dev => (n + dev.numIfaces.toNat * count.toNat) % 2 ^ 32) (n % 2 ^ 32) =
      (n + numIfaces devs * count.toNat) % 2 ^ 32 := by
  induction devs generalizing n with
  | nil => simp [numIfaces]
  | cons dev devs ih =>
      rw [List.foldl_cons, Nat.mod_add_mod, ih]
      simp only [numIfaces, List.map_cons, List.sum_cons, Nat.add_mul, Nat.add_assoc]

/-- `num_bufs` is the number of slots, up to wrap-around. -/
theorem numBufs_eq (devs : List Dev) (count : UInt32) :
    numBufs devs count = numIfaces devs * count.toNat % 2 ^ 32 := by
  have all := foldl_numBufs devs count 0
  rwa [Nat.zero_mod, Nat.zero_add] at all

/-- What a buffer that was returned looks like. -/
theorem ufpAllocBuf_spec {host : Host} {slotSize bufCount : UInt32} {mpool mpool' : Mpool}
    (made : ufpAllocBuf host devs slotSize bufCount mpool = (some buf, mpool')) :
    buf.slotSize = slotSize.toNat ∧ buf.count = bufCount.toNat ∧
      buf.size = slotSize.toNat * (numIfaces devs * bufCount.toNat) % 2 ^ 32 ∧
      buf.numSlots = slotsBytes (numBufs devs bufCount) / 4 ∧ ∀ slot, buf.slots slot = 0 := by
  simp only [ufpAllocBuf] at made
  split at made
  · cases made
  split at made
  · cases made
  split at made
  · cases made
  split at made
  · cases made
  obtain ⟨rfl, -⟩ := Prod.mk.inj made |>.imp_left Option.some.inj
  refine ⟨rfl, rfl, ?_, rfl, fun _ => rfl⟩
  dsimp only
  rw [numBufs_eq, Nat.mul_mod_mod]

/-- The buffer has `count` slots for each interface exactly if `num_bufs` is right. -/
theorem ufpAllocBuf_whole_iff {host : Host} {slotSize bufCount : UInt32} {mpool mpool' : Mpool}
    (made : ufpAllocBuf host devs slotSize bufCount mpool = (some buf, mpool')) :
    buf.Whole (numIfaces devs) ↔ numIfaces devs * bufCount.toNat < 2 ^ 31 := by
  obtain ⟨-, count, -, length, -⟩ := ufpAllocBuf_spec made
  rw [numBufs_eq] at length
  constructor
  · rintro ⟨all, int⟩
    rwa [all, count] at int
  · intro small
    rw [slotsBytes, Nat.mod_eq_of_lt (by omega), if_pos small, Nat.mul_div_cancel_left _ (by decide)] at length
    exact ⟨by rw [length, count], by omega⟩

/-! ## Slots in the mapped block -/

/-- The byte ranges the devices use for the first `num` slots lie in the mapped
block, pairwise apart. -/
structure SlotsInside (host : Host) (buf : Buf) (num : Nat) : Prop where
  inside : ∀ i < num, buf.addrDma ≤ ufpSlotAddrDma buf i ∧
    ufpSlotAddrDma buf i + buf.slotSize ≤ buf.addrDma + align buf.size host.page
  apart : ∀ i < num, ∀ j < i, ufpSlotAddrDma buf i + buf.slotSize ≤ ufpSlotAddrDma buf j ∨
    ufpSlotAddrDma buf j + buf.slotSize ≤ ufpSlotAddrDma buf i

section Inside

variable {host : Host} {buf : Buf} {num : Nat} (size : buf.size = buf.slotSize * num % 2 ^ 32)

include size

theorem slotsInside_of_small (small : buf.slotSize * num < 2 ^ 32) : SlotsInside host buf num := by
  have room : buf.slotSize * num ≤ align buf.size host.page := by
    rw [Nat.mod_eq_of_lt small] at size
    rw [← size]
    exact le_align (by omega) host.pageShift_le
  have exact : ∀ i < num, ufpSlotAddrDma buf i = buf.addrDma + buf.slotSize * i := by
    intro i inside
    have less : buf.slotSize * i ≤ buf.slotSize * num := Nat.mul_le_mul_left _ (by omega)
    rw [ufpSlotAddrDma, Nat.mod_eq_of_lt (by omega)]
  have next : ∀ i j, i < j → buf.slotSize * i + buf.slotSize ≤ buf.slotSize * j := by
    intro i j less
    rw [← Nat.mul_succ]
    exact Nat.mul_le_mul_left _ less
  constructor
  · intro i inside
    have last := next i num inside
    rw [exact i inside]
    omega
  · intro i inside j less
    have behind := next j i less
    rw [exact i inside, exact j (by omega)]
    omega

/-- The slot of the last byte below 4 GiB must end there, and the next slot would
start over at 0. -/
theorem small_of_slotsInside (slots : SlotsInside host buf num) : buf.slotSize * num < 2 ^ 32 := by
  by_contra large
  have positive : 0 < buf.slotSize := by
    rcases Nat.eq_zero_or_pos buf.slotSize with none | some
    · rw [none, Nat.zero_mul] at large
      omega
    · exact some
  have cut := Nat.div_add_mod (2 ^ 32 - 1) buf.slotSize
  have rest := Nat.mod_lt (2 ^ 32 - 1) positive
  generalize (2 ^ 32 - 1) / buf.slotSize = last at cut
  have mapped : align buf.size host.page ≤ 2 ^ 32 := by
    refine align_le ?_ host.pageShift_le
    rw [size]
    exact Nat.mod_lt _ (by decide)
  have counted : last < num := by
    have less : buf.slotSize * last < buf.slotSize * num := by omega
    exact Nat.lt_of_mul_lt_mul_left less
  have ends := (slots.inside last counted).2
  rw [ufpSlotAddrDma, Nat.mod_eq_of_lt (by omega)] at ends
  have whole : buf.slotSize * (last + 1) = 2 ^ 32 := by
    rw [Nat.mul_succ]
    omega
  rcases Nat.lt_or_ge (last + 1) num with more | all
  · -- the slot behind it has the address of slot 0
    have clash := slots.apart (last + 1) more 0 (Nat.succ_pos last)
    rw [ufpSlotAddrDma, ufpSlotAddrDma, whole, Nat.mul_zero, Nat.mod_self, Nat.zero_mod] at clash
    omega
  · obtain rfl : num = last + 1 := by omega
    rw [whole, Nat.mod_self] at size
    rw [size, Host.page, align_zero host.pageShift_le] at ends
    omega

end Inside

/-- **The slots lie in the mapped block.** When `ufp_alloc_buf` returns a buffer,
the ranges of its slots are apart and inside the mapping exactly if the size of
all slots, as a number, is below 4 GiB. -/
theorem slots_inside_iff {host : Host} {devs : List Dev} {slotSize bufCount : UInt32}
    {mpool mpool' : Mpool} {buf : Buf}
    (made : ufpAllocBuf host devs slotSize bufCount mpool = (some buf, mpool')) :
    SlotsInside host buf (numIfaces devs * bufCount.toNat) ↔
      slotSize.toNat * (numIfaces devs * bufCount.toNat) < 2 ^ 32 := by
  obtain ⟨width, -, size, -⟩ := ufpAllocBuf_spec made
  rw [← width] at size ⊢
  exact ⟨small_of_slotsInside size, slotsInside_of_small size⟩

/-- A system that refuses nothing, with pages of 4096 bytes. -/
def samplePages : Host := ⟨fun _ => true, fun _ _ => true, 12, by decide⟩

/-- A device with one interface, whose rings are empty. -/
def sampleDev (ops : Ops) (numDesc : Nat) : Dev :=
  ⟨ops, 1, [{ (default : Iface) with
    numRxDesc := numDesc, numTxDesc := numDesc, rxBudget := 8, txBudget := 8, tapIndex := 5 }], rfl⟩

/-- A pool of 1 GiB. -/
def samplePool : Mpool := ufpMemInit 4096 (2 ^ 30) ⟨fun _ => true, 0⟩

/-- The buffer of a process with `ports` interfaces. -/
def sampleBuf (ports : Nat) (bufCount : UInt32) : Option Buf × Mpool :=
  ufpAllocBuf samplePages (List.replicate ports (sampleDev default 4)) 2048 bufCount samplePool

theorem exists_of_isSome {made : Option Buf × Mpool} (granted : made.1.isSome = true) :
    ∃ buf mpool, made = (some buf, mpool) := by
  obtain ⟨_ | buf, mpool⟩ := made
  · cases granted
  · exact ⟨buf, mpool, rfl⟩

theorem slots_inside_sample :
    ∃ buf mpool, sampleBuf 2 8192 = (some buf, mpool) ∧ SlotsInside samplePages buf (2 * 8192) := by
  obtain ⟨buf, mpool, made⟩ : ∃ buf mpool, sampleBuf 2 8192 = (some buf, mpool) :=
    exists_of_isSome (by decide +kernel)
  exact ⟨buf, mpool, made, (slots_inside_iff made).mpr (by decide)⟩

/-- With one port and `-b 2097153`, the size wraps to 2048: slot 2 starts where the
mapping ends. -/
theorem slots_outside_mapping :
    ∃ buf mpool, sampleBuf 1 2097153 = (some buf, mpool) ∧ align buf.size samplePages.page = 4096 ∧
      ufpSlotAddrDma buf 2 = buf.addrDma + 4096 ∧ ¬ SlotsInside samplePages buf 2097153 := by
  obtain ⟨buf, mpool, made⟩ : ∃ buf mpool, sampleBuf 1 2097153 = (some buf, mpool) :=
    exists_of_isSome (by decide +kernel)
  obtain ⟨width, -, size, -⟩ := ufpAllocBuf_spec made
  have mapped : align buf.size samplePages.page = 4096 := by
    rw [size]
    decide +kernel
  have start : ufpSlotAddrDma buf 2 = buf.addrDma + 4096 := by
    rw [ufpSlotAddrDma, width]
    rfl
  refine ⟨buf, mpool, made, mapped, start, fun slots => ?_⟩
  have ends := (slots.inside 2 (by decide)).2
  rw [start, mapped, width] at ends
  have wide : (2048 : UInt32).toNat = 2048 := rfl
  omega

/-! ## The two views of a slot -/

/-- The states that calls of `ufp_slot_assign` and `ufp_slot_release` lead to. -/
inductive SlotRun (plane : Plane) (buf : Buf) : Plane → Buf → Prop
  | start : SlotRun plane buf plane buf
  | assign {plane' : Plane} {buf' : Buf} (before : SlotRun plane buf plane' buf') (idx : Nat) :
      SlotRun plane buf (plane'.setPort idx (ufpSlotAssign (plane'.ports idx) buf').2.1)
        (ufpSlotAssign (plane'.ports idx) buf').2.2
  | release {plane' : Plane} {buf' : Buf} (before : SlotRun plane buf plane' buf') (slot : Nat) :
      SlotRun plane buf plane' (ufpSlotRelease buf' slot)

/-- The CPU and the devices find a slot at the same place, its own. -/
def ViewsAgree (buf : Buf) (slot : Nat) : Prop :=
  ufpSlotAddrVirt buf slot - buf.addrVirt = buf.slotSize * slot ∧
    ufpSlotAddrDma buf slot - buf.addrDma = buf.slotSize * slot

theorem viewsAgree_iff {slot : Nat} (fits : buf.slotSize * slot < 2 ^ 32) :
    ViewsAgree buf slot ↔ buf.slotSize = 0 ∨ slot < 2 ^ 16 := by
  have less : buf.slotSize * (slot % 2 ^ 16) ≤ buf.slotSize * slot :=
    Nat.mul_le_mul_left _ (Nat.mod_le _ _)
  rw [ViewsAgree, ufpSlotAddrVirt, ufpSlotAddrDma, Nat.add_sub_cancel_left, Nat.add_sub_cancel_left,
    Nat.mod_eq_of_lt fits, Nat.mod_eq_of_lt (by omega), and_iff_left rfl, mul_eq_mul_left_iff,
    Nat.mod_eq_iff_lt (by decide)]
  exact or_comm

theorem slotSearch_lt {offset todo slotNext found : Nat} (inside : 0 < todo → slotNext < buf.count)
    (ran : slotSearch buf offset todo slotNext = some found) : found < buf.count := by
  induction todo generalizing slotNext with
  | zero => simp [slotSearch] at ran
  | succ todo ih =>
      have less := inside (Nat.succ_pos todo)
      simp only [slotSearch] at ran
      split at ran
      · cases ran
        exact less
      · refine ih (fun _ => ?_) ran
        split <;> omega

/-- `rx_slot_next` is in the range of the port's slots, if there are any. -/
def Port.NextOk (port : Port) (count : Nat) : Prop := 0 < count → port.rxSlotNext < count

theorem ufpSlotAssign_returns {port : Port} {slot : Nat} (next : port.NextOk buf.count)
    (returned : (ufpSlotAssign port buf).1 = some slot) : ∃ k < buf.count, slot = port.rxSlotOffset + k := by
  unfold ufpSlotAssign at returned
  split at returned
  · cases returned
  · rename_i found search
    obtain rfl : port.rxSlotOffset + found = slot := Option.some.inj returned
    exact ⟨found, slotSearch_lt next search, rfl⟩

theorem ufpSlotAssign_keeps {port : Port} (next : port.NextOk buf.count) :
    (ufpSlotAssign port buf).2.1.rxSlotOffset = port.rxSlotOffset ∧
      (ufpSlotAssign port buf).2.1.NextOk buf.count ∧
      (ufpSlotAssign port buf).2.2.count = buf.count := by
  unfold ufpSlotAssign
  split
  · exact ⟨rfl, next, rfl⟩
  · rename_i found search
    have less := slotSearch_lt next search
    refine ⟨rfl, fun _ => ?_, rfl⟩
    dsimp only
    split <;> omega

/-- A free slot under `rx_slot_next` is taken at once. -/
theorem ufpSlotAssign_free {port : Port} {buf : Buf} (positive : 0 < buf.count)
    (free : buf.inflight (port.rxSlotOffset + port.rxSlotNext) = false) :
    ufpSlotAssign port buf = (some (port.rxSlotOffset + port.rxSlotNext),
      { port with rxSlotNext := if port.rxSlotNext + 1 = buf.count then 0 else port.rxSlotNext + 1 },
      buf.mark (port.rxSlotOffset + port.rxSlotNext)) := by
  obtain ⟨todo, more⟩ : ∃ todo, buf.count = todo + 1 := ⟨buf.count - 1, by omega⟩
  have found : slotSearch buf port.rxSlotOffset buf.count port.rxSlotNext = some port.rxSlotNext := by
    rw [more, slotSearch, free]
    rfl
  simp only [ufpSlotAssign, found]

/-- What the calls leave as it was. -/
structure SlotRun.Kept (plane : Plane) (buf : Buf) (plane' : Plane) (buf' : Buf) : Prop where
  numPorts : plane'.numPorts = plane.numPorts
  count : buf'.count = buf.count
  offset : ∀ p, (plane'.ports p).rxSlotOffset = (plane.ports p).rxSlotOffset
  next : ∀ p, (plane'.ports p).NextOk buf'.count

theorem SlotRun.kept {plane plane' : Plane} {buf' : Buf} (start : ∀ p, (plane.ports p).NextOk buf.count)
    (run : SlotRun plane buf plane' buf') : SlotRun.Kept plane buf plane' buf' := by
  induction run with
  | start => exact ⟨rfl, rfl, fun _ => rfl, start⟩
  | assign before idx ih =>
      obtain ⟨offset, next, count⟩ := ufpSlotAssign_keeps (ih.next idx)
      refine ⟨ih.numPorts, count.trans ih.count, fun p => ?_, fun p => ?_⟩
      · by_cases same : p = idx
        · subst same
          rw [Plane.setPort_self, offset, ih.offset]
        · rw [Plane.setPort_of_ne _ _ same, ih.offset]
      · rw [count]
        by_cases same : p = idx
        · subst same
          rwa [Plane.setPort_self]
        · rw [Plane.setPort_of_ne _ _ same]
          exact ih.next p
  | release before slot ih => exact ⟨ih.numPorts, ih.count, ih.offset, ih.next⟩

/-- Taking and releasing slots one by one brings `rx_slot_next` anywhere in the
port's range. -/
theorem SlotRun.reaches {plane : Plane} {buf : Buf} {p : Nat} (zero : (plane.ports p).rxSlotNext = 0)
    (free : ∀ slot, buf.inflight slot = false) (k : Nat) (inside : k < buf.count) :
    ∃ plane' buf', SlotRun plane buf plane' buf' ∧ buf'.count = buf.count ∧
      (plane'.ports p).rxSlotNext = k ∧ ∀ slot, buf'.inflight slot = false := by
  induction k with
  | zero => exact ⟨plane, buf, .start, rfl, zero, free⟩
  | succ k ih =>
      obtain ⟨plane', buf', run, count, next, none⟩ := ih (by omega)
      have taken := @ufpSlotAssign_free (plane'.ports p) buf' (by omega) (none _)
      refine ⟨_, _, (run.assign p).release ((plane'.ports p).rxSlotOffset + (plane'.ports p).rxSlotNext),
        ?_, ?_, fun slot => ?_⟩
      · rw [taken]
        exact count
      · rw [Plane.setPort_self, taken]
        dsimp only
        rw [next, if_neg (by omega)]
      · rw [taken]
        have empty : Ledger buf' [] := ⟨List.nodup_nil, fun x => by simp [none x]⟩
        have after := (empty.take (none ((plane'.ports p).rxSlotOffset + (plane'.ports p).rxSlotNext))).release
        simpa using after.flagged slot

section Views

variable {devs : List Dev} {buf : Buf}

/-- The slots of the plane's ports are among the slots of the buffer. -/
theorem slot_within {p : Nat} (inside : p < (ufpPlaneAlloc devs buf).numPorts) (less : k < buf.count) :
    p * buf.count + k < (ufpPlaneAlloc devs buf).numPorts * buf.count := by
  calc p * buf.count + k < (p + 1) * buf.count := by rw [Nat.succ_mul]; omega
    _ ≤ (ufpPlaneAlloc devs buf).numPorts * buf.count := Nat.mul_le_mul_right _ inside

variable (fits : buf.slotSize * (numIfaces devs * buf.count) < 2 ^ 32)

include fits

theorem slot_bytes {p : Nat} (inside : p < (ufpPlaneAlloc devs buf).numPorts) (less : k < buf.count) :
    buf.slotSize * (p * buf.count + k) < 2 ^ 32 := by
  refine Nat.lt_of_le_of_lt (Nat.mul_le_mul_left _ ?_) fits
  have ports : (ufpPlaneAlloc devs buf).numPorts ≤ numIfaces devs := Nat.mod_le _ _
  exact (slot_within inside less).le.trans (Nat.mul_le_mul_right _ ports)

/-- Slots have bytes, or the offset of a port does not wrap around. -/
theorem slot_offset {p : Nat} (inside : p < (ufpPlaneAlloc devs buf).numPorts) (less : k < buf.count)
    (wide : 0 < buf.slotSize) : ((ufpPlaneAlloc devs buf).ports p).rxSlotOffset = p * buf.count := by
  have bytes := slot_bytes fits inside less
  have more : 1 * (p * buf.count + k) ≤ buf.slotSize * (p * buf.count + k) :=
    Nat.mul_le_mul_right _ wide
  exact Nat.mod_eq_of_lt (by omega)

theorem views_agree_of_short
    (short : buf.slotSize = 0 ∨ (ufpPlaneAlloc devs buf).numPorts * buf.count ≤ 2 ^ 16)
    {plane : Plane} {buf' : Buf} (run : SlotRun (ufpPlaneAlloc devs buf) buf plane buf') {p slot : Nat}
    (inside : p < plane.numPorts) (returned : (ufpSlotAssign (plane.ports p) buf').1 = some slot) :
    ViewsAgree buf slot := by
  rcases Nat.eq_zero_or_pos buf.slotSize with none | wide
  · exact (viewsAgree_iff (by rw [none, Nat.zero_mul]; decide)).mpr (.inl none)
  have kept := run.kept fun _ positive => positive
  rw [kept.numPorts] at inside
  obtain ⟨k, less, rfl⟩ := ufpSlotAssign_returns (kept.next p) returned
  rw [kept.count] at less
  have small := slot_within inside less
  rw [kept.offset, slot_offset fits inside less wide, viewsAgree_iff (slot_bytes fits inside less)]
  omega

theorem short_of_views_agree (free : ∀ slot, buf.inflight slot = false)
    (agree : ∀ plane buf', SlotRun (ufpPlaneAlloc devs buf) buf plane buf' → ∀ p < plane.numPorts,
      ∀ slot, (ufpSlotAssign (plane.ports p) buf').1 = some slot → ViewsAgree buf slot) :
    buf.slotSize = 0 ∨ (ufpPlaneAlloc devs buf).numPorts * buf.count ≤ 2 ^ 16 := by
  by_contra wrong
  obtain ⟨wide, many⟩ := not_or.mp wrong
  have positive : 0 < buf.count := by
    rcases Nat.eq_zero_or_pos buf.count with none | positive
    · rw [none, Nat.mul_zero] at many
      omega
    · exact positive
  -- slot 65536 is slot `k` of port `p`
  have split := Nat.div_add_mod' (2 ^ 16) buf.count
  have less := Nat.mod_lt (2 ^ 16) positive
  generalize 2 ^ 16 / buf.count = p at split
  generalize 2 ^ 16 % buf.count = k at split less
  have inside : p < (ufpPlaneAlloc devs buf).numPorts := by
    have below : p * buf.count < (ufpPlaneAlloc devs buf).numPorts * buf.count := by omega
    exact Nat.lt_of_mul_lt_mul_right below
  obtain ⟨plane, buf', run, -, next, none⟩ :=
    @SlotRun.reaches (ufpPlaneAlloc devs buf) buf p rfl free k less
  have kept := run.kept fun _ positive => positive
  have taken := @ufpSlotAssign_free (plane.ports p) buf' (by rw [kept.count]; exact positive) (none _)
  have views := agree plane buf' run p (kept.numPorts ▸ inside) _ (congrArg Prod.fst taken)
  rw [next, kept.offset, slot_offset fits inside less (by omega),
    viewsAgree_iff (slot_bytes fits inside less)] at views
  omega

end Views

/-- **The CPU and the devices agree on every slot.** For a buffer smaller than
4 GiB, as every buffer is that fits the pool, the two addresses of each slot that
`ufp_slot_assign` can return have the same offset exactly if all slot numbers fit
in 16 bits (or slots have no bytes). -/
theorem slot_views_agree_iff {host : Host} {devs : List Dev} {slotSize bufCount : UInt32}
    {mpool mpool' : Mpool} {buf : Buf}
    (made : ufpAllocBuf host devs slotSize bufCount mpool = (some buf, mpool'))
    (fits : slotSize.toNat * (numIfaces devs * bufCount.toNat) < 2 ^ 32) :
    (∀ plane buf', SlotRun (ufpPlaneAlloc devs buf) buf plane buf' → ∀ p < plane.numPorts, ∀ slot,
      (ufpSlotAssign (plane.ports p) buf').1 = some slot → ViewsAgree buf slot) ↔
    slotSize.toNat = 0 ∨ (ufpPlaneAlloc devs buf).numPorts * bufCount.toNat ≤ 2 ^ 16 := by
  obtain ⟨width, count, -, -, zero⟩ := ufpAllocBuf_spec made
  rw [← width, ← count] at fits ⊢
  constructor
  · intro agree
    refine short_of_views_agree fits (fun slot => ?_) agree
    simp [Buf.inflight, zero]
  · intro short plane buf' run p inside slot returned
    exact views_agree_of_short fits short run inside returned

theorem slot_views_agree_sample :
    ∃ buf mpool, sampleBuf 2 8192 = (some buf, mpool) ∧
      ∀ slot, (ufpSlotAssign ((ufpPlaneAlloc (List.replicate 2 (sampleDev default 4)) buf).ports 1)
        buf).1 = some slot → ViewsAgree buf slot := by
  obtain ⟨buf, mpool, made⟩ : ∃ buf mpool, sampleBuf 2 8192 = (some buf, mpool) :=
    exists_of_isSome (by decide +kernel)
  have ports : (ufpPlaneAlloc (List.replicate 2 (sampleDev default 4)) buf).numPorts = 2 := rfl
  refine ⟨buf, mpool, made, (slot_views_agree_iff made (by decide)).mpr (.inr ?_) _ _ .start 1 ?_⟩
  · rw [ports]
    decide
  · rw [ports]
    decide

/-- With nine ports and the default 8192 buffers each, the first slot of port 8 is
slot 65536: the CPU looks at slot 0. -/
theorem slot_views_differ :
    ∃ buf mpool, sampleBuf 9 8192 = (some buf, mpool) ∧
      (ufpSlotAssign ((ufpPlaneAlloc (List.replicate 9 (sampleDev default 4)) buf).ports 8) buf).1 =
        some 65536 ∧
      ufpSlotAddrVirt buf 65536 = buf.addrVirt ∧ ufpSlotAddrDma buf 65536 = buf.addrDma + 2 ^ 27 ∧
      ¬ ViewsAgree buf 65536 := by
  obtain ⟨buf, mpool, made⟩ : ∃ buf mpool, sampleBuf 9 8192 = (some buf, mpool) :=
    exists_of_isSome (by decide +kernel)
  obtain ⟨width, count, -, -, zero⟩ := ufpAllocBuf_spec made
  have many : buf.count = 8192 := count
  have wide : buf.slotSize = 2048 := width
  refine ⟨buf, mpool, made, ?_, ?_, ?_, ?_⟩
  · rw [ufpSlotAssign_free (by omega) (by simp [Buf.inflight, zero])]
    simp [ufpPlaneAlloc, planePort, many]
  · simp [ufpSlotAddrVirt]
  · simp [ufpSlotAddrDma, wide]
  · rw [viewsAgree_iff (by rw [wide]; decide), wide]
    decide

end Ufp.Lib.Io
