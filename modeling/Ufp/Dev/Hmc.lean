/-
# Ufp.Dev.Hmc — the backing store of queue contexts, `dev/i40e/i40e_hmc.c`

The device keeps the contexts of its queues in host memory (host memory cache,
HMC). Contexts have addresses in a private space of the function (FPM): first the
TX contexts, then, from the next multiple of 512, the RX contexts. A segment
descriptor (SD) backs 2 MiB of this space by 512 pages that are mapped one by one.

`i40e_hmc_init` reads the number of queues and the sizes of contexts from the device
and allocates the pages, and `i40e_hmc_va` finds the memory of a context.
-/
import Ufp.Dev.AdminQueue
import Ufp.Dev.Queues
import Ufp.Lib.Plane
import Mathlib.Logic.Function.Basic

namespace Ufp.Dev.Hmc

open Ufp.Lib.Io Ufp.Dev.AdminQueue Ufp.Dev.Queues

set_option autoImplicit false

/-! ## State -/

/-- `I40E_HMC_MAX_BP_COUNT`. -/
def maxBpCount : Nat := 512

/-- `I40E_HMC_DIRECT_BP_SIZE`. -/
def directBpSize : Nat := 0x200000

/-- `I40E_HMC_PAGED_BP_SIZE`. -/
def pagedBpSize : Nat := 4096

/-- `I40E_HMC_L2OBJ_BASE_ALIGNMENT`. -/
def l2objBaseAlignment : Nat := 512

/-- `struct i40e_hmc_obj`. -/
structure HmcObj where
  base : Nat
  count : Nat
  size : Nat

/-- `struct ufp_dev_buf`. -/
structure DevBuf where
  addrVirt : Nat
  addrDma : Nat
  size : Nat

/-- `struct i40e_hmc_sd_entry`. -/
structure SdEntry where
  pdAddrs : DevBuf
  pd : Nat → DevBuf

/-- `struct i40e_hmc`, with its table of `sd_count` entries. -/
structure I40eHmc where
  objTx : HmcObj
  objRx : HmcObj
  sdCount : Nat
  sdEntry : Nat → SdEntry

/-- What the functions work on: memory, the registers of the device by their offset in
the BAR, and what `ufp_dev_dma_alloc` answers, call by call, with a virtual and a DMA
address. -/
structure Host where
  mem : Nat → UInt8
  regs : Nat → Nat
  dma : Nat → Option (Nat × Nat)
  calls : Nat
  freed : List DevBuf

namespace Host

/-- `UFP_WRITE32`. -/
def write32 (host : Host) (reg value : Nat) : Host :=
  { host with regs := Function.update host.regs reg (value % 2 ^ 32) }

/-- A `uint64_t` is written to memory. -/
def write64 (host : Host) (addr value : Nat) : Host :=
  { host with mem := fun a =>
      if addr ≤ a ∧ a < addr + 8 then UInt8.ofNat (value >>> (8 * (a - addr))) else host.mem a }

/-- `ufp_dev_dma_alloc`. -/
def dmaAlloc (host : Host) (size : Nat) : Option DevBuf × Host :=
  ((host.dma host.calls).map fun (addrVirt, addrDma) => ⟨addrVirt, addrDma, size⟩,
    { host with calls := host.calls + 1 })

/-- `ufp_dev_dma_free`. -/
def dmaFree (host : Host) (buf : DevBuf) : Host := { host with freed := buf :: host.freed }

end Host

/-! ## Registers -/

def pfhmcSdcmd : Nat := 0x000C0000
def pfhmcSddatalow : Nat := 0x000C0100
def pfhmcSddatahigh : Nat := 0x000C0200
def pfhmcPdinv : Nat := 0x000C0300
def glhmcLantxobjsz : Nat := 0x000C2004
def glhmcLanqmax : Nat := 0x000C2008
def glhmcLanrxobjsz : Nat := 0x000C200c
def glhmcLantxbase (i : Nat) : Nat := 0x000C6200 + i * 4
def glhmcLantxcnt (i : Nat) : Nat := 0x000C6300 + i * 4
def glhmcLanrxbase (i : Nat) : Nat := 0x000C6400 + i * 4
def glhmcLanrxcnt (i : Nat) : Nat := 0x000C6500 + i * 4

/-- The masks of `FPMLANTXBASE` and `FPMLANRXBASE`. -/
def fpmlanbaseMask : Nat := 0xFFFFFF

/-! ## Segment descriptors -/

/-- `i40e_set_pf_sd_entry` with `I40E_SD_TYPE_PAGED`. -/
def i40eSetPfSdEntry (pa sdIndex : Nat) (host : Host) : Host :=
  let val1 := upper32 pa
  let val2 := lower32 pa ||| maxBpCount <<< 2 ||| 0 <<< 1 ||| 1 <<< 0
  let val3 := sdIndex ||| 1 <<< 31
  ((host.write32 pfhmcSddatahigh val1).write32 pfhmcSddatalow val2).write32 pfhmcSdcmd val3

/-- `i40e_clear_pf_sd_entry` with `I40E_SD_TYPE_PAGED`. -/
def i40eClearPfSdEntry (sdIndex : Nat) (host : Host) : Host :=
  let val2 := maxBpCount <<< 2 ||| 0 <<< 1
  let val3 := sdIndex ||| 1 <<< 31
  ((host.write32 pfhmcSddatahigh 0).write32 pfhmcSddatalow val2).write32 pfhmcSdcmd val3

/-- The loop of `i40e_hmc_sd_allocate` over the pages from `i` on, with `todo` to go; at the
first page that is not granted, those before it are freed. -/
def sdPages : Nat → Nat → SdEntry → Host → Option SdEntry × Host
  | 0, _, sdEntry, host => (some sdEntry, host)
  | todo + 1, i, sdEntry, host =>
      match host.dmaAlloc pagedBpSize with
      | (none, host) =>
          let host := (List.range i).foldl (fun host j => host.dmaFree (sdEntry.pd j)) host
          (none, host.dmaFree sdEntry.pdAddrs)
      | (some pd, host) =>
          -- set page address and valid bit
          let host := host.write64 (sdEntry.pdAddrs.addrVirt + 8 * i) (pd.addrDma ||| 0x1)
          sdPages todo (i + 1) { sdEntry with pd := Function.update sdEntry.pd i pd } host

/-- `i40e_hmc_sd_allocate`; `sdEntry` is the entry as it was. -/
def i40eHmcSdAllocate (sdEntry : SdEntry) (sdIndex : Nat) (host : Host) : Option SdEntry × Host :=
  match host.dmaAlloc pagedBpSize with
  | (none, host) => (none, host)
  | (some pdAddrs, host) =>
      match sdPages maxBpCount 0 { sdEntry with pdAddrs } host with
      | (none, host) => (none, host)
      | (some sdEntry, host) => (some sdEntry, i40eSetPfSdEntry sdEntry.pdAddrs.addrDma sdIndex host)

/-- `i40e_hmc_sd_release`. -/
def i40eHmcSdRelease (sdEntry : SdEntry) (sdIndex : Nat) (host : Host) : Host :=
  let host := (List.range maxBpCount).foldl
    (fun host i => (host.write32 pfhmcPdinv (sdIndex <<< 0 ||| i <<< 16)).dmaFree (sdEntry.pd i))
    (i40eClearPfSdEntry sdIndex host)
  host.dmaFree sdEntry.pdAddrs

/-- The loop of `i40e_hmc_configure` over the entries from `i` on, with `todo` to go. -/
def sdEntries : Nat → Nat → (Nat → SdEntry) → Host → Option (Nat → SdEntry) × Host
  | 0, _, sdEntry, host => (some sdEntry, host)
  | todo + 1, i, sdEntry, host =>
      match i40eHmcSdAllocate (sdEntry i) i host with
      | (none, host) =>
          (none, (List.range i).foldl (fun host j => i40eHmcSdRelease (sdEntry j) j host) host)
      | (some entry, host) => sdEntries todo (i + 1) (Function.update sdEntry i entry) host

/-! ## `i40e_hmc_init` -/

/-- `i40e_hmc_configure` of function `pfId`. -/
def i40eHmcConfigure (pfId : Nat) (hmc : I40eHmc) (host : Host) : Option I40eHmc × Host :=
  match sdEntries hmc.sdCount 0 hmc.sdEntry host with
  | (none, host) => (none, host)
  | (some sdEntry, host) =>
      let host := host.write32 (glhmcLantxbase pfId) ((hmc.objTx.base &&& fpmlanbaseMask) / 512)
      let host := host.write32 (glhmcLantxcnt pfId) hmc.objTx.count
      let host := host.write32 (glhmcLanrxbase pfId) ((hmc.objRx.base &&& fpmlanbaseMask) / 512)
      let host := host.write32 (glhmcLanrxcnt pfId) hmc.objRx.count
      (some { hmc with sdEntry }, host)

/-- The objects and the number of segment descriptors that `i40e_hmc_init` computes. -/
def hmcSizes (queueMax objSizeTx objSizeRx : Nat) (sdEntry : Nat → SdEntry) : I40eHmc :=
  let fpmSize := (objSizeTx + objSizeRx) % 2 ^ 64
  let objTx : HmcObj := { count := queueMax, base := 0, size := objSizeTx }
  let objRx : HmcObj :=
    { count := queueMax
      base := (objTx.base + align (queueMax * objSizeTx % 2 ^ 64) l2objBaseAlignment) % 2 ^ 64
      size := objSizeRx }
  { objTx, objRx, sdEntry, sdCount := (fpmSize + directBpSize - 1) % 2 ^ 64 / directBpSize % 2 ^ 32 }

/-- `i40e_hmc_init`; `malloc` is the block for the table, with what it holds, and `none`
is -1. -/
def i40eHmcInit (malloc : Option (Nat → SdEntry)) (pfId : Nat) (host : Host) : Option I40eHmc × Host :=
  let queueMax := host.regs glhmcLanqmax
  let objSizeTx := 1 <<< host.regs glhmcLantxobjsz
  let objSizeRx := 1 <<< host.regs glhmcLanrxobjsz
  match malloc with
  | none => (none, host)
  | some sdEntry => i40eHmcConfigure pfId (hmcSizes queueMax objSizeTx objSizeRx sdEntry) host

/-- `i40e_hmc_va`; `none` is `NULL`. -/
def i40eHmcVa (hmc : I40eHmc) (obj : HmcObj) (qpIdx : Nat) : Option Nat :=
  let addrFpm := (qpIdx * obj.size + obj.base) % 2 ^ 64
  let pageIdx := addrFpm / pagedBpSize % 2 ^ 32
  let sdIdx := pageIdx / maxBpCount
  let pdIdx := pageIdx % maxBpCount
  let offset := addrFpm % pagedBpSize
  if sdIdx ≥ hmc.sdCount then none
  else some (((hmc.sdEntry sdIdx).pd pdIdx).addrVirt + offset)

/-! ## The pages -/

/-- The page that the `k`-th call to `ufp_dev_dma_alloc` answered with. -/
def Host.PageOf (host : Host) (k : Nat) (pd : DevBuf) : Prop :=
  host.dma k = some (pd.addrVirt, pd.addrDma)

section Pages

variable {host host' : Host} {sdEntry entry : SdEntry} {todo i : Nat}

theorem Host.dmaAlloc_some {size : Nat} {buf : DevBuf} (granted : host.dmaAlloc size = (some buf, host')) :
    host.PageOf host.calls buf ∧ host' = { host with calls := host.calls + 1 } := by
  simp only [dmaAlloc, Prod.mk.injEq, Option.map_eq_some_iff] at granted
  obtain ⟨⟨answer, known, rfl⟩, rfl⟩ := granted
  exact ⟨known, rfl⟩

theorem sdPages_some (ran : sdPages todo i sdEntry host = (some entry, host')) :
    host'.dma = host.dma ∧ host'.calls = host.calls + todo ∧ (∀ j < i, entry.pd j = sdEntry.pd j) ∧
      ∀ j < todo, host.PageOf (host.calls + j) (entry.pd (i + j)) := by
  induction todo generalizing i sdEntry host with
  | zero =>
      obtain ⟨rfl, rfl⟩ := ran
      exact ⟨rfl, rfl, fun _ _ => rfl, fun j inside => absurd inside (Nat.not_lt_zero j)⟩
  | succ todo ih =>
      rw [sdPages] at ran
      rcases answer : host.dmaAlloc pagedBpSize with ⟨_ | pd, host₁⟩
      · rw [answer] at ran
        cases ran
      · rw [answer] at ran
        obtain ⟨page, rfl⟩ := Host.dmaAlloc_some answer
        obtain ⟨dma, calls, before, pages⟩ := ih ran
        refine ⟨dma, calls.trans (show host.calls + 1 + todo = _ by omega), fun j inside => ?_, fun j inside => ?_⟩
        · rw [before j (by omega)]
          exact Function.update_of_ne (by omega) _ _
        · cases j with
          | zero =>
              have here : entry.pd i = pd := (before i (by omega)).trans (Function.update_self _ _ _)
              rw [Nat.add_zero, Nat.add_zero, here]
              exact page
          | succ j =>
              have later := pages j (by omega)
              rw [show i + (j + 1) = i + 1 + j by omega, show host.calls + (j + 1) = host.calls + 1 + j by omega]
              exact later

/-- An entry takes 513 pages; the first holds the addresses of the others. -/
theorem i40eHmcSdAllocate_some {sdIndex : Nat}
    (ran : i40eHmcSdAllocate sdEntry sdIndex host = (some entry, host')) :
    host'.dma = host.dma ∧ host'.calls = host.calls + 513 ∧
      ∀ j < maxBpCount, host.PageOf (host.calls + 1 + j) (entry.pd j) := by
  rw [i40eHmcSdAllocate] at ran
  rcases answer : host.dmaAlloc pagedBpSize with ⟨_ | pdAddrs, host₁⟩
  · rw [answer] at ran
    cases ran
  · rw [answer] at ran
    obtain ⟨-, rfl⟩ := Host.dmaAlloc_some answer
    dsimp only at ran
    rcases loop : sdPages maxBpCount 0 { sdEntry with pdAddrs } { host with calls := host.calls + 1 }
      with ⟨_ | filled, host₂⟩
    · rw [loop] at ran
      cases ran
    · rw [loop] at ran
      obtain ⟨rfl, rfl⟩ := ran
      obtain ⟨dma, calls, -, pages⟩ := sdPages_some loop
      refine ⟨dma, calls.trans ?_, fun j inside => ?_⟩
      · show host.calls + 1 + maxBpCount = host.calls + 513
        rw [maxBpCount]
      · have page := pages j inside
        rwa [Nat.zero_add] at page

/-- The call that answered with page `j` of entry `sd`. -/
def pageCall (calls sd j : Nat) : Nat := calls + 513 * sd + 1 + j

theorem sdEntries_some {entries entries' : Nat → SdEntry}
    (ran : sdEntries todo i entries host = (some entries', host')) :
    host'.dma = host.dma ∧ host'.calls = host.calls + 513 * todo ∧
      (∀ sd < i, entries' sd = entries sd) ∧
      ∀ sd < todo, ∀ j < maxBpCount, host.PageOf (pageCall host.calls sd j) ((entries' (i + sd)).pd j) := by
  induction todo generalizing i entries host with
  | zero =>
      obtain ⟨rfl, rfl⟩ := ran
      exact ⟨rfl, rfl, fun _ _ => rfl, fun sd inside => absurd inside (Nat.not_lt_zero sd)⟩
  | succ todo ih =>
      rw [sdEntries] at ran
      rcases answer : i40eHmcSdAllocate (entries i) i host with ⟨_ | entry, host₁⟩
      · rw [answer] at ran
        cases ran
      · rw [answer] at ran
        obtain ⟨dma, calls, pages⟩ := i40eHmcSdAllocate_some answer
        obtain ⟨dma', calls', before, later⟩ := ih ran
        refine ⟨dma'.trans dma, by omega, fun sd inside => ?_, fun sd inside j below => ?_⟩
        · rw [before sd (by omega)]
          exact Function.update_of_ne (by omega) _ _
        · cases sd with
          | zero =>
              have here : entries' i = entry := (before i (by omega)).trans (Function.update_self _ _ _)
              rw [Nat.add_zero, here]
              exact pages j below
          | succ sd =>
              have page := later sd (by omega) j below
              rw [Host.PageOf, dma, calls] at page
              rw [Host.PageOf, show i + (sd + 1) = i + 1 + sd by omega,
                show pageCall host.calls (sd + 1) j = pageCall (host.calls + 513) sd j by
                  unfold pageCall; omega]
              exact page

end Pages

/-! ## What a successful `i40e_hmc_init` leaves -/

/-- The objects of a direction. -/
def I40eHmc.obj (hmc : I40eHmc) : Dir → HmcObj
  | .tx => hmc.objTx
  | .rx => hmc.objRx

/-- What `i40e_hmc_init` computes and allocates. -/
structure Made (host host' : Host) (hmc : I40eHmc) : Prop where
  sizes : ∃ sdEntry, hmc = { hmcSizes (host.regs glhmcLanqmax) (1 <<< host.regs glhmcLantxobjsz)
    (1 <<< host.regs glhmcLanrxobjsz) sdEntry with sdEntry := hmc.sdEntry }
  calls : host'.calls = host.calls + 513 * hmc.sdCount
  pages : ∀ sd < hmc.sdCount, ∀ j < maxBpCount,
    host.PageOf (pageCall host.calls sd j) ((hmc.sdEntry sd).pd j)

/-- What registers of 11 and 4 bits can hold. -/
structure Host.InRange (host : Host) : Prop where
  queues : host.regs glhmcLanqmax < 2 ^ 11
  sizeTx : host.regs glhmcLantxobjsz < 2 ^ 4
  sizeRx : host.regs glhmcLanrxobjsz < 2 ^ 4

section Init

variable {malloc : Option (Nat → SdEntry)} {pfId : Nat} {host host' : Host} {hmc : I40eHmc}

theorem i40eHmcInit_some (ran : i40eHmcInit malloc pfId host = (some hmc, host')) : Made host host' hmc := by
  unfold i40eHmcInit at ran
  cases malloc with
  | none => cases ran
  | some entries =>
      dsimp only at ran
      generalize sizes : hmcSizes _ _ _ entries = hmc₀ at ran
      rw [i40eHmcConfigure] at ran
      rcases loop : sdEntries hmc₀.sdCount 0 hmc₀.sdEntry host with ⟨_ | sdEntry, host₁⟩
      · rw [loop] at ran
        cases ran
      · rw [loop] at ran
        obtain ⟨rfl, rfl⟩ := ran
        obtain ⟨-, calls, -, pages⟩ := sdEntries_some loop
        refine ⟨⟨entries, by rw [sizes]⟩, calls, fun sd inside j below => ?_⟩
        have page := pages sd inside j below
        rwa [Nat.zero_add] at page

/-- With the registers of 11 and 4 bits, the TX contexts come first, the RX contexts from the
next multiple of 512 on, and there is one segment descriptor. -/
theorem Made.layout (made : Made host host' hmc) (range : host.InRange) :
    hmc.objTx = ⟨0, host.regs glhmcLanqmax, 2 ^ host.regs glhmcLantxobjsz⟩ ∧
      hmc.objRx = ⟨(host.regs glhmcLanqmax * 2 ^ host.regs glhmcLantxobjsz + 511) / 512 * 512,
        host.regs glhmcLanqmax, 2 ^ host.regs glhmcLanrxobjsz⟩ ∧ hmc.sdCount = 1 := by
  obtain ⟨entries, sizes⟩ := made.sizes
  obtain ⟨queues, sizeTx, sizeRx⟩ := range
  generalize host.regs glhmcLanqmax = queueMax at queues sizes ⊢
  generalize host.regs glhmcLantxobjsz = tx at sizeTx sizes ⊢
  generalize host.regs glhmcLanrxobjsz = rx at sizeRx sizes ⊢
  rw [Nat.one_shiftLeft, Nat.one_shiftLeft] at sizes
  have boundTx : 2 ^ tx ≤ 2 ^ 15 := Nat.pow_le_pow_right (by decide) (by omega)
  have boundRx : 2 ^ rx ≤ 2 ^ 15 := Nat.pow_le_pow_right (by decide) (by omega)
  have posTx := Nat.two_pow_pos tx
  have all : queueMax * 2 ^ tx ≤ 2 ^ 11 * 2 ^ 15 := Nat.mul_le_mul (by omega) boundTx
  have base : align (queueMax * 2 ^ tx % 2 ^ 64) l2objBaseAlignment =
      (queueMax * 2 ^ tx + 511) / 512 * 512 := by
    rw [Nat.mod_eq_of_lt (by omega)]
    exact align_eq (k := 9) (by omega) (by omega)
  rw [sizes]
  refine ⟨rfl, ?_, ?_⟩
  · show HmcObj.mk ((0 + align (queueMax * 2 ^ tx % 2 ^ 64) l2objBaseAlignment) % 2 ^ 64) _ _ = _
    rw [base, Nat.zero_add, Nat.mod_eq_of_lt (by omega)]
  · show ((2 ^ tx + 2 ^ rx) % 2 ^ 64 + directBpSize - 1) % 2 ^ 64 / directBpSize % 2 ^ 32 = 1
    unfold directBpSize
    generalize 2 ^ tx = x at boundTx posTx
    generalize 2 ^ rx = y at boundRx
    rw [Nat.mod_eq_of_lt (show x + y < 2 ^ 64 by omega), Nat.mod_eq_of_lt (by omega)]
    omega

/-- The memory of a context, when its address in the private space is below 2^44. -/
theorem i40eHmcVa_eq {obj : HmcObj} {qpIdx : Nat} (small : qpIdx * obj.size + obj.base < 2 ^ 44) :
    i40eHmcVa hmc obj qpIdx =
      if (qpIdx * obj.size + obj.base) / 2 ^ 21 ≥ hmc.sdCount then none
      else some (((hmc.sdEntry ((qpIdx * obj.size + obj.base) / 2 ^ 21)).pd
        ((qpIdx * obj.size + obj.base) / 2 ^ 12 % 2 ^ 9)).addrVirt + (qpIdx * obj.size + obj.base) % 2 ^ 12) := by
  have page : (qpIdx * obj.size + obj.base) / pagedBpSize % 2 ^ 32 =
      (qpIdx * obj.size + obj.base) / 2 ^ 12 := by
    unfold pagedBpSize
    omega
  have sd : (qpIdx * obj.size + obj.base) / 2 ^ 12 / maxBpCount = (qpIdx * obj.size + obj.base) / 2 ^ 21 := by
    unfold maxBpCount
    omega
  have whole : (qpIdx * obj.size + obj.base) % 2 ^ 64 = qpIdx * obj.size + obj.base := by omega
  simp only [i40eHmcVa, whole, page, sd]
  rfl

/-- The address of a context in the private space. -/
def fpmAddr (hmc : I40eHmc) (dir : Dir) (qpIdx : Nat) : Nat := qpIdx * (hmc.obj dir).size + (hmc.obj dir).base

/-- The contexts of all queues end within the first 2 MiB of the private space. -/
def Covered (queueMax tx rx : Nat) : Prop :=
  queueMax = 0 ∨ (queueMax * 2 ^ tx + 511) / 512 * 512 + (queueMax - 1) * 2 ^ rx < 2 ^ 21

instance (queueMax tx rx : Nat) : Decidable (Covered queueMax tx rx) := inferInstanceAs (Decidable (_ ∨ _))

theorem Made.fpmAddr_eq (made : Made host host' hmc) (range : host.InRange) (qpIdx : Nat) :
    fpmAddr hmc .tx qpIdx = qpIdx * 2 ^ host.regs glhmcLantxobjsz ∧
      fpmAddr hmc .rx qpIdx = qpIdx * 2 ^ host.regs glhmcLanrxobjsz +
        (host.regs glhmcLanqmax * 2 ^ host.regs glhmcLantxobjsz + 511) / 512 * 512 := by
  obtain ⟨tx, rx, -⟩ := made.layout range
  rw [fpmAddr, fpmAddr, I40eHmc.obj, I40eHmc.obj, tx, rx]
  exact ⟨rfl, rfl⟩

theorem Made.va_eq (made : Made host host' hmc) (range : host.InRange) (dir : Dir) {qpIdx : Nat}
    (inside : qpIdx < host.regs glhmcLanqmax) :
    i40eHmcVa hmc (hmc.obj dir) qpIdx =
      if fpmAddr hmc dir qpIdx < 2 ^ 21 then
        some (((hmc.sdEntry 0).pd (fpmAddr hmc dir qpIdx / 2 ^ 12)).addrVirt + fpmAddr hmc dir qpIdx % 2 ^ 12)
      else none := by
  obtain ⟨-, -, count⟩ := made.layout range
  obtain ⟨atTx, atRx⟩ := made.fpmAddr_eq range qpIdx
  have small : fpmAddr hmc dir qpIdx < 2 ^ 44 := by
    obtain ⟨queues, sizeTx, sizeRx⟩ := range
    have boundTx : 2 ^ host.regs glhmcLantxobjsz ≤ 2 ^ 15 := Nat.pow_le_pow_right (by decide) (by omega)
    have boundRx : 2 ^ host.regs glhmcLanrxobjsz ≤ 2 ^ 15 := Nat.pow_le_pow_right (by decide) (by omega)
    have all : host.regs glhmcLanqmax * 2 ^ host.regs glhmcLantxobjsz ≤ 2 ^ 11 * 2 ^ 15 :=
      Nat.mul_le_mul (by omega) boundTx
    cases dir with
    | tx =>
        have here : qpIdx * 2 ^ host.regs glhmcLantxobjsz ≤ 2 ^ 11 * 2 ^ 15 := Nat.mul_le_mul (by omega) boundTx
        omega
    | rx =>
        have here : qpIdx * 2 ^ host.regs glhmcLanrxobjsz ≤ 2 ^ 11 * 2 ^ 15 := Nat.mul_le_mul (by omega) boundRx
        omega
  rw [i40eHmcVa_eq small, count]
  rw [fpmAddr] at small ⊢
  generalize qpIdx * (hmc.obj dir).size + (hmc.obj dir).base = addr
  by_cases below : addr < 2 ^ 21
  · rw [if_pos below, if_neg (by omega), show addr / 2 ^ 21 = 0 by omega,
      show addr / 2 ^ 12 % 2 ^ 9 = addr / 2 ^ 12 by omega]
  · rw [if_neg below, if_pos (by omega)]

theorem Made.backed_iff (made : Made host host' hmc) (range : host.InRange) :
    (∀ qpIdx < host.regs glhmcLanqmax,
      i40eHmcVa hmc hmc.objTx qpIdx ≠ none ∧ i40eHmcVa hmc hmc.objRx qpIdx ≠ none) ↔
    Covered (host.regs glhmcLanqmax) (host.regs glhmcLantxobjsz) (host.regs glhmcLanrxobjsz) := by
  have addrs := made.fpmAddr_eq range
  have found : ∀ (dir : Dir) {qpIdx}, qpIdx < host.regs glhmcLanqmax →
      (i40eHmcVa hmc (hmc.obj dir) qpIdx ≠ none ↔ fpmAddr hmc dir qpIdx < 2 ^ 21) := by
    intro dir qpIdx inside
    rw [made.va_eq range dir inside]
    split_ifs with below
    · exact ⟨fun _ => below, fun _ => nofun⟩
    · exact ⟨fun differ => absurd rfl differ, fun near => absurd near below⟩
  generalize host.regs glhmcLanqmax = queueMax at *
  unfold Covered
  constructor
  · -- the last RX context is the one with the highest address
    intro all
    by_cases none : queueMax = 0
    · exact .inl none
    · have last := (found .rx (show queueMax - 1 < queueMax by omega)).mp (all (queueMax - 1) (by omega)).2
      rw [(addrs _).2] at last
      exact .inr (by omega)
  · rintro (rfl | room) qpIdx inside
    · exact absurd inside (Nat.not_lt_zero _)
    · refine ⟨(found .tx inside).mpr ?_, (found .rx inside).mpr ?_⟩
      · have before := Nat.mul_le_mul_right (2 ^ host.regs glhmcLantxobjsz) (show qpIdx ≤ queueMax by omega)
        rw [(addrs qpIdx).1]
        omega
      · have before := Nat.mul_le_mul_right (2 ^ host.regs glhmcLanrxobjsz) (show qpIdx ≤ queueMax - 1 by omega)
        rw [(addrs qpIdx).2]
        omega

/-- **Every queue has backing exactly when the contexts end within 2 MiB.** The number of
segment descriptors is computed from the size of one TX and one RX context, not from those
of all queues, so that there is always one. -/
theorem hmc_backing_iff (ran : i40eHmcInit malloc pfId host = (some hmc, host'))
    (queues : host.regs glhmcLanqmax < 2 ^ 11) (sizeTx : host.regs glhmcLantxobjsz < 2 ^ 4)
    (sizeRx : host.regs glhmcLanrxobjsz < 2 ^ 4) :
    (∀ qpIdx < host.regs glhmcLanqmax,
      i40eHmcVa hmc hmc.objTx qpIdx ≠ none ∧ i40eHmcVa hmc hmc.objRx qpIdx ≠ none) ↔
    Covered (host.regs glhmcLanqmax) (host.regs glhmcLantxobjsz) (host.regs glhmcLanrxobjsz) :=
  (i40eHmcInit_some ran).backed_iff ⟨queues, sizeTx, sizeRx⟩

end Init

/-! ## Allocations that all succeed -/

section Granted

variable {host : Host} (granted : ∀ k, (host.dma k).isSome = true)
include granted

theorem Host.dmaAlloc_granted (size : Nat) :
    ∃ buf, host.dmaAlloc size = (some buf, { host with calls := host.calls + 1 }) := by
  obtain ⟨answer, known⟩ := Option.isSome_iff_exists.mp (granted host.calls)
  exact ⟨⟨answer.1, answer.2, size⟩, by rw [dmaAlloc, known]; rfl⟩

theorem sdPages_granted (todo i : Nat) (sdEntry : SdEntry) :
    ∃ entry host', sdPages todo i sdEntry host = (some entry, host') := by
  induction todo generalizing i sdEntry host with
  | zero => exact ⟨sdEntry, host, rfl⟩
  | succ todo ih =>
      obtain ⟨pd, answer⟩ := Host.dmaAlloc_granted granted pagedBpSize
      simp only [sdPages, answer]
      refine ih (fun k => ?_) _ _
      exact granted k

theorem i40eHmcSdAllocate_granted (sdEntry : SdEntry) (sdIndex : Nat) :
    ∃ entry host', i40eHmcSdAllocate sdEntry sdIndex host = (some entry, host') := by
  obtain ⟨pdAddrs, answer⟩ := Host.dmaAlloc_granted granted pagedBpSize
  obtain ⟨entry, host', loop⟩ := @sdPages_granted { host with calls := host.calls + 1 } granted
    maxBpCount 0 { sdEntry with pdAddrs }
  simp only [i40eHmcSdAllocate, answer, loop]
  exact ⟨_, _, rfl⟩

theorem sdEntries_granted (todo i : Nat) (entries : Nat → SdEntry) :
    ∃ entries' host', sdEntries todo i entries host = (some entries', host') := by
  induction todo generalizing i entries host with
  | zero => exact ⟨entries, host, rfl⟩
  | succ todo ih =>
      obtain ⟨entry, host₁, answer⟩ := i40eHmcSdAllocate_granted granted (entries i) i
      simp only [sdEntries, answer]
      refine ih (fun k => ?_) _ _
      rw [(i40eHmcSdAllocate_some answer).1]
      exact granted k

theorem i40eHmcConfigure_granted (hmc : I40eHmc) (pfId : Nat) :
    ∃ hmc' host', i40eHmcConfigure pfId hmc host = (some hmc', host') := by
  obtain ⟨entries', host', loop⟩ := sdEntries_granted granted hmc.sdCount 0 hmc.sdEntry
  simp only [i40eHmcConfigure, loop]
  exact ⟨_, _, rfl⟩

theorem i40eHmcInit_granted (entries : Nat → SdEntry) (pfId : Nat) :
    ∃ hmc host', i40eHmcInit (some entries) pfId host = (some hmc, host') :=
  i40eHmcConfigure_granted granted _ pfId

end Granted

/-- A device with registers of these values; every page is granted, each at a place of its own. -/
def sampleBacking (queueMax tx rx : Nat) : Host where
  mem := fun _ => 0
  regs := fun reg =>
    if reg = glhmcLanqmax then queueMax else if reg = glhmcLantxobjsz then tx
    else if reg = glhmcLanrxobjsz then rx else 0
  dma := fun k => some (4096 * (k + 1), 4096 * (k + 1))
  calls := 0
  freed := []

def sampleTable : Nat → SdEntry := fun _ => ⟨⟨0, 0, 0⟩, fun _ => ⟨0, 0, 0⟩⟩

theorem sampleBacking_made (queueMax tx rx : Nat) :
    ∃ hmc host', i40eHmcInit (some sampleTable) 0 (sampleBacking queueMax tx rx) = (some hmc, host') :=
  i40eHmcInit_granted (fun _ => rfl) sampleTable 0

/-- Contexts of 128 and 32 bytes, for 1536 queues. -/
theorem hmc_backing_iff_sample :
    ∃ hmc host', i40eHmcInit (some sampleTable) 0 (sampleBacking 1536 7 5) = (some hmc, host') ∧
      ∀ qpIdx < 1536, i40eHmcVa hmc hmc.objTx qpIdx ≠ none ∧ i40eHmcVa hmc hmc.objRx qpIdx ≠ none := by
  obtain ⟨hmc, host', ran⟩ := sampleBacking_made 1536 7 5
  have covered : Covered ((sampleBacking 1536 7 5).regs glhmcLanqmax)
      ((sampleBacking 1536 7 5).regs glhmcLantxobjsz) ((sampleBacking 1536 7 5).regs glhmcLanrxobjsz) := by
    decide
  exact ⟨hmc, host', ran, (hmc_backing_iff ran (by decide) (by decide) (by decide)).mpr covered⟩

/-- With contexts of 1 KiB, the last of 2047 queues has no RX context. -/
theorem hmc_backing_short :
    ∃ hmc host', i40eHmcInit (some sampleTable) 0 (sampleBacking 2047 10 10) = (some hmc, host') ∧
      i40eHmcVa hmc hmc.objRx 2046 = none := by
  obtain ⟨hmc, host', ran⟩ := sampleBacking_made 2047 10 10
  have made := i40eHmcInit_some ran
  have range : (sampleBacking 2047 10 10).InRange := ⟨by decide, by decide, by decide⟩
  refine ⟨hmc, host', ran, (made.va_eq range .rx (by decide)).trans ?_⟩
  rw [(made.fpmAddr_eq range 2046).2]
  exact if_neg (by decide)

end Ufp.Dev.Hmc
