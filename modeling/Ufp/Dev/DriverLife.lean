/-
# Ufp.Dev.DriverLife — what the i40e driver holds while a device is open

The driver's part of a device's life, in the manner of `Ufp.Lib.DeviceLife`: DMA memory
(`ufp_dev_dma_alloc`), the two admin queues, the sessions of admin commands, the elements
of the switch configuration and the pages behind the HMC. `i40eDriver` is the table that
`i40e_ops_init` fills in, with what the library may rely on.

`ufp_dev_dma_free` does not free the `struct ufp_dev_buf` itself, and nothing frees the
`struct i40e_iface`: these stay behind also when all goes well. A failure may leave the
array of buffers of an admin queue and the elements of the switch configuration.

`device_life` is about a device handle under any sequence of `ufp_open`, `ufp_up`,
`ufp_down` and `ufp_close`, with any of the requests refused on the way.
-/
import Ufp.Lib.DeviceLife

namespace Ufp.Dev.Life

open Ufp.Theory.Acquire Ufp.Lib.Life

set_option autoImplicit false

variable {terms : Terms Kind} {granted : Set Kind}

/-! ## DMA memory -/

structure UfpDevBuf where
  buf : Nat
  addrVirt : Nat
  addrDma : Nat

/-- What `ufp_dev_dma_free` gives back. -/
def UfpDevBuf.own (buf : UfpDevBuf) : Things Kind :=
  {(.dmaMap, buf.addrDma)} + {(.devPages, buf.addrVirt)}

/-- `ufp_dev_dma_alloc`. -/
def ufpDevDmaAlloc : Attempt Kind UfpDevBuf := do
  let buf ← take .devBuf
  onError (give .devBuf buf) do
    let addrVirt ← take .devPages
    onError (give .devPages addrVirt) do
      let addrDma ← take .dmaMap
      return { buf, addrVirt, addrDma }

/-- `ufp_dev_dma_free`. -/
def ufpDevDmaFree (buf : UfpDevBuf) : World Kind → World Kind :=
  inOrder [give .dmaMap buf.addrDma, give .devPages buf.addrVirt]

theorem ufpDevDmaFree_undoes (buf : UfpDevBuf) : Undoes granted (ufpDevDmaFree buf) buf.own 0 :=
  (Undoes.give _ _ _).cons ((Undoes.giveLast _ _).cons (Undoes.nil _))

theorem ufpDevDmaAlloc_gets (lossy : Kind.devBuf ∈ terms.lossy) :
    Gets terms 0 ufpDevDmaAlloc UfpDevBuf.own 0 {Kind.devBuf} := by
  refine Gets.takeGuard fun buf => Gets.takeGuard fun addrVirt => (Gets.take _ _).andThen fun addrDma => ?_
  refine Gets.losing {(Kind.devBuf, buf)} ?_ (by simp) (by simpa using lossy)
  simp only [UfpDevBuf.own, add_zero]
  abel

/-! ## Admin queues -/

/-- `I40E_AQ_LEN`. -/
def aqLen : Nat := 128

/-- The memory of a ring. -/
structure AqMem where
  desc : UfpDevBuf
  bufs : Nat
  pages : List UfpDevBuf

structure AqRing where
  ring : Nat
  mem : AqMem

def AqMem.own (mem : AqMem) : Things Kind :=
  (mem.pages.map UfpDevBuf.own).sum + ({(.aqBufs, mem.bufs)} + mem.desc.own)

/-- `i40e_aq_ring_alloc`. -/
def i40eAqRingAlloc : Attempt Kind AqMem := do
  let desc ← ufpDevDmaAlloc
  onError (ufpDevDmaFree desc) do
    let bufs ← take .aqBufs
    -- `err_page_alloc` runs into `err_buf_alloc`: the array stays
    let pages ← collect (fun _ => ufpDevDmaAlloc) ufpDevDmaFree aqLen
    return { desc, bufs, pages }

/-- `i40e_aq_ring_release`. -/
def i40eAqRingRelease (mem : AqMem) : World Kind → World Kind :=
  inOrder [releaseAll ufpDevDmaFree mem.pages, give .aqBufs mem.bufs, ufpDevDmaFree mem.desc]

/-- `i40e_aq_asq_init` and `i40e_aq_arq_init`, which differ in the registers; the last step
is `i40e_aq_asq_configure` or `i40e_aq_arq_configure`. -/
def i40eAqRingInit : Attempt Kind AqRing := do
  let ring ← take .aqRing
  onError (give .aqRing ring) do
    let mem ← i40eAqRingAlloc
    onError (i40eAqRingRelease mem) do
      ask .call
      return { ring, mem }

/-- `i40e_aq_asq_shutdown` and `i40e_aq_arq_shutdown`. -/
def i40eAqRingShutdown (ring : AqRing) : World Kind → World Kind :=
  inOrder [i40eAqRingRelease ring.mem, give .aqRing ring.ring]

structure Aq where
  txRing : AqRing
  rxRing : AqRing

/-- `i40e_aq_init`. -/
def i40eAqInit : Attempt Kind Aq := do
  let txRing ← i40eAqRingInit
  onError (i40eAqRingShutdown txRing) do
    let rxRing ← i40eAqRingInit
    return { txRing, rxRing }

/-- An admin command: a session, the request, and the wait for its answer. So are
`i40e_rxctl_read`, `i40e_rxctl_write`, `i40e_firmware_version`, `i40e_driver_version`,
`i40e_clear_pxemode`, `i40e_stop_lldp`, `i40e_macaddr_read`, `i40e_set_phyintmask`,
`i40e_set_swconf`, `i40e_vsi_update`, `i40e_vsi_get` and `i40e_vsi_promisc_mode`. -/
def i40eCommand : Attempt Kind Unit := do
  let session ← take .session
  always (give .session session) do
    ask .call
    ask .call

/-- `i40e_aq_destroy`. -/
def i40eAqDestroy (aq : Aq) : World Kind → World Kind :=
  inOrder [regardless i40eCommand, i40eAqRingShutdown aq.txRing, i40eAqRingShutdown aq.rxRing]

def AqRing.own (ring : AqRing) : Things Kind := ring.mem.own + {(.aqRing, ring.ring)}

def Aq.own (aq : Aq) : Things Kind := aq.txRing.own + aq.rxRing.own

/-- What an admin queue costs for good. -/
def ringLost : Multiset Kind := aqLen • {Kind.devBuf} + {Kind.devBuf}

theorem i40eCommand_gets (pre : Things Kind) : Gets terms pre i40eCommand (fun _ => pre) pre 0 := by
  refine Gets.takeScope fun session => ?_
  exact (Gets.ask _ _).andThen fun _ => Gets.ask _ _

theorem i40eAqRingRelease_undoes (mem : AqMem) : Undoes granted (i40eAqRingRelease mem) mem.own 0 := by
  refine ((Undoes.releaseAll ufpDevDmaFree_undoes _).frame _).cons ((Undoes.give _ _ _).cons ?_)
  exact (ufpDevDmaFree_undoes _).cons (Undoes.nil _)

theorem i40eAqRingShutdown_undoes (ring : AqRing) : Undoes granted (i40eAqRingShutdown ring) ring.own 0 :=
  ((i40eAqRingRelease_undoes _).frame _).cons ((Undoes.giveLast _ _).cons (Undoes.nil _))

theorem i40eAqRingAlloc_gets (buf : Kind.devBuf ∈ terms.lossy) (bufs : Kind.aqBufs ∈ terms.lossy) :
    Gets terms 0 i40eAqRingAlloc AqMem.own 0 ringLost := by
  refine Gets.guardLosing (ufpDevDmaAlloc_gets buf) ufpDevDmaFree_undoes fun desc => ?_
  refine (Gets.take _ _).andThen fun name => ?_
  have pages := Gets.collectSame (ufpDevDmaAlloc_gets buf) ufpDevDmaFree_undoes aqLen
  refine ((pages.frame _).abandon _ ?_).thenFree fun pages => Gets.pure (by simp [AqMem.own])
  simpa using bufs

theorem i40eAqRingInit_gets (buf : Kind.devBuf ∈ terms.lossy) (bufs : Kind.aqBufs ∈ terms.lossy) :
    Gets terms 0 i40eAqRingInit AqRing.own 0 ringLost := by
  refine Gets.takeGuard fun ring => ?_
  have later : ∀ mem : AqMem, Gets terms (mem.own + ({(Kind.aqRing, ring)} + 0))
      (ask .call >>= fun _ => pure { ring, mem }) AqRing.own (mem.own + ({(Kind.aqRing, ring)} + 0)) 0 :=
    fun mem => (Gets.ask _ _).andThen fun _ => Gets.pure (by simp [AqRing.own])
  simpa using Gets.guardLosing (i40eAqRingAlloc_gets buf bufs) i40eAqRingRelease_undoes later

theorem i40eAqInit_gets (buf : Kind.devBuf ∈ terms.lossy) (bufs : Kind.aqBufs ∈ terms.lossy) :
    Gets terms 0 i40eAqInit Aq.own 0 (ringLost + ringLost) := by
  refine Gets.guardLosing (i40eAqRingInit_gets buf bufs) i40eAqRingShutdown_undoes fun txRing => ?_
  exact ((i40eAqRingInit_gets buf bufs).frame _).thenFree fun rxRing => Gets.pure (by simp [Aq.own, add_comm])

theorem i40eAqDestroy_undoes (aq : Aq) : Undoes granted (i40eAqDestroy aq) aq.own 0 := by
  refine (Undoes.regardless (i40eCommand_gets _)).cons (((i40eAqRingShutdown_undoes _).frame _).cons ?_)
  exact (i40eAqRingShutdown_undoes _).cons (Undoes.nil _)

/-! ## The switch configuration -/

/-- What the hardware and the firmware are like when the device is opened: whether this is
function 0, how many elements each answer to `get_swconf` reports, whether one of them is
a VSI, and the number of segments of the HMC. -/
structure Nic where
  firstPf : Bool
  reported : List Nat
  hasVsi : Bool
  sdCount : Nat

/-- `i40e_clear_swconf`, where the list has these elements. -/
def i40eClearSwconf (elems : List Nat) : World Kind → World Kind := releaseAll (give .elem) elems

/-- `i40e_get_swconf`, when it has `elems` and these answers are to come. An answer that is
in order is read by `i40e_aqc_resp_get_swconf`, which stops at the first element it has no
memory for. -/
def i40eGetSwconf : List Nat → List Nat → Attempt Kind (List Nat)
  | [], elems => pure elems
  | reported :: answers, elems => do
      let found ← onError (i40eClearSwconf elems) do
        let session ← take .session
        always (give .session session) do
          ask .call
          ask .call
          gather .elem reported elems
      onError (i40eClearSwconf found.2) (require found.1)
      i40eGetSwconf answers found.2

/-- `i40e_setup_pf_switch`: the elements; the `struct i40e_iface` is never freed. -/
def i40eSetupPfSwitch (nic : Nic) : Attempt Kind (List Nat) := do
  unlessDone (!nic.firstPf) i40eCommand
  -- `i40e_configure_filter` and `i40e_configure_rss`
  times i40eCommand 2
  times i40eCommand 6
  let elems ← i40eGetSwconf nic.reported []
  onError (i40eClearSwconf elems) do
    require nic.hasVsi
    let _ ← take .drvIface
    return elems

theorem i40eClearSwconf_undoes (elems : List Nat) :
    Undoes granted (i40eClearSwconf elems) (named .elem elems) 0 := Undoes.giveAll _ _

theorem i40eGetSwconf_gets (answers elems : List Nat) :
    Gets terms (named .elem elems) (i40eGetSwconf answers elems) (named .elem) 0 0 := by
  induction answers generalizing elems with
  | nil => exact Gets.pure rfl
  | cons reported answers ih =>
      have page : Gets terms (named .elem elems) (take Kind.session >>= fun session => always (give .session session)
            (ask .call >>= fun _ => ask .call >>= fun _ => gather .elem reported elems))
          (fun found => named .elem found.2) (named .elem elems) 0 := by
        refine (Gets.take _ _).andThen fun session => ?_
        refine Gets.always ?_ (fun found => Undoes.give _ _ (named Kind.elem found.2)) (Undoes.give _ _ _)
        refine (Gets.ask _ _).andThen fun _ => (Gets.ask _ _).andThen fun _ => ?_
        simpa [add_comm] using Gets.gather Kind.elem reported elems {(Kind.session, session)} _
      refine (page.onError (i40eClearSwconf_undoes elems)).andThen fun found => ?_
      exact ((Gets.require _ _).onError (i40eClearSwconf_undoes _)).andThen fun _ => ih found.2

theorem i40eSetupPfSwitch_gets (lossy : Kind.drvIface ∈ terms.lossy) (nic : Nic) :
    Gets terms 0 (i40eSetupPfSwitch nic) (named .elem) 0 {Kind.drvIface} := by
  refine (Gets.unlessDone (i40eCommand_gets _)).andThen fun _ => ((i40eCommand_gets _).times 2).andThen fun _ => ?_
  refine ((i40eCommand_gets _).times 6).andThen fun _ => ?_
  refine Gets.guard (i40eGetSwconf_gets nic.reported []) i40eClearSwconf_undoes fun elems => ?_
  refine (Gets.require _ _).andThen fun _ => (Gets.take _ _).andThen fun iface => ?_
  exact Gets.losing {(Kind.drvIface, iface)} (by simp) (by simp) (by simpa using lossy)

/-! ## The HMC -/

/-- `I40E_HMC_MAX_BP_COUNT`. -/
def hmcMaxBpCount : Nat := 512

structure SdEntry where
  pdAddrs : UfpDevBuf
  pd : List UfpDevBuf

def SdEntry.own (entry : SdEntry) : Things Kind := (entry.pd.map UfpDevBuf.own).sum + entry.pdAddrs.own

/-- `i40e_hmc_sd_allocate`. -/
def i40eHmcSdAllocate : Attempt Kind SdEntry := do
  let pdAddrs ← ufpDevDmaAlloc
  onError (ufpDevDmaFree pdAddrs) do
    let pd ← collect (fun _ => ufpDevDmaAlloc) ufpDevDmaFree hmcMaxBpCount
    return { pdAddrs, pd }

/-- `i40e_hmc_sd_release`. -/
def i40eHmcSdRelease (entry : SdEntry) : World Kind → World Kind :=
  inOrder [releaseAll ufpDevDmaFree entry.pd, ufpDevDmaFree entry.pdAddrs]

structure HmcTable where
  sdTable : Nat
  entries : List SdEntry

def HmcTable.own (hmc : HmcTable) : Things Kind :=
  (hmc.entries.map SdEntry.own).sum + {(.sdTable, hmc.sdTable)}

/-- `i40e_hmc_init`, with `i40e_hmc_configure`. -/
def i40eHmcInit (sdCount : Nat) : Attempt Kind HmcTable := do
  let sdTable ← take .sdTable
  onError (give .sdTable sdTable) do
    let entries ← collect (fun _ => i40eHmcSdAllocate) i40eHmcSdRelease sdCount
    return { sdTable, entries }

/-- `i40e_hmc_destroy`, with `i40e_hmc_shutdown`. -/
def i40eHmcDestroy (hmc : HmcTable) : World Kind → World Kind :=
  inOrder [releaseAll i40eHmcSdRelease hmc.entries, give .sdTable hmc.sdTable]

/-- What a segment costs for good. -/
def sdLost : Multiset Kind := hmcMaxBpCount • {Kind.devBuf} + {Kind.devBuf}

theorem i40eHmcSdRelease_undoes (entry : SdEntry) : Undoes granted (i40eHmcSdRelease entry) entry.own 0 :=
  ((Undoes.releaseAll ufpDevDmaFree_undoes _).frame _).cons ((ufpDevDmaFree_undoes _).cons (Undoes.nil _))

theorem i40eHmcSdAllocate_gets (buf : Kind.devBuf ∈ terms.lossy) :
    Gets terms 0 i40eHmcSdAllocate SdEntry.own 0 sdLost := by
  refine Gets.guardLosing (ufpDevDmaAlloc_gets buf) ufpDevDmaFree_undoes fun pdAddrs => ?_
  have pages := Gets.collectSame (ufpDevDmaAlloc_gets buf) ufpDevDmaFree_undoes hmcMaxBpCount
  exact (pages.frame _).thenFree fun pd => Gets.pure (by simp [SdEntry.own])

theorem i40eHmcDestroy_undoes (hmc : HmcTable) : Undoes granted (i40eHmcDestroy hmc) hmc.own 0 :=
  ((Undoes.releaseAll i40eHmcSdRelease_undoes _).frame _).cons ((Undoes.giveLast _ _).cons (Undoes.nil _))

theorem i40eHmcInit_gets (buf : Kind.devBuf ∈ terms.lossy) (sdCount : Nat) :
    Gets terms 0 (i40eHmcInit sdCount) HmcTable.own 0 (sdCount • sdLost) := by
  refine Gets.takeGuard fun sdTable => ?_
  have entries := Gets.collectSame (i40eHmcSdAllocate_gets buf) i40eHmcSdRelease_undoes sdCount
  exact (entries.frame _).thenFree fun entries => Gets.pure (by simp [HmcTable.own])

/-! ## The driver -/

structure I40eOpen where
  aq : Aq
  elems : List Nat
  hmc : HmcTable

/-- `i40e_open`, after `i40e_set_pf_id` and `i40e_clear_hw`. -/
def i40eOpen (nic : Nic) : Attempt Kind I40eOpen := do
  -- the three waits of `i40e_reset_hw`
  times (ask .call) 3
  let aq ← i40eAqInit
  onError (i40eAqDestroy aq) do
    -- `i40e_configure_pf`
    times i40eCommand 6
    let elems ← i40eSetupPfSwitch nic
    -- `err_hmc_init` does not clear the switch configuration
    let hmc ← i40eHmcInit nic.sdCount
    return { aq, elems, hmc }

/-- `i40e_close`. -/
def i40eClose (opened : I40eOpen) : World Kind → World Kind :=
  inOrder [i40eHmcDestroy opened.hmc, i40eClearSwconf opened.elems, i40eAqDestroy opened.aq]

def I40eOpen.own (opened : I40eOpen) : Things Kind :=
  opened.hmc.own + (named .elem opened.elems + opened.aq.own)

/-- What an open device costs for good. -/
def openLost (nic : Nic) : Multiset Kind := nic.sdCount • sdLost + {Kind.drvIface} + (ringLost + ringLost)

/-- `i40e_set_rsskey` and `i40e_set_rsslut`, which go through the registers when the
firmware does not know the command; `writes` is then the number of registers that are
written by admin command. -/
def i40eSetRss (byRegister : Bool) (writes : Nat) : Attempt Kind Unit := do
  let session ← take .session
  always (give .session session) do
    ask .call
    ask .call
    unlessDone (!byRegister) (times i40eCommand writes)

/-- `i40e_ops_up` on the one interface. The last four calls are `i40e_vsi_configure_rx`,
`i40e_vsi_configure_tx`, `i40e_vsi_start_rx` and `i40e_vsi_start_tx`. -/
def i40eOpsUp (byRegister : Bool) : Attempt Kind Unit := do
  times i40eCommand 2
  i40eSetRss byRegister 13
  i40eSetRss byRegister 0
  i40eCommand
  times (ask .call) 4

/-- `i40e_ops_down`: the waits of `i40e_vsi_stop_tx` and `i40e_vsi_stop_rx`. -/
def i40eOpsDown : World Kind → World Kind := regardless (times (ask .call) 2)

/-- The kinds that a failed `i40e_open` may cost. -/
def openLossy : Set Kind := {.devBuf, .aqBufs, .drvIface, .elem}

theorem i40eClose_undoes (opened : I40eOpen) : Undoes granted (i40eClose opened) opened.own 0 := by
  refine ((i40eHmcDestroy_undoes _).frame _).cons (((i40eClearSwconf_undoes _).frame _).cons ?_)
  exact (i40eAqDestroy_undoes _).cons (Undoes.nil _)

theorem i40eOpen_gets (lossy : openLossy ⊆ terms.lossy) (nic : Nic) :
    Gets terms 0 (i40eOpen nic) I40eOpen.own 0 (openLost nic) := by
  have buf : Kind.devBuf ∈ terms.lossy := lossy (by simp [openLossy])
  refine ((Gets.ask _ _).times 3).andThen fun _ => ?_
  refine Gets.guardLosing (i40eAqInit_gets buf (lossy (by simp [openLossy]))) i40eAqDestroy_undoes fun aq => ?_
  refine ((i40eCommand_gets _).times 6).andThen fun _ => ?_
  have switch := (i40eSetupPfSwitch_gets (lossy (by simp [openLossy])) nic).frame (aq.own + 0)
  refine switch.bind fun elems => ?_
  have hmc := (i40eHmcInit_gets buf nic.sdCount).frame (named .elem elems + (aq.own + 0))
  refine (hmc.abandon _ fun thing mem => ?_).thenFree fun hmc => Gets.pure (by simp [I40eOpen.own])
  rw [mem_named mem]
  exact lossy (by simp [openLossy])

theorem i40eSetRss_gets (byRegister : Bool) (writes : Nat) (pre : Things Kind) :
    Gets terms pre (i40eSetRss byRegister writes) (fun _ => pre) pre 0 := by
  refine Gets.takeScope fun session => ?_
  refine (Gets.ask _ _).andThen fun _ => (Gets.ask _ _).andThen fun _ => ?_
  exact Gets.unlessDone ((i40eCommand_gets _).times writes)

theorem i40eOpsUp_gets (byRegister : Bool) : Gets terms 0 (i40eOpsUp byRegister) (fun _ => 0) 0 0 := by
  refine ((i40eCommand_gets _).times 2).andThen fun _ => (i40eSetRss_gets _ _ _).andThen fun _ => ?_
  refine (i40eSetRss_gets _ _ _).andThen fun _ => (i40eCommand_gets _).andThen fun _ => ?_
  exact (Gets.ask _ _).times 4

/-- The table that `i40e_ops_init` fills in. -/
def i40eDriver (lossy : openLossy ⊆ terms.lossy) (byRegister : Bool) : Driver terms Nic Nat I40eOpen where
  numMiscIrqs := 1
  init := take .drvData
  destroy := give .drvData
  opens nic _ := i40eOpen nic
  close := i40eClose
  up := i40eOpsUp byRegister
  down := i40eOpsDown
  ownInit drvData := {(.drvData, drvData)}
  ownOpen := I40eOpen.own
  lost := openLost
  init_gets := (Gets.take _ _).post_eq fun _ => add_zero _
  destroy_undoes _ := Undoes.giveLast _ _
  opens_gets nic _ := i40eOpen_gets lossy nic
  close_undoes := i40eClose_undoes
  up_gets := i40eOpsUp_gets byRegister
  down_undoes := Undoes.regardless ((Gets.ask _ _).times 2)

/-! ## A device under its calls -/

/-- The kinds that the calls on a device may leave behind. -/
def deviceLossy : Set Kind := upLossy ∪ openLossy ∪ {.bar}

theorem openLossy_subset : openLossy ⊆ deviceLossy := fun _ mem => Or.inl (Or.inr mem)

/-- Any request may be refused. -/
def deviceTerms : Terms Kind := ⟨∅, deviceLossy⟩

/-- The driver as the library has it; `byRegister` is as in `i40e_set_rsskey`. -/
def nicDriver (byRegister : Bool) : Driver deviceTerms Nic Nat I40eOpen :=
  i40eDriver openLossy_subset byRegister

/-- A device as its user has it. -/
inductive Handle
  | closed
  | opened (dev : UfpDev Nat I40eOpen)
  | up (dev : UfpDev Nat I40eOpen) (running : UfpUp)

def Handle.own (byRegister : Bool) : Handle → Things Kind
  | .closed => 0
  | .opened dev => dev.own (nicDriver byRegister)
  | .up dev running => running.own + dev.own (nicDriver byRegister)

/-- A call, with what it finds. -/
inductive DeviceCall
  | opens (found : Found Nic)
  | up (numQps vectors : Nat)
  | down
  | close

/-- The handle and the world; whether every call was granted so far, and what those that
were cost for good. -/
structure Session where
  handle : Handle
  world : World Kind
  clean : Bool
  cost : Multiset Kind

/-- One call. A call that the handle is not ready for is not made. -/
def Session.call (byRegister : Bool) (s : Session) (call : DeviceCall) : Session :=
  match s.handle, call with
  | .closed, .opens found =>
      match ufpOpen (nicDriver byRegister) found s.world with
      | (some dev, world) => { s with handle := .opened dev, world, cost := openLost found.device + s.cost }
      | (none, world) => { s with world, clean := false }
  | .opened dev, .up numQps vectors =>
      match ufpUp (nicDriver byRegister) 1 numQps vectors s.world with
      | (some up, world) => { s with handle := .up dev up, world, cost := vectors • {Kind.irqEntry} + s.cost }
      | (none, world) => { s with world, clean := false }
  | .up dev up, .down => { s with handle := .opened dev, world := ufpDown (nicDriver byRegister) up s.world }
  | .opened dev, .close => { s with handle := .closed, world := ufpClose (nicDriver byRegister) dev s.world }
  | _, _ => s

def Session.run (byRegister : Bool) (s : Session) (calls : List DeviceCall) : Session :=
  calls.foldl (Session.call byRegister) s

/-- What is held is what the handle stands for, what was there before and what was left
behind. -/
structure Kept (byRegister : Bool) (start : World Kind) (s : Session) : Prop where
  wrong : s.world.wrong = start.wrong
  held : ∃ left, s.world.held = s.handle.own byRegister + (left + start.held) ∧
    (∀ thing ∈ left, thing.1 ∈ deviceLossy) ∧ (s.clean = true → left.map Prod.fst = s.cost)

section Kept

variable {byRegister : Bool} {start : World Kind} {s : Session} {α : Type}

/-- A call that is to get something: whether it does or not, the sum holds. -/
theorem Kept.get {f : Attempt Kind α} {own : α → Things Kind} {lost : Multiset Kind}
    (kept : Kept byRegister start s) (gets : Gets deviceTerms 0 f own 0 lost) (handle : α → Handle)
    (grows : ∀ x, (handle x).own byRegister = own x + s.handle.own byRegister) :
    (∀ x world, f s.world = (some x, world) →
      Kept byRegister start { s with handle := handle x, world, cost := lost + s.cost }) ∧
    ∀ world, f s.world = (none, world) → Kept byRegister start { s with world, clean := false } := by
  obtain ⟨left, held, kinds, exactly⟩ := kept.held
  refine ⟨fun x world run => ?_, fun world run => ?_⟩
  · obtain ⟨left', exactly', kinds', turns⟩ := gets.done _ _ _ run
    obtain ⟨held', wrong', -⟩ := turns (by simp [deviceTerms]) _ (zero_add _).symm
    refine ⟨wrong'.trans kept.wrong, left' + left, ?_, fun thing mem => ?_, fun clean => ?_⟩
    · simp only [held', held, grows]
      abel
    · exact (Multiset.mem_add.mp mem).elim (kinds' thing) (kinds thing)
    · rw [Multiset.map_add, exactly', exactly clean]
  · obtain ⟨left', kinds', turns⟩ := gets.failed _ _ run
    obtain ⟨held', wrong', -⟩ := turns (by simp [deviceTerms]) _ (zero_add _).symm
    refine ⟨wrong'.trans kept.wrong, left' + left, ?_, fun thing mem => ?_, by simp⟩
    · simp only [held', held]
      abel
    · exact (Multiset.mem_add.mp mem).elim (kinds' thing) (kinds thing)

/-- A call that gives something back. -/
theorem Kept.release {step : World Kind → World Kind} {own : Things Kind}
    (kept : Kept byRegister start s) (undoes : Undoes ∅ step own 0) (handle : Handle)
    (shrinks : s.handle.own byRegister = own + handle.own byRegister) :
    Kept byRegister start { s with handle, world := step s.world } := by
  obtain ⟨left, held, kinds, exactly⟩ := kept.held
  obtain ⟨held', wrong', -⟩ := undoes s.world (by simp) (handle.own byRegister + (left + start.held))
    (by rw [held, shrinks, add_assoc])
  exact ⟨wrong'.trans kept.wrong, left, by simpa using held', kinds, exactly⟩

/-- Every call keeps the sum. -/
theorem Kept.call (kept : Kept byRegister start s) (call : DeviceCall) :
    Kept byRegister start (s.call byRegister call) := by
  obtain ⟨handle, world, clean, cost⟩ := s
  cases handle with
  | closed =>
      cases call with
      | opens found =>
          have both := kept.get (ufpOpen_gets (nicDriver byRegister) (Or.inr rfl) found) Handle.opened
            fun dev => (add_zero _).symm
          simp only [Session.call]
          rcases run : ufpOpen (nicDriver byRegister) found world with ⟨_ | dev, world'⟩
          · exact both.2 world' run
          · exact both.1 dev world' run
      | _ => exact kept
  | opened dev =>
      cases call with
      | up numQps vectors =>
          have both := kept.get (ufpUp_gets (nicDriver byRegister) (fun _ mem => Or.inl (Or.inl mem)) 1 numQps vectors)
            (Handle.up dev) fun up => rfl
          simp only [Session.call]
          rcases run : ufpUp (nicDriver byRegister) 1 numQps vectors world with ⟨_ | up, world'⟩
          · exact both.2 world' run
          · exact both.1 up world' run
      | close => exact kept.release (ufpClose_undoes (nicDriver byRegister) dev) .closed (add_zero _).symm
      | _ => exact kept
  | up dev up =>
      cases call with
      | down => exact kept.release (ufpDown_undoes (nicDriver byRegister) up) (.opened dev) rfl
      | _ => exact kept

theorem Kept.run (kept : Kept byRegister start s) (calls : List DeviceCall) :
    Kept byRegister start (s.run byRegister calls) := by
  induction calls generalizing s with
  | nil => exact kept
  | cons call calls ih => exact ih (kept.call call)

end Kept

/-- **A device's life.** Over any calls and whatever is refused on the way, nothing is given
back that is not held, and what is held is what the handle stands for, what was held before,
and things of a few kinds that no call gives back: after a failure an array of receive rings
or of transmit interrupts, an open directory, a mapped BAR, the buffers of an admin queue or
the elements of the switch configuration may be among them. When no call failed they are
exactly the `struct ufp_dev_buf`s and the `struct i40e_iface` of every `ufp_open` and the
vector entries of every `ufp_up`. A call that the handle is not ready for (`ufp_open` of an
open device, `ufp_up` of one that is closed or up, `ufp_down` of one that is not up,
`ufp_close` of one that is up or closed) is not made. -/
theorem device_life (byRegister : Bool) (calls : List DeviceCall) (w : World Kind) :
    let s := Session.run byRegister ⟨.closed, w, true, 0⟩ calls
    s.world.wrong = w.wrong ∧ ∃ left, s.world.held = s.handle.own byRegister + (left + w.held) ∧
      (∀ thing ∈ left, thing.1 ∈ deviceLossy) ∧ (s.clean = true → left.map Prod.fst = s.cost) := by
  have fresh : Kept byRegister w ⟨.closed, w, true, 0⟩ :=
    ⟨rfl, 0, by simp [Handle.own], by simp, fun _ => rfl⟩
  have kept := fresh.run calls
  exact ⟨kept.wrong, kept.held⟩

end Ufp.Dev.Life
