/-
# Ufp.Lib.DeviceLife — what a device holds between `ufp_open` and `ufp_close`

The calls of `lib_main.c`, `lib_tap.c` and `lib_vfio.c` that open a device, bring it up,
take it down and close it, as far as they ask for things and give them back: blocks of
`malloc` and of the pool, DMA mappings, descriptors, the mapped BAR, open directories.
Any of the requests may be refused, and each function then goes through its own error
labels. The blocks under `onError` are those labels, in the order the source falls
through them.

What the labels forget is in the rules below, as the kinds that a failure may cost:
`ufp_alloc_rings` does not free the array of receive rings, `ufp_up_iface` not that of
the transmit interrupts, `ufp_open` does not unmap the BAR, and
`ufp_vfio_irq_vector_get` leaves the directory open. The entries it reads from the
directory are never freed, also when all goes well.
-/
import Ufp.Theory.Acquire

namespace Ufp.Lib.Life

open Ufp.Theory.Acquire

set_option autoImplicit false

/-- What can be held, by the place that asks for it; `call` is a system call or an admin
command that hands out nothing. -/
inductive Kind
  | call
  | ringMem | dmaMap | slotIndex | txRing | rxRing
  | tapFds | tapFd | socket
  | eventfd | irq | rxIrq | txIrq | miscIrq | irqSetBuf | dir | irqEntry
  | dev | linkpath | groupFd | devFd | bar | file | ops | iface | tunFd
  | drvData | devBuf | devPages | aqRing | aqBufs | session | elem | drvIface | sdTable
  | ifname | argbuf | devs | mpools | threads | mpool | hugePage | rootNode
  | buf | bufMem | slots | plane | ports | thread
  | readBuf | epollFd | epollDesc | signalFd | netlinkDesc | netlinkFd
  deriving DecidableEq

variable {terms : Terms Kind} {granted : Set Kind}

/-! ## Rings -/

structure UfpRing where
  addrVirt : Nat
  addrDma : Nat
  slotIndex : Nat

def UfpRing.own (ring : UfpRing) : Things Kind :=
  {(.slotIndex, ring.slotIndex)} + ({(.dmaMap, ring.addrDma)} + {(.ringMem, ring.addrVirt)})

/-- `ufp_release_ring`. -/
def ufpReleaseRing (ring : UfpRing) : World Kind → World Kind :=
  inOrder [give .slotIndex ring.slotIndex, give .dmaMap ring.addrDma, give .ringMem ring.addrVirt]

/-- `ufp_alloc_ring`. -/
def ufpAllocRing : Attempt Kind UfpRing := do
  let addrVirt ← take .ringMem
  onError (give .ringMem addrVirt) do
    let addrDma ← take .dmaMap
    onError (give .dmaMap addrDma) do
      let slotIndex ← take .slotIndex
      return { addrVirt, addrDma, slotIndex }

/-- One turn of the loop in `ufp_alloc_rings`, with the labels inside it. -/
def ufpAllocPair : Attempt Kind (UfpRing × UfpRing) := do
  let rx ← ufpAllocRing
  onError (ufpReleaseRing rx) do
    let tx ← ufpAllocRing
    return (rx, tx)

def ufpReleasePair (pair : UfpRing × UfpRing) : World Kind → World Kind :=
  inOrder [ufpReleaseRing pair.2, ufpReleaseRing pair.1]

structure UfpRings where
  txRing : Nat
  rxRing : Nat
  pairs : List (UfpRing × UfpRing)

/-- `ufp_alloc_rings`. -/
def ufpAllocRings (numQps : Nat) : Attempt Kind UfpRings := do
  let txRing ← take .txRing
  onError (give .txRing txRing) do
    let rxRing ← take .rxRing
    -- `err_desc_assign` runs into `err_alloc_rx_ring`: the array stays
    let pairs ← collect (fun _ => ufpAllocPair) ufpReleasePair numQps
    return { txRing, rxRing, pairs }

/-- `ufp_release_rings`. -/
def ufpReleaseRings (rings : UfpRings) : World Kind → World Kind :=
  inOrder [releaseAll ufpReleasePair rings.pairs, give .rxRing rings.rxRing, give .txRing rings.txRing]

def pairOwn (pair : UfpRing × UfpRing) : Things Kind := pair.2.own + pair.1.own

def UfpRings.own (rings : UfpRings) : Things Kind :=
  (rings.pairs.map pairOwn).sum + ({(.rxRing, rings.rxRing)} + {(.txRing, rings.txRing)})

theorem ufpReleaseRing_undoes (ring : UfpRing) : Undoes granted (ufpReleaseRing ring) ring.own 0 :=
  (Undoes.give _ _ _).cons ((Undoes.give _ _ _).cons ((Undoes.giveLast _ _).cons (Undoes.nil _)))

theorem ufpAllocRing_gets : Gets terms 0 ufpAllocRing UfpRing.own 0 0 := by
  refine Gets.takeGuard fun addrVirt => Gets.takeGuard fun addrDma => ?_
  exact (Gets.take _ _).andThen fun slotIndex => Gets.pure (by simp [UfpRing.own])

theorem ufpReleasePair_undoes (pair : UfpRing × UfpRing) : Undoes granted (ufpReleasePair pair) (pairOwn pair) 0 :=
  ((ufpReleaseRing_undoes _).frame _).cons ((ufpReleaseRing_undoes _).cons (Undoes.nil _))

theorem ufpAllocPair_gets : Gets terms 0 ufpAllocPair pairOwn 0 0 := by
  refine Gets.guard ufpAllocRing_gets ufpReleaseRing_undoes fun rx => ?_
  exact (ufpAllocRing_gets.frame _).andThen fun tx => Gets.pure (by simp [pairOwn])

theorem ufpReleaseRings_undoes (rings : UfpRings) : Undoes granted (ufpReleaseRings rings) rings.own 0 :=
  ((Undoes.releaseAll ufpReleasePair_undoes _).frame _).cons
    ((Undoes.give _ _ _).cons ((Undoes.giveLast _ _).cons (Undoes.nil _)))

theorem ufpAllocRings_gets (lossy : Kind.rxRing ∈ terms.lossy) (numQps : Nat) :
    Gets terms 0 (ufpAllocRings numQps) UfpRings.own 0 0 := by
  refine Gets.takeGuard fun txRing => (Gets.take _ _).andThen fun rxRing => ?_
  refine Gets.andThen (Gets.abandon _ ((Gets.collectFree ufpAllocPair_gets ufpReleasePair_undoes numQps).frame _) ?_)
    fun pairs => Gets.pure (by simp [UfpRings.own])
  simpa using lossy

/-! ## The virtual interface -/

/-- One turn of the loop in `ufp_tun_up`. That `open` has failed goes unnoticed there; the
`ioctl` on the descriptor then fails, and closing it does nothing. -/
def ufpTunQueue : Attempt Kind Nat := do
  let fd ← take .tapFd
  onError (give .tapFd fd) (ask .call)
  return fd

structure Tun where
  tapFds : Nat
  fds : List Nat

def Tun.own (tun : Tun) : Things Kind :=
  named .tapFd tun.fds + {(.tapFds, tun.tapFds)}

/-- The address, the index, the MTU and the flags of the interface, through a socket. -/
def ufpTunConfigure : Attempt Kind Unit := do
  let sock ← take .socket
  always (give .socket sock) do
    ask .call
    ask .call
    ask .call
    ask .call
    ask .call

/-- `ufp_tun_up`. -/
def ufpTunUp (numQps : Nat) : Attempt Kind Tun := do
  let tapFds ← take .tapFds
  onError (give .tapFds tapFds) do
    let fds ← collect (fun _ => ufpTunQueue) (give .tapFd) numQps
    onError (releaseAll (give .tapFd) fds) do
      ufpTunConfigure
      return { tapFds, fds }

/-- The first half of `ufp_tun_down`, which clears `IFF_UP` if it can. -/
def ufpTunFlags : Attempt Kind Unit := do
  let sock ← take .socket
  always (give .socket sock) do
    ask .call
    ask .call

/-- `ufp_tun_down`. -/
def ufpTunDown (tun : Tun) : World Kind → World Kind :=
  inOrder [regardless ufpTunFlags, releaseAll (give .tapFd) tun.fds, give .tapFds tun.tapFds]

/-- `ufp_tun_open`. -/
def ufpTunOpen : Attempt Kind Unit := do
  let fd ← take .tunFd
  always (give .tunFd fd) do
    ask .call
    ask .call

/-- `ufp_tun_close`: the calls of `ufp_tun_open` once more, to take the persistence back. -/
def ufpTunClose : World Kind → World Kind := regardless ufpTunOpen

theorem ufpTunConfigure_gets (pre : Things Kind) :
    Gets terms pre ufpTunConfigure (fun _ => pre) pre 0 := by
  refine Gets.takeScope fun sock => ?_
  refine (Gets.ask _ _).andThen fun _ => (Gets.ask _ _).andThen fun _ => ?_
  exact (Gets.ask _ _).andThen fun _ => (Gets.ask _ _).andThen fun _ => Gets.ask _ _

theorem ufpTunFlags_gets (pre : Things Kind) : Gets terms pre ufpTunFlags (fun _ => pre) pre 0 := by
  refine Gets.takeScope fun sock => ?_
  exact (Gets.ask _ _).andThen fun _ => Gets.ask _ _

theorem ufpTunOpen_gets (pre : Things Kind) : Gets terms pre ufpTunOpen (fun _ => pre) pre 0 := by
  refine Gets.takeScope fun fd => ?_
  exact (Gets.ask _ _).andThen fun _ => Gets.ask _ _

theorem ufpTunQueue_gets : Gets terms 0 ufpTunQueue (fun fd => {(.tapFd, fd)}) 0 0 := by
  refine (Gets.take _ _).andThen fun fd => ?_
  refine ((Gets.ask _ _).onError (Undoes.give _ _ _)).andThen fun _ => Gets.pure (by simp)

theorem ufpTunUp_gets (numQps : Nat) : Gets terms 0 (ufpTunUp numQps) Tun.own 0 0 := by
  refine Gets.takeGuard fun tapFds => ?_
  refine Gets.guard (Gets.collectFree ufpTunQueue_gets (fun _ => Undoes.giveLast _ _) numQps)
    (Undoes.giveAll Kind.tapFd) fun fds => ?_
  exact (ufpTunConfigure_gets _).andThen fun _ => Gets.pure (by simp [Tun.own, named])

theorem ufpTunDown_undoes (tun : Tun) : Undoes granted (ufpTunDown tun) tun.own 0 :=
  (Undoes.regardless (ufpTunFlags_gets _)).cons
    (((Undoes.giveAll _ _).frame _).cons ((Undoes.giveLast _ _).cons (Undoes.nil _)))

/-! ## Interrupts -/

structure UfpIrq where
  fd : Nat
  irq : Nat

def UfpIrq.own (irq : UfpIrq) : Things Kind := {(.eventfd, irq.fd)} + {(.irq, irq.irq)}

/-- `ufp_irq_open`. -/
def ufpIrqOpen : Attempt Kind UfpIrq := do
  let fd ← take .eventfd
  onError (give .eventfd fd) do
    let irq ← take .irq
    return { fd, irq }

/-- `ufp_irq_close`. -/
def ufpIrqClose (irq : UfpIrq) : World Kind → World Kind := inOrder [give .eventfd irq.fd, give .irq irq.irq]

/-- `ufp_vfio_irq_set`. -/
def ufpVfioIrqSet : Attempt Kind Unit := do
  ask .call
  ask .call
  let irqSetBuf ← take .irqSetBuf
  always (give .irqSetBuf irqSetBuf) (ask .call)

/-- `ufp_vfio_irq_unset`. -/
def ufpVfioIrqUnset : Attempt Kind Unit := ask .call

/-- An entry of the list in `ufp_vfio_irq_vector_get`. It leaves the list by `list_del`, and
nothing frees it. -/
def irqEntry : Attempt Kind Unit := do
  let _ ← take .irqEntry
  return ()

/-- `ufp_vfio_irq_vector_get`, where the directory has the names of `found` vectors and the
device has `needed` interrupts. -/
def ufpVfioIrqVectorGet (found needed : Nat) : Attempt Kind Unit := do
  let dir ← take .dir
  -- `err_alloc_irq_entry` does not close the directory
  let _ ← collect (fun _ => irqEntry) (fun _ => id) found
  perform (give .dir dir)
  require (decide (needed ≤ found))

theorem ufpIrqOpen_gets : Gets terms 0 ufpIrqOpen UfpIrq.own 0 0 := by
  refine Gets.takeGuard fun fd => (Gets.take _ _).andThen fun irq => Gets.pure ?_
  simp [UfpIrq.own, add_comm]

theorem ufpIrqClose_undoes (irq : UfpIrq) : Undoes granted (ufpIrqClose irq) irq.own 0 :=
  (Undoes.give _ _ _).cons ((Undoes.giveLast _ _).cons (Undoes.nil _))

theorem ufpVfioIrqSet_gets (pre : Things Kind) : Gets terms pre ufpVfioIrqSet (fun _ => pre) pre 0 := by
  refine (Gets.ask _ _).andThen fun _ => (Gets.ask _ _).andThen fun _ => ?_
  exact Gets.takeScope fun _ => Gets.ask _ _

theorem ufpVfioIrqVectorGet_gets (entry : Kind.irqEntry ∈ terms.lossy) (dir : Kind.dir ∈ terms.lossy)
    (found needed : Nat) :
    Gets terms 0 (ufpVfioIrqVectorGet found needed) (fun _ => 0) 0 (found • {Kind.irqEntry}) := by
  have one : Gets terms 0 irqEntry (fun _ => 0) 0 {Kind.irqEntry} :=
    (Gets.take _ _).andThen fun name => Gets.losing _ rfl (by simp) (by simpa using entry)
  have all : Gets terms 0 (collect (fun _ => irqEntry) (fun _ => id) found) (fun _ => 0) 0
      (found • {Kind.irqEntry}) :=
    (Gets.collectSame one (fun _ w => Turns.refl w 0) found).post_eq fun xs => by simp [List.sum_replicate]
  refine (Gets.take _ _).andThen fun name => Gets.thenFree (((all.frame _).abandon _) (by simpa using dir)) fun _ => ?_
  rw [zero_add]
  exact (Gets.perform (Undoes.give _ _ _) _).andThen fun _ => Gets.require _ _

/-! ## Up and down -/

structure UfpIface where
  rings : UfpRings
  tun : Tun
  rxIrq : Nat
  txIrq : Nat
  rx : List UfpIrq
  tx : List UfpIrq

def UfpIface.own (iface : UfpIface) : Things Kind :=
  (iface.rx.map UfpIrq.own).sum + ((iface.tx.map UfpIrq.own).sum +
    ({(.txIrq, iface.txIrq)} + ({(.rxIrq, iface.rxIrq)} + (iface.tun.own + iface.rings.own))))

/-- `ufp_up_iface`. -/
def ufpUpIface (numQps : Nat) : Attempt Kind UfpIface := do
  let rings ← ufpAllocRings numQps
  onError (ufpReleaseRings rings) do
    let tun ← ufpTunUp numQps
    onError (ufpTunDown tun) do
      let rxIrq ← take .rxIrq
      onError (give .rxIrq rxIrq) do
        let txIrq ← take .txIrq
        -- `err_rx_irq` runs into `err_alloc_tx_irq`: the array stays
        let rx ← collect (fun _ => ufpIrqOpen) ufpIrqClose numQps
        onError (releaseAll ufpIrqClose rx) do
          let tx ← collect (fun _ => ufpIrqOpen) ufpIrqClose numQps
          return { rings, tun, rxIrq, txIrq, rx, tx }

/-- `ufp_down_iface`. -/
def ufpDownIface (iface : UfpIface) : World Kind → World Kind :=
  inOrder [releaseAll ufpIrqClose iface.rx, releaseAll ufpIrqClose iface.tx, give .txIrq iface.txIrq,
    give .rxIrq iface.rxIrq, ufpTunDown iface.tun, ufpReleaseRings iface.rings]

theorem ufpDownIface_undoes (iface : UfpIface) : Undoes granted (ufpDownIface iface) iface.own 0 := by
  refine ((Undoes.releaseAll ufpIrqClose_undoes _).frame _).cons (((Undoes.releaseAll ufpIrqClose_undoes _).frame _).cons ?_)
  refine (Undoes.give _ _ _).cons ((Undoes.give _ _ _).cons (((ufpTunDown_undoes _).frame _).cons ?_))
  exact (ufpReleaseRings_undoes _).cons (Undoes.nil _)

theorem ufpUpIface_gets (rings : Kind.rxRing ∈ terms.lossy) (irqs : Kind.txIrq ∈ terms.lossy) (numQps : Nat) :
    Gets terms 0 (ufpUpIface numQps) UfpIface.own 0 0 := by
  refine Gets.guard (ufpAllocRings_gets rings numQps) ufpReleaseRings_undoes fun rings => ?_
  refine Gets.guard (ufpTunUp_gets numQps) ufpTunDown_undoes fun tun => Gets.takeGuard fun rxIrq => ?_
  refine (Gets.take _ _).andThen fun txIrq => ?_
  have opened : Gets terms 0 (collect (fun _ => ufpIrqOpen) ufpIrqClose numQps)
      (fun irqs => (irqs.map UfpIrq.own).sum) 0 0 := Gets.collectFree ufpIrqOpen_gets ufpIrqClose_undoes numQps
  refine Gets.abandon {(.txIrq, txIrq)} ?_ (by simpa using irqs)
  refine Gets.guard opened (Undoes.releaseAll ufpIrqClose_undoes) fun rx => ?_
  refine (opened.frame _).andThen fun tx => Gets.pure ?_
  simp only [UfpIface.own, add_zero]
  abel

/-- A driver, as the table of its functions that `ufp_dev_init` fills in: `σ` is what
`init` leaves in `dev->drv_data`, `τ` what a device has once it is open, `ε` what the
device is like. The fields below the functions say what they owe: each gives back what it
has taken, but for `lost`. -/
structure Driver (terms : Terms Kind) (ε σ τ : Type) where
  numMiscIrqs : Nat
  init : Attempt Kind σ
  destroy : σ → World Kind → World Kind
  opens : ε → σ → Attempt Kind τ
  close : τ → World Kind → World Kind
  up : Attempt Kind Unit
  down : World Kind → World Kind
  ownInit : σ → Things Kind
  ownOpen : τ → Things Kind
  lost : ε → Multiset Kind
  init_gets : Gets terms 0 init ownInit 0 0
  destroy_undoes : ∀ state, Undoes terms.granted (destroy state) (ownInit state) 0
  opens_gets : ∀ env state, Gets terms 0 (opens env state) ownOpen 0 (lost env)
  close_undoes : ∀ opened, Undoes terms.granted (close opened) (ownOpen opened) 0
  up_gets : Gets terms 0 up (fun _ => 0) 0 0
  down_undoes : Undoes terms.granted down 0 0

structure UfpUp where
  miscIrq : Nat
  misc : List UfpIrq
  ifaces : List UfpIface

def UfpUp.own (up : UfpUp) : Things Kind :=
  (up.ifaces.map UfpIface.own).sum + ((up.misc.map UfpIrq.own).sum + {(.miscIrq, up.miscIrq)})

section Device

variable {ε σ τ : Type} (drv : Driver terms ε σ τ)

/-- `ufp_up` on a device with `numIfaces` interfaces, where `/sys` has `found` vectors. -/
def ufpUp (numIfaces numQps found : Nat) : Attempt Kind UfpUp := do
  let miscIrq ← take .miscIrq
  onError (give .miscIrq miscIrq) do
    let misc ← collect (fun _ => ufpIrqOpen) ufpIrqClose drv.numMiscIrqs
    onError (releaseAll ufpIrqClose misc) do
      let ifaces ← collect (fun _ => ufpUpIface numQps) ufpDownIface numIfaces
      onError (releaseAll ufpDownIface ifaces) do
        ufpVfioIrqSet
        onError (regardless ufpVfioIrqUnset) do
          ufpVfioIrqVectorGet found (drv.numMiscIrqs + numIfaces * (2 * numQps))
          drv.up
          return { miscIrq, misc, ifaces }

/-- `ufp_down`. -/
def ufpDown (up : UfpUp) : World Kind → World Kind :=
  inOrder [drv.down, regardless ufpVfioIrqUnset, releaseAll ufpDownIface up.ifaces,
    releaseAll ufpIrqClose up.misc, give .miscIrq up.miscIrq]

theorem ufpDown_undoes (up : UfpUp) : Undoes terms.granted (ufpDown drv up) up.own 0 := by
  have down : Undoes terms.granted drv.down up.own up.own := by simpa using drv.down_undoes.frame up.own
  refine down.cons ((Undoes.regardless (Gets.ask _ _)).cons (((Undoes.releaseAll ufpDownIface_undoes _).frame _).cons ?_))
  exact ((Undoes.releaseAll ufpIrqClose_undoes _).frame _).cons ((Undoes.giveLast _ _).cons (Undoes.nil _))

/-- The kinds that a failed `ufp_up` may cost. -/
def upLossy : Set Kind := {.rxRing, .txIrq, .irqEntry, .dir}

theorem ufpUp_gets (lossy : upLossy ⊆ terms.lossy) (numIfaces numQps found : Nat) :
    Gets terms 0 (ufpUp drv numIfaces numQps found) UfpUp.own 0 (found • {Kind.irqEntry}) := by
  refine Gets.takeGuard fun miscIrq => ?_
  refine Gets.guard (Gets.collectFree ufpIrqOpen_gets ufpIrqClose_undoes _)
    (Undoes.releaseAll ufpIrqClose_undoes) fun misc => ?_
  have up := ufpUpIface_gets (lossy (by simp [upLossy])) (lossy (by simp [upLossy])) numQps
  refine Gets.guard (Gets.collectFree up ufpDownIface_undoes _)
    (Undoes.releaseAll ufpDownIface_undoes) fun ifaces => ?_
  refine (ufpVfioIrqSet_gets _).andThen fun _ => Gets.onError ?_ (Undoes.regardless (Gets.ask _ _))
  have vectors := ufpVfioIrqVectorGet_gets (lossy (by simp [upLossy])) (lossy (by simp [upLossy])) found
    (drv.numMiscIrqs + numIfaces * (2 * numQps))
  exact (vectors.beside _).thenFree fun _ => (drv.up_gets.beside _).andThen fun _ => Gets.pure (by simp [UfpUp.own])

/-! ## Open and close -/

/-- `ufp_vfio_group_id`. -/
def ufpVfioGroupId : Attempt Kind Unit := do
  let linkpath ← take .linkpath
  always (give .linkpath linkpath) (ask .call)

/-- `ufp_vfio_group_open`. The group may be in the container already, and the IOMMU may
have its type from an earlier device. -/
def ufpVfioGroupOpen (inContainer typeSet : Bool) : Attempt Kind Nat := do
  ufpVfioGroupId
  let groupFd ← take .groupFd
  onError (give .groupFd groupFd) do
    ask .call
    ask .call
    unlessDone inContainer (ask .call)
    unlessDone typeSet do
      ask .call
      ask .call
    return groupFd

/-- `ufp_vfio_map_bar0`. -/
def ufpVfioMapBar0 : Attempt Kind Nat := do
  ask .call
  ask .call
  take .bar

/-- `ufp_vfio_bus_master_set`. -/
def ufpVfioBusMasterSet : Attempt Kind Unit := do
  ask .call
  ask .call
  ask .call

/-- `ufp_vfio_vendor_id` and `ufp_vfio_device_id`, which read one file each. -/
def ufpVfioReadId : Attempt Kind Unit := do
  let file ← take .file
  always (give .file file) (ask .call)

structure VfioDevice where
  fd : Nat
  bar : Nat

/-- `ufp_vfio_device_open`. -/
def ufpVfioDeviceOpen : Attempt Kind VfioDevice := do
  let fd ← take .devFd
  onError (give .devFd fd) do
    ask .call
    ask .call
    let bar ← ufpVfioMapBar0
    onError (give .bar bar) do
      ufpVfioBusMasterSet
      ufpVfioReadId
      ufpVfioReadId
      ask .call
      return { fd, bar }

/-- `ufp_ops_alloc`; the first call is the search for the driver in `ufp_dev_init`. -/
def ufpOpsAlloc : Attempt Kind (Nat × σ) := do
  let ops ← take .ops
  onError (give .ops ops) do
    ask .call
    let drvData ← drv.init
    return (ops, drvData)

/-- `ufp_ops_release`. -/
def ufpOpsRelease (ops : Nat × σ) : World Kind → World Kind := inOrder [drv.destroy ops.2, give .ops ops.1]

structure UfpDev (σ τ : Type) where
  dev : Nat
  vfio : VfioDevice
  ops : Nat × σ
  iface : Nat
  opened : τ

/-- What a device finds when it is opened: the group and the IOMMU as they are, and what
the driver finds. -/
structure Found (ε : Type) where
  inContainer : Bool
  typeSet : Bool
  device : ε

/-- `ufp_open`. -/
def ufpOpen (found : Found ε) : Attempt Kind (UfpDev σ τ) := do
  let dev ← take .dev
  onError (give .dev dev) do
    let groupFd ← ufpVfioGroupOpen found.inContainer found.typeSet
    onError (give .groupFd groupFd) do
      let vfio ← ufpVfioDeviceOpen
      -- from here on no label unmaps the BAR
      onError (give .devFd vfio.fd) do
        let ops ← ufpOpsAlloc drv
        onError (ufpOpsRelease drv ops) do
          let iface ← take .iface
          onError (give .iface iface) do
            ask .call
            ufpTunOpen
            onError ufpTunClose do
              let opened ← drv.opens found.device ops.2
              perform (give .groupFd groupFd)
              return { dev, vfio, ops, iface, opened }

/-- `ufp_close`; the one interface is that of `ufp_open`. -/
def ufpClose (dev : UfpDev σ τ) : World Kind → World Kind :=
  inOrder [drv.close dev.opened, ufpTunClose, give .iface dev.iface, ufpOpsRelease drv dev.ops,
    give .bar dev.vfio.bar, give .devFd dev.vfio.fd, give .dev dev.dev]

def UfpDev.own (dev : UfpDev σ τ) : Things Kind :=
  drv.ownOpen dev.opened + ({(.iface, dev.iface)} + (drv.ownInit dev.ops.2 + {(.ops, dev.ops.1)} +
    ({(.bar, dev.vfio.bar)} + ({(.devFd, dev.vfio.fd)} + {(.dev, dev.dev)}))))

theorem ufpVfioGroupOpen_gets (inContainer typeSet : Bool) :
    Gets terms 0 (ufpVfioGroupOpen inContainer typeSet) (fun groupFd => {(.groupFd, groupFd)}) 0 0 := by
  have groupId : Gets terms 0 ufpVfioGroupId (fun _ => 0) 0 0 :=
    Gets.takeScope fun _ => Gets.ask _ _
  refine groupId.andThen fun _ => Gets.takeGuard fun groupFd => ?_
  refine (Gets.ask _ _).andThen fun _ => (Gets.ask _ _).andThen fun _ => ?_
  refine (Gets.unlessDone (Gets.ask _ _)).andThen fun _ => ?_
  refine (Gets.unlessDone ((Gets.ask _ _).andThen fun _ => Gets.ask _ _)).andThen fun _ => Gets.pure (add_zero _)

theorem ufpVfioReadId_gets (pre : Things Kind) : Gets terms pre ufpVfioReadId (fun _ => pre) pre 0 :=
  Gets.takeScope fun _ => Gets.ask _ _

theorem ufpVfioDeviceOpen_gets :
    Gets terms 0 ufpVfioDeviceOpen (fun vfio => {(.devFd, vfio.fd)} + {(.bar, vfio.bar)}) 0 0 := by
  refine Gets.takeGuard fun fd => (Gets.ask _ _).andThen fun _ => (Gets.ask _ _).andThen fun _ => ?_
  have bar : Gets terms 0 ufpVfioMapBar0 (fun bar => {(.bar, bar)}) 0 0 :=
    (Gets.ask _ _).andThen fun _ => (Gets.ask _ _).andThen fun _ => (Gets.take _ _).post_eq fun _ => add_zero _
  refine Gets.guard bar (fun _ => Undoes.giveLast _ _) fun bar => ?_
  have master : Gets terms 0 ufpVfioBusMasterSet (fun _ => 0) 0 0 :=
    (Gets.ask _ _).andThen fun _ => (Gets.ask _ _).andThen fun _ => Gets.ask _ _
  refine (master.beside _).andThen fun _ => (ufpVfioReadId_gets _).andThen fun _ => ?_
  refine (ufpVfioReadId_gets _).andThen fun _ => (Gets.ask _ _).andThen fun _ => Gets.pure ?_
  rw [add_zero, add_comm]

theorem ufpOpsAlloc_gets :
    Gets terms 0 (ufpOpsAlloc drv) (fun ops => drv.ownInit ops.2 + {(.ops, ops.1)}) 0 0 := by
  refine Gets.takeGuard fun ops => (Gets.ask _ _).andThen fun _ => ?_
  exact (drv.init_gets.frame _).andThen fun drvData => Gets.pure (by simp)

theorem ufpOpsRelease_undoes (ops : Nat × σ) :
    Undoes terms.granted (ufpOpsRelease drv ops) (drv.ownInit ops.2 + {(.ops, ops.1)}) 0 :=
  ((drv.destroy_undoes _).frame _).cons ((Undoes.giveLast _ _).cons (Undoes.nil _))

theorem ufpTunClose_undoes (n : Things Kind) : Undoes terms.granted ufpTunClose n n :=
  Undoes.regardless (ufpTunOpen_gets n)

theorem ufpOpen_gets (bar : Kind.bar ∈ terms.lossy) (found : Found ε) :
    Gets terms 0 (ufpOpen drv found) (UfpDev.own drv) 0 (drv.lost found.device) := by
  refine Gets.takeGuard fun dev => ?_
  refine Gets.guard (ufpVfioGroupOpen_gets _ _) (fun _ => Undoes.giveLast _ _) fun groupFd => ?_
  refine (ufpVfioDeviceOpen_gets.frame _).andThen fun vfio => ?_
  rw [add_assoc]
  refine Gets.abandon {(.bar, vfio.bar)} (Gets.onError ?_ (Undoes.give _ _ _)) (by simpa using bar)
  refine Gets.guard (ufpOpsAlloc_gets drv) (ufpOpsRelease_undoes drv) fun ops => Gets.takeGuard fun iface => ?_
  refine (Gets.ask _ _).andThen fun _ => (ufpTunOpen_gets _).andThen fun _ => ?_
  refine Gets.onError ?_ (ufpTunClose_undoes _)
  refine ((drv.opens_gets found.device ops.2).frame _).thenFree fun opened => ?_
  have closed : Undoes terms.granted (give .groupFd groupFd) _ (UfpDev.own drv { dev, vfio, ops, iface, opened }) :=
    Undoes.give _ _ _
  refine Gets.andThen (Gets.perform (closed.of_eq ?_) _) fun _ => Gets.pure rfl
  simp only [UfpDev.own, add_zero]
  abel

theorem ufpClose_undoes (dev : UfpDev σ τ) : Undoes terms.granted (ufpClose drv dev) (UfpDev.own drv dev) 0 := by
  refine ((drv.close_undoes _).frame _).cons ((ufpTunClose_undoes _).cons ((Undoes.give _ _ _).cons ?_))
  refine ((ufpOpsRelease_undoes drv _).frame _).cons ((Undoes.give _ _ _).cons ((Undoes.give _ _ _).cons ?_))
  exact (Undoes.giveLast _ _).cons (Undoes.nil _)

end Device

end Ufp.Lib.Life
