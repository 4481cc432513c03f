/-
# Ufp.Lib.Irq — the interrupts of a device, `lib/lib_main.c` and `lib/lib_vfio.c`

`ufp_up` opens an eventfd for each interrupt of a device: first those for misc
events, then one for each RX queue and one for each TX queue of its interfaces.
Each `ufp_irq` keeps the number of its interrupt, `entry_idx`. `ufp_vfio_irq_set`
passes all eventfds to VFIO in an array, and the place of an eventfd in it says
which interrupt of the device triggers it.

The kernel and the allocator are asked call by call. On every error the functions
close what they have opened. `ufp_irq_setaffinity` binds an interrupt to a CPU.
-/
import Mathlib.Algebra.Order.Ring.Nat
import Mathlib.Logic.Function.Basic

namespace Ufp.Lib.Irq

set_option autoImplicit false

/-- `struct ufp_irq`. -/
structure UfpIrq where
  fd : Int
  entryIdx : Nat
  vector : Nat

/-- What interrupts need of `struct ufp_iface` and of `struct i40e_iface`. -/
structure Iface where
  numQps : Nat
  baseQp : Nat
  irqRate : Nat
  rxIrq : List UfpIrq
  txIrq : List UfpIrq

/-- What interrupts need of `struct ufp_dev`. -/
structure Dev where
  numMiscIrqs : Nat
  miscIrq : List UfpIrq
  ifaces : List Iface

/-- The answers of the system: to the calls of `eventfd` and `malloc` in turn, to
`ufp_alloc_rings` and `ufp_tun_up` for each interface, to the two `ioctl`s, and to
`ufp_vfio_irq_vector_get` and the `up` of the driver. -/
structure Answers where
  eventfd : Nat → Option Int
  malloc : Nat → Bool
  allocRings : Nat → Bool
  tunUp : Nat → Bool
  irqInfo : Option Bool
  setIrqs : Bool
  vectorGet : Bool
  opsUp : Bool

/-- How often the system was asked, and the descriptors that were closed. -/
structure Host where
  eventfds : Nat
  mallocs : Nat
  ifacesUp : Nat
  closed : List Int

/-- `struct vfio_irq_set`, with its array of eventfds; `none` was not written. -/
structure IrqSet where
  start : Nat
  count : Nat
  fds : Nat → Option Int

section Code

variable (sys : Answers)

/-! ## Opening and closing -/

def malloc (host : Host) : Bool × Host := (sys.malloc host.mallocs, { host with mallocs := host.mallocs + 1 })

/-- `ufp_irq_open`. `entry_idx` is a `uint16_t`. -/
def ufpIrqOpen (entryIdx : Nat) (host : Host) : Option UfpIrq × Host :=
  match sys.eventfd host.eventfds, { host with eventfds := host.eventfds + 1 } with
  | none, host => (none, host)
  | some efd, host =>
      match malloc sys host with
      | (true, host) => (some ⟨efd, entryIdx % 2 ^ 16, 0⟩, host)
      | (false, host) => (none, { host with closed := efd :: host.closed })

/-- `ufp_irq_close`. -/
def ufpIrqClose (host : Host) (irq : UfpIrq) : Host := { host with closed := irq.fd :: host.closed }

/-- The loops that open `todo` interrupts from `irqIdx` on: those that are open,
whether all are, and `irq_idx` after them. -/
def openIrqs : (todo irqIdx : Nat) → Host → List UfpIrq × Bool × Nat × Host
  | 0, irqIdx, host => ([], true, irqIdx, host)
  | todo + 1, irqIdx, host =>
      match ufpIrqOpen sys irqIdx host with
      | (none, host) => ([], false, (irqIdx + 1) % 2 ^ 32, host)
      | (some irq, host) =>
          let (irqs, done, irqIdx, host) := openIrqs todo ((irqIdx + 1) % 2 ^ 32) host
          (irq :: irqs, done, irqIdx, host)

/-! ## `ufp_up` -/

/-- `ufp_up_iface`. Interrupt 0 is reserved for the misc events. -/
def ufpUpIface (iface : Iface) (host : Host) : Option Iface × Host :=
  let turn := host.ifacesUp
  let host := { host with ifacesUp := turn + 1 }
  if ¬ (sys.allocRings turn ∧ sys.tunUp turn) then (none, host)
  else
    match malloc sys host with
    | (false, host) => (none, host)
    | (true, host) =>
        match malloc sys host with
        | (false, host) => (none, host)
        | (true, host) =>
            match openIrqs sys iface.numQps 1 host with
            | (rxIrq, false, _, host) => (none, rxIrq.foldl ufpIrqClose host)
            | (rxIrq, true, irqIdx, host) =>
                match openIrqs sys iface.numQps irqIdx host with
                | (txIrq, false, _, host) => (none, rxIrq.foldl ufpIrqClose (txIrq.foldl ufpIrqClose host))
                | (txIrq, true, _, host) => (some { iface with rxIrq, txIrq }, host)

/-- `ufp_down_iface`. -/
def ufpDownIface (host : Host) (iface : Iface) : Host :=
  iface.txIrq.foldl ufpIrqClose (iface.rxIrq.foldl ufpIrqClose host)

/-- The loop of `ufp_up` over the interfaces: those that are up, whether all are, and
`irq_idx` after them. -/
def upIfaces (numQps : Nat) : List Iface → (irqIdx : Nat) → Host → List Iface × Bool × Nat × Host
  | [], irqIdx, host => ([], true, irqIdx, host)
  | iface :: ifaces, irqIdx, host =>
      match ufpUpIface sys { iface with numQps } host with
      | (none, host) => ([], false, irqIdx, host)
      | (some iface, host) =>
          let (up, done, irqIdx, host) := upIfaces numQps ifaces ((irqIdx + numQps * 2) % 2 ^ 32) host
          (iface :: up, done, irqIdx, host)

/-- The loops of `ufp_vfio_irq_set` that store the eventfds of some interrupts from
`irqIdx` on. -/
def storeFds : List UfpIrq → (irqIdx : Nat) → (irqFd : Nat → Option Int) → Nat × (Nat → Option Int)
  | [], irqIdx, irqFd => (irqIdx, irqFd)
  | irq :: irqs, irqIdx, irqFd => storeFds irqs (irqIdx + 1) (Function.update irqFd irqIdx (some irq.fd))

def storeIfaces : List Iface → (irqIdx : Nat) → (irqFd : Nat → Option Int) → Nat × (Nat → Option Int)
  | [], irqIdx, irqFd => (irqIdx, irqFd)
  | iface :: ifaces, irqIdx, irqFd =>
      let (irqIdx, irqFd) := storeFds iface.rxIrq irqIdx irqFd
      let (irqIdx, irqFd) := storeFds iface.txIrq irqIdx irqFd
      storeIfaces ifaces irqIdx irqFd

/-- `ufp_vfio_irq_set`: what is passed to VFIO, if VFIO takes it. -/
def ufpVfioIrqSet (dev : Dev) (numIrqs : Nat) (host : Host) : Option IrqSet × Host :=
  if sys.irqInfo ≠ some true then (none, host)
  else
    match malloc sys host with
    | (false, host) => (none, host)
    | (true, host) =>
        let (irqIdx, irqFd) := storeFds dev.miscIrq 0 fun _ => none
        let (_, irqFd) := storeIfaces dev.ifaces irqIdx irqFd
        if sys.setIrqs then (some ⟨0, numIrqs, irqFd⟩, host) else (none, host)

/-- `ufp_up`: the device with its interrupts, and what VFIO was given. -/
def ufpUp (dev : Dev) (numQps : Nat) (host : Host) : Option (Dev × IrqSet) × Host :=
  match malloc sys host with
  | (false, host) => (none, host)
  | (true, host) =>
      match openIrqs sys dev.numMiscIrqs 0 host with
      | (miscIrq, false, _, host) => (none, miscIrq.foldl ufpIrqClose host)
      | (miscIrq, true, irqIdx, host) =>
          match upIfaces sys numQps dev.ifaces irqIdx host with
          | (ifaces, false, _, host) => (none, miscIrq.foldl ufpIrqClose (ifaces.foldl ufpDownIface host))
          | (ifaces, true, irqIdx, host) =>
              let dev := { dev with miscIrq, ifaces }
              match ufpVfioIrqSet sys dev irqIdx host with
              | (none, host) => (none, miscIrq.foldl ufpIrqClose (ifaces.foldl ufpDownIface host))
              | (some set, host) =>
                  if sys.vectorGet ∧ sys.opsUp then (some (dev, set), host)
                  else (none, miscIrq.foldl ufpIrqClose (ifaces.foldl ufpDownIface host))

end Code

/-! ## The numbers of the interrupts -/

variable {sys : Answers}

/-- The interrupts were opened one after the other, from the `call`-th `eventfd` on,
with numbers from `irqIdx` on. -/
def Opened (sys : Answers) (call irqIdx : Nat) (irqs : List UfpIrq) : Prop :=
  ∀ i irq, irqs[i]? = some irq → irq.entryIdx = (irqIdx + i) % 2 ^ 16 ∧ sys.eventfd (call + i) = some irq.fd

theorem Opened.append {call irqIdx : Nat} {irqs more : List UfpIrq} (first : Opened sys call irqIdx irqs)
    (second : Opened sys (call + irqs.length) (irqIdx + irqs.length) more) :
    Opened sys call irqIdx (irqs ++ more) := by
  intro i irq here
  by_cases inside : i < irqs.length
  · rw [List.getElem?_append_left inside] at here
    exact first i irq here
  · rw [List.getElem?_append_right (by omega)] at here
    obtain ⟨index, fd⟩ := second _ irq here
    rw [Nat.add_assoc, Nat.add_sub_cancel' (by omega)] at index fd
    exact ⟨index, fd⟩

variable {host host' : Host}

theorem ufpIrqOpen_some {entryIdx : Nat} {irq : UfpIrq} (opened : ufpIrqOpen sys entryIdx host = (some irq, host')) :
    irq.entryIdx = entryIdx % 2 ^ 16 ∧ sys.eventfd host.eventfds = some irq.fd ∧
      host'.eventfds = host.eventfds + 1 := by
  simp only [ufpIrqOpen, malloc] at opened
  cases efd : sys.eventfd host.eventfds with
  | none => simp [efd] at opened
  | some fd =>
      cases block : sys.malloc host.mallocs with
      | false => simp [efd, block] at opened
      | true =>
          simp only [efd, block, Prod.mk.injEq, Option.some.injEq] at opened
          obtain ⟨rfl, rfl⟩ := opened
          exact ⟨rfl, rfl, rfl⟩

/-- **A loop that opens interrupts numbers them in turn.** -/
theorem openIrqs_done {todo irqIdx next : Nat} {irqs : List UfpIrq}
    (opened : openIrqs sys todo irqIdx host = (irqs, true, next, host')) :
    irqs.length = todo ∧ Opened sys host.eventfds irqIdx irqs ∧ host'.eventfds = host.eventfds + todo ∧
      (irqIdx + todo < 2 ^ 32 → next = irqIdx + todo) := by
  induction todo generalizing irqIdx host irqs with
  | zero =>
      cases opened
      exact ⟨rfl, fun i irq here => by simp at here, rfl, fun _ => rfl⟩
  | succ todo ih =>
      rw [openIrqs] at opened
      rcases first : ufpIrqOpen sys irqIdx host with ⟨_ | irq, middle⟩
      · simp [first] at opened
      rcases rest : openIrqs sys todo ((irqIdx + 1) % 2 ^ 32) middle with ⟨others, done, after, last⟩
      simp only [first, rest, Prod.mk.injEq] at opened
      obtain ⟨rfl, rfl, rfl, rfl⟩ := opened
      obtain ⟨index, fd, calls⟩ := ufpIrqOpen_some first
      obtain ⟨length, numbered, total, next⟩ := ih rest
      refine ⟨by rw [List.length_cons, length], fun i other here => ?_, by omega, fun small => by omega⟩
      cases i with
      | zero =>
          obtain rfl : irq = other := Option.some.inj here
          exact ⟨index, fd⟩
      | succ i =>
          obtain ⟨otherIndex, otherFd⟩ := numbered i other here
          rw [calls] at otherFd
          exact ⟨by omega, by rw [← otherFd]; exact congrArg _ (by omega)⟩

/-- The eventfds of a list of interrupts, as an array. -/
def fdsOf (irqs : List UfpIrq) (k : Nat) : Option Int := (irqs[k]?).map UfpIrq.fd

/-- **The array gets the eventfds in the order in which they are stored.** -/
theorem storeFds_eq (irqs stored : List UfpIrq) :
    storeFds irqs stored.length (fdsOf stored) = ((stored ++ irqs).length, fdsOf (stored ++ irqs)) := by
  induction irqs generalizing stored with
  | nil => rw [storeFds, List.append_nil]
  | cons irq irqs ih =>
      have one : Function.update (fdsOf stored) stored.length (some irq.fd) = fdsOf (stored ++ [irq]) := by
        funext k
        by_cases here : k = stored.length
        · simp [here, fdsOf]
        · rw [Function.update_of_ne here, fdsOf, fdsOf, List.getElem?_append]
          split
          · rfl
          · rw [List.getElem?_eq_none (by omega), List.getElem?_eq_none (by simp; omega)]
      have next := ih (stored ++ [irq])
      rw [List.length_append, List.length_singleton, List.append_assoc, List.singleton_append] at next
      rw [storeFds, one, next]

theorem storeIfaces_eq (ifaces : List Iface) (stored : List UfpIrq) :
    storeIfaces ifaces stored.length (fdsOf stored) =
      ((stored ++ ifaces.flatMap fun iface => iface.rxIrq ++ iface.txIrq).length,
        fdsOf (stored ++ ifaces.flatMap fun iface => iface.rxIrq ++ iface.txIrq)) := by
  induction ifaces generalizing stored with
  | nil => rw [storeIfaces, List.flatMap_nil, List.append_nil]
  | cons iface ifaces ih =>
      simp only [storeIfaces, storeFds_eq, ih, List.flatMap_cons, List.append_assoc]

theorem malloc_eventfds {block : Bool} (taken : malloc sys host = (block, host')) :
    host'.eventfds = host.eventfds := by
  cases taken
  rfl

/-- All interrupts of a device, in the order of the array. -/
def Dev.irqs (dev : Dev) : List UfpIrq := dev.miscIrq ++ dev.ifaces.flatMap fun iface => iface.rxIrq ++ iface.txIrq

theorem ufpVfioIrqSet_some {dev : Dev} {numIrqs : Nat} {set : IrqSet}
    (passed : ufpVfioIrqSet sys dev numIrqs host = (some set, host')) : set = ⟨0, numIrqs, fdsOf dev.irqs⟩ := by
  have array : storeFds dev.miscIrq 0 (fun _ => none) = (dev.miscIrq.length, fdsOf dev.miscIrq) := storeFds_eq dev.miscIrq []
  simp only [ufpVfioIrqSet, array, storeIfaces_eq] at passed
  split at passed
  · cases passed
  rcases block : malloc sys host with ⟨_ | _, host₁⟩
  · simp [block] at passed
  simp only [block] at passed
  split at passed
  · exact (Option.some.inj (Prod.mk.inj passed).1).symm
  · cases passed

theorem ufpUpIface_some {iface up : Iface} (done : ufpUpIface sys iface host = (some up, host')) :
    ∃ rxIrq txIrq, up = { iface with rxIrq, txIrq } ∧ rxIrq.length = iface.numQps ∧ txIrq.length = iface.numQps ∧
      (1 + iface.numQps < 2 ^ 32 → Opened sys host.eventfds 1 (rxIrq ++ txIrq)) := by
  simp only [ufpUpIface] at done
  split at done
  · cases done
  rcases rxBlock : malloc sys { host with ifacesUp := host.ifacesUp + 1 } with ⟨_ | _, host₁⟩
  · simp [rxBlock] at done
  rcases txBlock : malloc sys host₁ with ⟨_ | _, host₂⟩
  · simp [rxBlock, txBlock] at done
  rcases rx : openIrqs sys iface.numQps 1 host₂ with ⟨rxIrq, _ | _, irqIdx, host₃⟩
  · simp [rxBlock, txBlock, rx] at done
  rcases tx : openIrqs sys iface.numQps irqIdx host₃ with ⟨txIrq, _ | _, _, host₄⟩
  · simp [rxBlock, txBlock, rx, tx] at done
  simp only [rxBlock, txBlock, rx, tx, Prod.mk.injEq, Option.some.injEq] at done
  have first := malloc_eventfds rxBlock
  have calls : host₂.eventfds = host.eventfds := (malloc_eventfds txBlock).trans first
  obtain ⟨rxLength, rxOpened, rxCalls, rxNext⟩ := openIrqs_done rx
  obtain ⟨txLength, txOpened, _, _⟩ := openIrqs_done tx
  refine ⟨rxIrq, txIrq, done.1.symm, rxLength, txLength, fun small => ?_⟩
  rw [calls] at rxOpened rxCalls
  rw [rxNext small, rxCalls, ← rxLength] at txOpened
  exact rxOpened.append txOpened

/-- **The interrupts of a device with one interface are numbered in the order in which
their eventfds are passed to VFIO**, and the array has room for just these. -/
theorem ufpUp_one {dev dev' : Dev} {iface : Iface} {numQps : Nat} {set : IrqSet} (one : dev.ifaces = [iface])
    (misc : dev.numMiscIrqs = 1) (small : 1 + 2 * numQps < 2 ^ 32)
    (up : ufpUp sys dev numQps host = (some (dev', set), host')) :
    ∃ rxIrq txIrq, dev'.ifaces = [{ iface with numQps, rxIrq, txIrq }] ∧
      rxIrq.length = numQps ∧ txIrq.length = numQps ∧ dev'.miscIrq.length = 1 ∧
      Opened sys host.eventfds 0 dev'.irqs ∧ set.count = dev'.irqs.length ∧ set.fds = fdsOf dev'.irqs := by
  obtain ⟨numMiscIrqs, before, ifaces⟩ := dev
  cases one
  cases misc
  simp only [ufpUp] at up
  rcases block : malloc sys host with ⟨_ | _, host₁⟩
  · simp [block] at up
  rcases opened : openIrqs sys 1 0 host₁ with ⟨miscIrq, _ | _, irqIdx, host₂⟩
  · simp [block, opened] at up
  rcases ifaceUp : ufpUpIface sys { iface with numQps } host₂ with ⟨_ | upped, host₃⟩
  · simp [block, opened, upIfaces, ifaceUp] at up
  simp only [block, opened, upIfaces, ifaceUp] at up
  rcases passed : ufpVfioIrqSet sys ⟨1, miscIrq, [upped]⟩ ((irqIdx + numQps * 2) % 2 ^ 32) host₃
    with ⟨_ | set', host₄⟩
  · simp only [passed] at up
    cases up
  simp only [passed] at up
  split at up
  · obtain ⟨rfl, rfl⟩ := Prod.mk.inj (Option.some.inj (Prod.mk.inj up).1)
    obtain ⟨miscLength, miscOpened, miscCalls, miscNext⟩ := openIrqs_done opened
    obtain ⟨rxIrq, txIrq, rfl, rxLength, txLength, ifaceOpened⟩ := ufpUpIface_some ifaceUp
    rw [malloc_eventfds block] at miscOpened miscCalls
    rw [miscCalls] at ifaceOpened
    have irqs : Dev.irqs ⟨1, miscIrq, [{ iface with numQps, rxIrq, txIrq }]⟩ =
        miscIrq ++ (rxIrq ++ txIrq) := by
      simp [Dev.irqs]
    rw [ufpVfioIrqSet_some passed, irqs]
    refine ⟨rxIrq, txIrq, rfl, rxLength, txLength, miscLength, ?_, ?_, rfl⟩
    · refine miscOpened.append ?_
      rw [miscLength]
      exact ifaceOpened (show 1 + numQps < 2 ^ 32 by omega)
    · simp only [List.length_append, miscLength, rxLength, txLength, miscNext (by decide)]
      omega
  · cases up

/-! ## The CPU of an interrupt -/

/-- What is written to `/proc/irq/<vector>/smp_affinity`: two words of a bit mask of
CPUs, the high one first. -/
structure AffinityWrite where
  vector : Nat
  maskHigh : Nat
  maskLow : Nat

/-- The CPUs that the two words select. -/
def AffinityWrite.mask (w : AffinityWrite) : Nat := w.maskHigh * 2 ^ 32 + w.maskLow

/-- Whether the file of a vector can be opened, and printed to. -/
structure AffinityFiles where
  opens : Nat → Bool
  prints : Nat → Bool

/-- `1 << n` in a `uint32_t`. A shift by the width of an `int` or more is undefined;
one into the sign bit is not, with GCC. -/
def shiftOne (n : Nat) : Option Nat := if n < 32 then some (1 <<< n) else none

/-- `mask_high` and `mask_low` of `ufp_irq_setaffinity`. -/
def affinityMasks (coreId : Nat) : Option (Nat × Nat) := do
  let maskLow ← if coreId ≤ 31 then shiftOne coreId else some 0
  let maskHigh ← if coreId ≤ 31 then some 0 else shiftOne (coreId - 31)
  some (maskHigh, maskLow)

/-- `ufp_irq_setaffinity`: whether it returns 0, and what was written before and by it;
`none` if it is undefined. -/
def ufpIrqSetaffinity (files : AffinityFiles) (irq : UfpIrq) (coreId : Nat) (written : List AffinityWrite) :
    Option (Bool × List AffinityWrite) :=
  (affinityMasks coreId).map fun (maskHigh, maskLow) =>
    if ¬ files.opens irq.vector then (false, written)
    else if ¬ files.prints irq.vector then (false, written)
    else (true, ⟨irq.vector, maskHigh, maskLow⟩ :: written)

/-- What `ufp_plane_alloc` does about interrupts, for the RX and the TX interrupt of
each port. -/
def planeAffinity (files : AffinityFiles) (coreId : Nat) : List (UfpIrq × UfpIrq) → List AffinityWrite →
    Option (Bool × List AffinityWrite)
  | [], written => some (true, written)
  | (rxIrq, txIrq) :: ports, written =>
      (ufpIrqSetaffinity files rxIrq coreId written).bind fun
        | (false, written) => some (false, written)
        | (true, written) =>
            (ufpIrqSetaffinity files txIrq coreId written).bind fun
              | (false, written) => some (false, written)
              | (true, written) => planeAffinity files coreId ports written

section

variable {files : AffinityFiles} {coreId maskHigh maskLow : Nat} (masks : affinityMasks coreId = some (maskHigh, maskLow))
include masks

/-- One call adds at most one mask, and adds one if it returns 0. -/
theorem ufpIrqSetaffinity_spec (irq : UfpIrq) (written : List AffinityWrite) :
    ufpIrqSetaffinity files irq coreId written =
      if files.opens irq.vector ∧ files.prints irq.vector then some (true, ⟨irq.vector, maskHigh, maskLow⟩ :: written)
      else some (false, written) := by
  rw [ufpIrqSetaffinity, masks, Option.map_some]
  cases files.opens irq.vector <;> cases files.prints irq.vector <;> rfl

/-- All masks that are written for a plane are those of its core. -/
theorem planeAffinity_masks (ports : List (UfpIrq × UfpIrq)) (written : List AffinityWrite) :
    ∃ ok after, planeAffinity files coreId ports written = some (ok, after) ∧ (∀ w ∈ written, w ∈ after) ∧
      ∀ w ∈ after, w ∈ written ∨ w.maskHigh = maskHigh ∧ w.maskLow = maskLow := by
  induction ports generalizing written with
  | nil => exact ⟨true, written, rfl, fun _ member => member, fun _ member => .inl member⟩
  | cons port ports ih =>
      obtain ⟨rxIrq, txIrq⟩ := port
      rw [planeAffinity, ufpIrqSetaffinity_spec masks rxIrq]
      split
      · simp only [Option.bind_some, ufpIrqSetaffinity_spec masks txIrq]
        split
        · obtain ⟨ok, after, done, kept, each⟩ := ih (⟨txIrq.vector, maskHigh, maskLow⟩ ::
            ⟨rxIrq.vector, maskHigh, maskLow⟩ :: written)
          refine ⟨ok, after, done, fun w member => kept w (by simp [member]), fun w member => ?_⟩
          rcases each w member with old | new
          · simp only [List.mem_cons] at old
            rcases old with rfl | rfl | old
            · exact .inr ⟨rfl, rfl⟩
            · exact .inr ⟨rfl, rfl⟩
            · exact .inl old
          · exact .inr new
        · refine ⟨false, _, rfl, fun w member => List.mem_cons_of_mem _ member, fun w member => ?_⟩
          rcases List.mem_cons.1 member with rfl | old
          · exact .inr ⟨rfl, rfl⟩
          · exact .inl old
      · exact ⟨false, written, rfl, fun _ member => member, fun _ member => .inl member⟩

theorem planeAffinity_first (rxIrq txIrq : UfpIrq) (ports : List (UfpIrq × UfpIrq)) (written : List AffinityWrite)
    (takes : files.opens rxIrq.vector = true ∧ files.prints rxIrq.vector = true) :
    ∃ ok after, planeAffinity files coreId ((rxIrq, txIrq) :: ports) written = some (ok, after) ∧
      ⟨rxIrq.vector, maskHigh, maskLow⟩ ∈ after := by
  rw [planeAffinity, ufpIrqSetaffinity_spec masks rxIrq, if_pos takes]
  simp only [Option.bind_some, ufpIrqSetaffinity_spec masks txIrq]
  split
  · obtain ⟨ok, after, done, kept, _⟩ := planeAffinity_masks masks ports (⟨txIrq.vector, maskHigh, maskLow⟩ ::
      ⟨rxIrq.vector, maskHigh, maskLow⟩ :: written)
    exact ⟨ok, after, done, kept _ (by simp)⟩
  · exact ⟨false, _, rfl, List.mem_cons_self⟩

theorem planeAffinity_unwritten (rxIrq txIrq : UfpIrq) (ports : List (UfpIrq × UfpIrq)) (written : List AffinityWrite)
    (refuses : ¬ (files.opens rxIrq.vector = true ∧ files.prints rxIrq.vector = true)) :
    planeAffinity files coreId ((rxIrq, txIrq) :: ports) written = some (false, written) := by
  rw [planeAffinity, ufpIrqSetaffinity_spec masks rxIrq, if_neg refuses]
  rfl

end

end Ufp.Lib.Irq
