/-
# Ufp.Dev.Irq — which interrupt a queue raises, `dev/i40e/i40e_io.c`

`i40e_vsi_configure_irq` gives each queue of an interface an interrupt of its own:
the cause register of the queue gets the MSI-X index, and the list of queues of that
interrupt gets the queue. The registers of interrupt `n` have the index `n - 1`.
`i40e_update_enable_itr` takes the `entry_idx` of a `ufp_irq` and enables an
interrupt again.

`irq_numbers_agree_iff` is about this numbering, that of `ufp_up`, and the order in
which VFIO gets the eventfds. They agree as long as the index fits its register.
-/
import Ufp.Dev.Queues
import Ufp.Lib.Irq

namespace Ufp.Dev.Irq

open Ufp.Lib.Irq
open Ufp.Dev.Queues (Dir)

set_option autoImplicit false

/-! ## Registers -/

/-- The registers of the device by their offset in the BAR. -/
abbrev Regs := Nat → Nat

/-- `UFP_WRITE32`. -/
def write32 (reg value : Nat) (regs : Regs) : Regs := Function.update regs reg (value % 2 ^ 32)

def pfintItrn (i intpf : Nat) : Nat := 0x00030000 + (i * 2048 + intpf * 4)
def pfintDynCtln (intpf : Nat) : Nat := 0x00034800 + intpf * 4
def pfintLnklstn (intpf : Nat) : Nat := 0x00035000 + intpf * 4
def pfintRaten (intpf : Nat) : Nat := 0x00035800 + intpf * 4

/-- `QINT_RQCTL` and `QINT_TQCTL`. -/
def qintCtl : Dir → (q : Nat) → Nat
  | .rx, q => 0x0003A000 + q * 4
  | .tx, q => 0x0003C000 + q * 4

/-- The field `MSIX_INDX` of `QINT_RQCTL` and `QINT_TQCTL`. -/
def msixIndx (ctl : Nat) : Nat := ctl &&& 0xFF

/-- The fields `FIRSTQ_INDX` and `FIRSTQ_TYPE` of `PFINT_LNKLSTN`. -/
def firstq (lnklstn : Nat) : Nat × Nat := (lnklstn &&& 0x7FF, lnklstn >>> 11 &&& 0x3)

/-- `I40E_QUEUE_TYPE_RX` and `I40E_QUEUE_TYPE_TX`. -/
def queueType : Dir → Nat
  | .rx => 0
  | .tx => 1

/-- `I40E_NUM_MISC_IRQS`. -/
def numMiscIrqs : Nat := 1

/-- `ITR_TO_REG`. -/
def itrToReg (setting : Nat) : Nat := (setting &&& 0xFFFF7FFF) >>> 1

/-- `INTRL_USEC_TO_REG`. -/
def intrlUsecToReg (set : Nat) : Nat := if set ≠ 0 then set >>> 2 ||| 0x40 else 0

/-! ## Giving queues their interrupts -/

/-- A queue gets an interrupt, with `I40E_ITR_20K` and the end of the list of queues,
0x7FF. -/
def configureIrq (dir : Dir) (irqRate qpIdx irqIdx : Nat) (regs : Regs) : Regs :=
  let regs := write32 (pfintItrn 0 (irqIdx - 1)) (itrToReg 0x0019) regs
  let regs := write32 (pfintRaten (irqIdx - 1)) (intrlUsecToReg irqRate) regs
  let regs := write32 (pfintLnklstn (irqIdx - 1)) (qpIdx <<< 0 ||| queueType dir <<< 11) regs
  write32 (qintCtl dir qpIdx) (1 <<< 30 ||| 0 <<< 11 ||| irqIdx <<< 0 ||| 0x7FF <<< 16) regs

def i40eVsiConfigureIrqRx : (irqRate qpIdx irqIdx : Nat) → Regs → Regs := configureIrq .rx

def i40eVsiConfigureIrqTx : (irqRate qpIdx irqIdx : Nat) → Regs → Regs := configureIrq .tx

/-- The loops of `i40e_vsi_configure_irq`, from queue `i` on: `irq_idx` after them, and
the registers. `qp_idx` and `irq_idx` are `uint16_t`s. -/
def configureIrqs (configure : (irqRate qpIdx irqIdx : Nat) → Regs → Regs) (iface : Iface) :
    (todo i irqIdx : Nat) → Regs → Nat × Regs
  | 0, _, irqIdx, regs => (irqIdx, regs)
  | todo + 1, i, irqIdx, regs =>
      configureIrqs configure iface todo (i + 1) ((irqIdx + 1) % 2 ^ 16)
        (configure iface.irqRate ((iface.baseQp + i) % 2 ^ 16) irqIdx regs)

def i40eVsiConfigureIrq (iface : Iface) (regs : Regs) : Regs :=
  let irqIdx := (iface.baseQp * 2 % 2 ^ 16 + numMiscIrqs) % 2 ^ 16
  let (irqIdx, regs) := configureIrqs i40eVsiConfigureIrqRx iface iface.numQps 0 irqIdx regs
  let (_, regs) := configureIrqs i40eVsiConfigureIrqTx iface iface.numQps 0 irqIdx regs
  regs

/-- `i40e_update_enable_itr`: `INTENA`, and `I40E_ITR_NONE` in `ITR_INDX`. -/
def i40eUpdateEnableItr (entryIdx : Nat) (regs : Regs) : Regs :=
  write32 (pfintDynCtln (entryIdx - 1)) (1 <<< 0 ||| 3 <<< 3) regs

/-- A device as `ufp_open` and `i40e_open` leave it: one interface, from queue 0 on. -/
def i40eDev (irqRate : Nat) : Lib.Irq.Dev := ⟨numMiscIrqs, [], [⟨0, 0, irqRate, [], []⟩]⟩

/-! ## What the registers say afterwards -/

/-- What the cause register of a queue with interrupt `irqIdx` holds. -/
def ctlOf (irqIdx : Nat) : Nat := (1 <<< 30 ||| 0 <<< 11 ||| irqIdx <<< 0 ||| 0x7FF <<< 16) % 2 ^ 32

/-- What the list register of the interrupt of a queue holds. -/
def lnkOf (dir : Dir) (qpIdx : Nat) : Nat := (qpIdx <<< 0 ||| queueType dir <<< 11) % 2 ^ 32

theorem msixIndx_lt (ctl : Nat) : msixIndx ctl < 256 := by
  rw [msixIndx, Nat.and_two_pow_sub_one_eq_mod _ 8]
  exact Nat.mod_lt _ (by decide)

theorem msixIndx_ctlOf {irqIdx : Nat} (fits : irqIdx < 256) : msixIndx (ctlOf irqIdx) = irqIdx := by
  have low : ∀ x, x % 2 ^ 32 % 2 ^ 8 = x % 2 ^ 8 := fun x => Nat.mod_mod_of_dvd x (by decide)
  rw [msixIndx, Nat.and_two_pow_sub_one_eq_mod _ 8, ctlOf, low, Nat.or_mod_two_pow, Nat.or_mod_two_pow]
  simp [Nat.mod_eq_of_lt fits]

theorem firstq_lnkOf (dir : Dir) {qpIdx : Nat} (fits : qpIdx < 2048) :
    firstq (lnkOf dir qpIdx) = (qpIdx, queueType dir) := by
  -- the two fields do not overlap, so the word is their sum
  have sum : lnkOf dir qpIdx = qpIdx + queueType dir * 2048 := by
    rw [lnkOf, Nat.shiftLeft_zero, Nat.or_comm, ← Nat.shiftLeft_add_eq_or_of_lt fits, Nat.shiftLeft_eq]
    cases dir <;> simp only [queueType] <;> omega
  rw [firstq, Nat.and_two_pow_sub_one_eq_mod _ 11, Nat.and_two_pow_sub_one_eq_mod _ 2, Nat.shiftRight_eq_div_pow, sum]
  refine Prod.ext ?_ ?_ <;> cases dir <;> simp only [queueType] <;> omega

section

variable {dir : Dir} {irqRate qpIdx irqIdx : Nat} {regs : Regs}

/-- The other registers are left alone. -/
theorem configureIrq_frame {reg : Nat} (itrn : reg ≠ pfintItrn 0 (irqIdx - 1)) (raten : reg ≠ pfintRaten (irqIdx - 1))
    (lnklstn : reg ≠ pfintLnklstn (irqIdx - 1)) (ctl : reg ≠ qintCtl dir qpIdx) :
    configureIrq dir irqRate qpIdx irqIdx regs reg = regs reg := by
  simp only [configureIrq, write32, Function.update_of_ne ctl, Function.update_of_ne lnklstn,
    Function.update_of_ne raten, Function.update_of_ne itrn]

theorem configureIrq_ctl : configureIrq dir irqRate qpIdx irqIdx regs (qintCtl dir qpIdx) = ctlOf irqIdx := by
  simp only [configureIrq, write32, Function.update_self]
  rfl

theorem configureIrq_lnklstn (apart : pfintLnklstn (irqIdx - 1) ≠ qintCtl dir qpIdx) :
    configureIrq dir irqRate qpIdx irqIdx regs (pfintLnklstn (irqIdx - 1)) = lnkOf dir qpIdx := by
  simp only [configureIrq, write32, Function.update_of_ne apart, Function.update_self]
  rfl

end

section

variable {dir : Dir} {iface : Iface} (base : iface.baseQp = 0)
include base

variable {i todo irqIdx : Nat}

/-- One turn of a loop, as long as nothing overflows. -/
theorem configureIrqs_succ (queues : i < 2 ^ 16) (irqs : irqIdx + 1 < 2 ^ 16) (regs : Regs) :
    configureIrqs (configureIrq dir) iface (todo + 1) i irqIdx regs =
      configureIrqs (configureIrq dir) iface todo (i + 1) (irqIdx + 1)
        (configureIrq dir iface.irqRate i irqIdx regs) := by
  rw [configureIrqs, base, Nat.zero_add, Nat.mod_eq_of_lt queues, Nat.mod_eq_of_lt irqs]

theorem configureIrqs_next (queues : i + todo < 2 ^ 16) (irqs : irqIdx + todo < 2 ^ 16) (regs : Regs) :
    (configureIrqs (configureIrq dir) iface todo i irqIdx regs).1 = irqIdx + todo := by
  induction todo generalizing i irqIdx regs with
  | zero => rfl
  | succ todo ih =>
      rw [configureIrqs_succ base (by omega) (by omega), ih (by omega) (by omega)]
      omega

/-- A register that no turn of the loop writes is left alone. -/
theorem configureIrqs_frame {reg : Nat} (queues : i + todo < 2 ^ 16) (irqs : irqIdx + todo < 2 ^ 16)
    (irqRegs : ∀ k < todo, reg ≠ pfintItrn 0 (irqIdx + k - 1) ∧ reg ≠ pfintRaten (irqIdx + k - 1) ∧
      reg ≠ pfintLnklstn (irqIdx + k - 1)) (ctlRegs : ∀ k < todo, reg ≠ qintCtl dir (i + k)) (regs : Regs) :
    (configureIrqs (configureIrq dir) iface todo i irqIdx regs).2 reg = regs reg := by
  induction todo generalizing i irqIdx regs with
  | zero => rfl
  | succ todo ih =>
      have laterIrqs : ∀ k < todo, reg ≠ pfintItrn 0 (irqIdx + 1 + k - 1) ∧ reg ≠ pfintRaten (irqIdx + 1 + k - 1) ∧
          reg ≠ pfintLnklstn (irqIdx + 1 + k - 1) := by
        intro k inside
        rw [Nat.add_assoc, Nat.add_comm 1 k]
        exact irqRegs (k + 1) (by omega)
      have laterCtls : ∀ k < todo, reg ≠ qintCtl dir (i + 1 + k) := by
        intro k inside
        rw [Nat.add_assoc, Nat.add_comm 1 k]
        exact ctlRegs (k + 1) (by omega)
      obtain ⟨itrn, raten, lnklstn⟩ := irqRegs 0 (by omega)
      rw [configureIrqs_succ base (by omega) (by omega), ih (by omega) (by omega) laterIrqs laterCtls]
      exact configureIrq_frame itrn raten lnklstn (ctlRegs 0 (by omega))

/-- **Each queue of the loop has the next interrupt in its cause register, and is in
the list of that interrupt.** -/
theorem configureIrqs_numbers (todo i irqIdx : Nat) (queues : i + todo ≤ 128) (first : 1 ≤ irqIdx)
    (irqs : irqIdx + todo ≤ 256) (regs : Regs) {k : Nat} (inside : k < todo) :
    (configureIrqs (configureIrq dir) iface todo i irqIdx regs).2 (qintCtl dir (i + k)) = ctlOf (irqIdx + k) ∧
      (configureIrqs (configureIrq dir) iface todo i irqIdx regs).2 (pfintLnklstn (irqIdx + k - 1)) =
        lnkOf dir (i + k) := by
  induction todo generalizing i irqIdx regs k with
  | zero => omega
  | succ todo ih =>
      rw [configureIrqs_succ base (by omega) (by omega)]
      cases k with
      | succ k =>
          have later := ih (i + 1) (irqIdx + 1) (by omega) (by omega) (by omega)
            (configureIrq dir iface.irqRate i irqIdx regs) (k := k) (by omega)
          rwa [Nat.add_assoc, Nat.add_assoc, Nat.add_comm 1 k] at later
      | zero =>
          -- the later turns write other registers: each group of 512 has its own addresses
          have ctlApart : ∀ j < 512, qintCtl dir i ≠ pfintItrn 0 j ∧ qintCtl dir i ≠ pfintRaten j ∧
              qintCtl dir i ≠ pfintLnklstn j := by
            intro j bound
            cases dir <;> simp only [qintCtl, pfintItrn, pfintRaten, pfintLnklstn] <;> omega
          simp only [Nat.add_zero]
          constructor
          · refine (configureIrqs_frame base (by omega) (by omega) ?_ ?_ _).trans configureIrq_ctl
            · exact fun k later => ctlApart _ (by omega)
            · intro k later
              cases dir <;> simp only [qintCtl] <;> omega
          · refine (configureIrqs_frame base (by omega) (by omega) ?_ ?_ _).trans
              (configureIrq_lnklstn (ctlApart _ (by omega)).2.2.symm)
            · intro k later
              simp only [pfintItrn, pfintRaten, pfintLnklstn]
              omega
            · intro k later
              cases dir <;> simp only [qintCtl, pfintLnklstn] <;> omega

/-- The place of the interrupt of queue `i` among those of the device. -/
def irqOf (numQps i : Nat) : Dir → Nat
  | .rx => 1 + i
  | .tx => 1 + (numQps + i)

theorem i40eVsiConfigureIrq_numbers (few : iface.numQps ≤ 127) (regs : Regs) (dir : Dir) (inside : i < iface.numQps) :
    i40eVsiConfigureIrq iface regs (qintCtl dir i) = ctlOf (irqOf iface.numQps i dir) ∧
      i40eVsiConfigureIrq iface regs (pfintLnklstn (irqOf iface.numQps i dir - 1)) = lnkOf dir i := by
  have start : (iface.baseQp * 2 % 2 ^ 16 + numMiscIrqs) % 2 ^ 16 = 1 := by rw [base]; rfl
  have next : (configureIrqs (configureIrq .rx) iface iface.numQps 0 1 regs).1 = 1 + iface.numQps :=
    configureIrqs_next base (by omega) (by omega) regs
  simp only [i40eVsiConfigureIrq, i40eVsiConfigureIrqRx, i40eVsiConfigureIrqTx, start, next]
  cases dir with
  | tx =>
      have numbers := @configureIrqs_numbers .tx iface base iface.numQps 0 (1 + iface.numQps) (by omega) (by omega)
        (by omega) (configureIrqs (configureIrq .rx) iface iface.numQps 0 1 regs).2 i inside
      rwa [Nat.zero_add, Nat.add_assoc] at numbers
  | rx =>
      have numbers := @configureIrqs_numbers .rx iface base iface.numQps 0 1 (by omega) (by omega) (by omega) regs
        i inside
      rw [Nat.zero_add] at numbers
      constructor
      · refine (configureIrqs_frame base (by omega) (by omega) ?_ ?_ _).trans numbers.1
        · intro k later
          simp only [qintCtl, pfintItrn, pfintRaten, pfintLnklstn]
          omega
        · intro k later
          simp only [qintCtl]
          omega
      · refine (configureIrqs_frame base (by omega) (by omega) ?_ ?_ _).trans numbers.2
        · intro k later
          simp only [irqOf, pfintItrn, pfintRaten, pfintLnklstn]
          omega
        · intro k later
          simp only [irqOf, qintCtl, pfintLnklstn]
          omega

end

/-! ## Three numberings -/

/-- The interrupts of the queues of an interface. -/
def irqsOf (iface : Iface) : Dir → List UfpIrq
  | .rx => iface.rxIrq
  | .tx => iface.txIrq

/-- The `irq` of a queue is the one that VFIO gets at the place `entry_idx`, its
`entry_idx` is the index in the cause register of the queue, and to unmask it is to
enable that interrupt, in whose list the queue is, and no other. -/
structure Numbered (set : IrqSet) (regs : Regs) (dir : Dir) (qpIdx : Nat) (irq : UfpIrq) : Prop where
  position : ∀ k, set.fds k = some irq.fd ↔ k = irq.entryIdx
  programmed : msixIndx (regs (qintCtl dir qpIdx)) = irq.entryIdx
  unmasked : ∃ j, j + 1 = msixIndx (regs (qintCtl dir qpIdx)) ∧
    firstq (regs (pfintLnklstn j)) = (qpIdx, queueType dir) ∧
    (i40eUpdateEnableItr irq.entryIdx regs (pfintDynCtln j)).testBit 0 = true ∧
    ∀ reg, reg ≠ pfintDynCtln j → i40eUpdateEnableItr irq.entryIdx regs reg = regs reg

/-- Every queue has an interrupt that is numbered so, no number is used twice, and the
array that VFIO gets is full. -/
structure Agree (dev : Lib.Irq.Dev) (set : IrqSet) (regs : Regs) : Prop where
  queues : ∀ iface ∈ dev.ifaces, ∀ dir, ∀ i < iface.numQps,
    ∃ irq, (irqsOf iface dir)[i]? = some irq ∧ Numbered set regs dir (iface.baseQp + i) irq
  distinct : (dev.irqs.map UfpIrq.entryIdx).Nodup
  full : set.count = dev.irqs.length ∧ ∀ k, (set.fds k).isSome = true ↔ k < set.count

/-- The interrupts of all interfaces are configured, as by the `up` of the driver. -/
def configureDev (dev : Lib.Irq.Dev) (regs : Regs) : Regs :=
  dev.ifaces.foldl (fun regs iface => i40eVsiConfigureIrq iface regs) regs

/-- The eventfds that are opened in `count` calls are distinct, since none of them is
closed in between. -/
def FdsDistinct (sys : Answers) (call count : Nat) : Prop :=
  ∀ j < count, ∀ k < count, ∀ fd, sys.eventfd (call + j) = some fd → sys.eventfd (call + k) = some fd → j = k

section

variable {sys : Answers} {call : Nat} {irqs : List UfpIrq}

/-- Interrupts that were opened in turn are in the array at their own numbers. -/
theorem position_iff (distinct : FdsDistinct sys call irqs.length)
    (opened : Opened sys call 0 irqs) (short : irqs.length ≤ 2 ^ 16) {p : Nat} {irq : UfpIrq}
    (here : irqs[p]? = some irq) : irq.entryIdx = p ∧ ∀ k, fdsOf irqs k = some irq.fd ↔ k = irq.entryIdx := by
  obtain ⟨inside, _⟩ := List.getElem?_eq_some_iff.1 here
  obtain ⟨index, fd⟩ := opened p irq here
  have number : irq.entryIdx = p := by omega
  refine ⟨number, fun k => ⟨fun same => ?_, fun same => ?_⟩⟩
  · obtain ⟨other, there, fdEq⟩ := Option.map_eq_some_iff.1 same
    have otherFd := (opened k other there).2
    rw [fdEq] at otherFd
    exact (distinct k (List.getElem?_eq_some_iff.1 there).1 p inside _ otherFd fd).trans number.symm
  · rw [same, number, fdsOf, here]
    rfl

theorem entryIdx_nodup (opened : Opened sys call 0 irqs) (short : irqs.length ≤ 2 ^ 16) :
    (irqs.map UfpIrq.entryIdx).Nodup := by
  have range : irqs.map UfpIrq.entryIdx = List.range irqs.length := by
    apply List.ext_getElem?
    intro k
    by_cases inside : k < irqs.length
    · have here := List.getElem?_eq_getElem inside
      rw [List.getElem?_map, here, List.getElem?_range inside, Option.map_some, (opened k _ here).1]
      exact congrArg some (by omega)
    · rw [List.getElem?_eq_none (by simpa using inside), List.getElem?_eq_none (by simpa using inside)]
  rw [range]
  exact List.nodup_range

end

/-- The registers of a queue whose interrupt is number `p` of the device. -/
theorem numbered_of_registers {set : IrqSet} {regs : Regs} {dir : Dir} {qpIdx p : Nat} {irq : UfpIrq}
    (number : irq.entryIdx = p) (position : ∀ k, set.fds k = some irq.fd ↔ k = irq.entryIdx) (first : 1 ≤ p)
    (fits : p < 256) (queue : qpIdx < 2048) (ctl : regs (qintCtl dir qpIdx) = ctlOf p)
    (lnklstn : regs (pfintLnklstn (p - 1)) = lnkOf dir qpIdx) : Numbered set regs dir qpIdx irq where
  position := position
  programmed := by rw [ctl, msixIndx_ctlOf fits, number]
  unmasked := by
    refine ⟨p - 1, by rw [ctl, msixIndx_ctlOf fits]; omega, by rw [lnklstn, firstq_lnkOf dir queue], ?_, ?_⟩
    · rw [i40eUpdateEnableItr, number, write32, Function.update_self]
      decide
    · intro reg other
      rw [i40eUpdateEnableItr, number, write32, Function.update_of_ne other]

/-- The interrupt of a queue among all of the device. -/
theorem getElem?_irqOf {misc rxIrq txIrq : List UfpIrq} {numQps baseQp irqRate i : Nat} (one : misc.length = 1)
    (rxLength : rxIrq.length = numQps) (inside : i < numQps) (dir : Dir) :
    (misc ++ (rxIrq ++ txIrq))[irqOf numQps i dir]? = (irqsOf ⟨numQps, baseQp, irqRate, rxIrq, txIrq⟩ dir)[i]? := by
  cases dir with
  | rx =>
      rw [irqOf, List.getElem?_append_right (by omega), one, Nat.add_sub_cancel_left,
        List.getElem?_append_left (by omega)]
      rfl
  | tx =>
      rw [irqOf, List.getElem?_append_right (by omega), one, Nat.add_sub_cancel_left,
        List.getElem?_append_right (by omega), rxLength, Nat.add_sub_cancel_left]
      rfl

section

variable {sys : Answers} {irqRate numQps : Nat} {host host' : Host} {dev : Lib.Irq.Dev} {set : IrqSet}

/-- What `ufp_up` makes of a device of the driver. -/
theorem ufpUp_i40eDev (small : 1 + 2 * numQps ≤ 65535)
    (up : ufpUp sys (i40eDev irqRate) numQps host = (some (dev, set), host')) :
    ∃ iface, dev.ifaces = [iface] ∧ iface.numQps = numQps ∧ iface.baseQp = 0 ∧
      (∀ dir, ∀ i < numQps, dev.irqs[irqOf numQps i dir]? = (irqsOf iface dir)[i]?) ∧
      dev.irqs.length = 1 + 2 * numQps ∧ Opened sys host.eventfds 0 dev.irqs ∧
      set.count = dev.irqs.length ∧ set.fds = fdsOf dev.irqs := by
  obtain ⟨rxIrq, txIrq, ifaces, rxLength, txLength, miscLength, opened, count, fds⟩ :=
    ufpUp_one rfl rfl (by omega) up
  have irqsEq : dev.irqs = dev.miscIrq ++ (rxIrq ++ txIrq) := by
    simp [Dev.irqs, ifaces]
  refine ⟨_, ifaces, rfl, rfl, fun dir i inside => ?_, ?_, opened, count, fds⟩
  · rw [irqsEq]
    exact getElem?_irqOf miscLength rxLength inside dir
  · rw [irqsEq, List.length_append, List.length_append, miscLength, rxLength, txLength]
    omega

variable (distinct : FdsDistinct sys host.eventfds (1 + 2 * numQps))
  (small : 1 + 2 * numQps ≤ 65535) (up : ufpUp sys (i40eDev irqRate) numQps host = (some (dev, set), host'))
  (regs : Regs)
include distinct small up

/-- An index that does not fit its register is not the number of the interrupt. -/
theorem agree_few (agree : Agree dev set (configureDev dev regs)) : numQps ≤ 127 := by
  obtain ⟨iface, ifaces, rfl, _, place, total, opened, _, _⟩ := ufpUp_i40eDev small up
  by_contra many
  -- the last TX queue has number 2 * num_qps
  obtain ⟨irq, here, numbered⟩ := agree.queues iface (by rw [ifaces]; exact List.mem_singleton_self _) .tx
    (iface.numQps - 1) (by omega)
  have entry := (position_iff (total ▸ distinct) opened (by omega) ((place .tx (iface.numQps - 1) (by omega)).trans here)).1
  have field := msixIndx_lt (configureDev dev regs (qintCtl .tx (iface.baseQp + (iface.numQps - 1))))
  rw [numbered.programmed, entry, irqOf] at field
  omega

theorem agree_of_few (few : numQps ≤ 127) : Agree dev set (configureDev dev regs) := by
  obtain ⟨iface, ifaces, rfl, base, place, total, opened, count, fds⟩ := ufpUp_i40eDev small up
  have configured : configureDev dev regs = i40eVsiConfigureIrq iface regs := by
    rw [configureDev, ifaces]
    rfl
  refine ⟨?_, entryIdx_nodup opened (by omega), count, fun k => ?_⟩
  · rw [ifaces, List.forall_mem_singleton, configured, base]
    intro dir i inside
    have bound : irqOf iface.numQps i dir < dev.irqs.length := by
      cases dir <;> rw [irqOf] <;> omega
    have here := List.getElem?_eq_getElem bound
    obtain ⟨entry, position⟩ := position_iff (total ▸ distinct) opened (by omega) here
    obtain ⟨ctl, lnklstn⟩ := i40eVsiConfigureIrq_numbers base few regs dir inside
    rw [← fds] at position
    rw [Nat.zero_add]
    refine ⟨_, (place dir i inside).symm.trans here, numbered_of_registers entry position ?_ (by omega) (by omega) ctl
      lnklstn⟩
    cases dir <;> rw [irqOf] <;> omega
  · rw [fds, count, fdsOf, Option.isSome_map]
    simp

end

/-- **The three numberings of interrupts agree** for a device as the driver sets it up,
exactly as long as the largest MSI-X index, `2 * num_qps`, fits the 8 bits that the
cause register of a queue has for it. -/
theorem irq_numbers_agree_iff (sys : Answers) (irqRate numQps : Nat) (small : 1 + 2 * numQps ≤ 65535)
    (host host' : Host) (distinct : FdsDistinct sys host.eventfds (1 + 2 * numQps)) (dev : Lib.Irq.Dev) (set : IrqSet)
    (up : ufpUp sys (i40eDev irqRate) numQps host = (some (dev, set), host')) (regs : Regs) :
    Agree dev set (configureDev dev regs) ↔ numQps ≤ 127 :=
  ⟨agree_few distinct small up regs, agree_of_few distinct small up regs⟩

/-- A system that grants everything. -/
def sampleAnswers : Answers where
  eventfd k := some k
  malloc _ := true
  allocRings _ := true
  tunUp _ := true
  irqInfo := some true
  setIrqs := true
  vectorGet := true
  opsUp := true

theorem sampleAnswers_distinct (call count : Nat) : FdsDistinct sampleAnswers call count := by
  intro j _ k _ fd first second
  simp only [sampleAnswers, Option.some.injEq] at first second
  omega

theorem irq_numbers_agree_iff_sample :
    ∃ dev set host, ufpUp sampleAnswers (i40eDev 0) 4 ⟨0, 0, 0, []⟩ = (some (dev, set), host) ∧
      Agree dev set (configureDev dev fun _ => 0) :=
  ⟨_, _, _, rfl, (irq_numbers_agree_iff sampleAnswers 0 4 (by decide) ⟨0, 0, 0, []⟩ _
    (sampleAnswers_distinct 0 9) _ _ rfl fun _ => 0).2 (by decide)⟩

/-- With 128 queue pairs the interrupt of the last TX queue is number 256, and its
cause register says 0. -/
theorem irq_numbers_wrap :
    ∃ dev set host, ufpUp sampleAnswers (i40eDev 0) 128 ⟨0, 0, 0, []⟩ = (some (dev, set), host) ∧
      ¬ Agree dev set (configureDev dev fun _ => 0) := by
  have done : (ufpUp sampleAnswers (i40eDev 0) 128 ⟨0, 0, 0, []⟩).1.isSome = true := by decide +kernel
  rcases up : ufpUp sampleAnswers (i40eDev 0) 128 ⟨0, 0, 0, []⟩ with ⟨_ | ⟨dev, set⟩, host⟩
  · rw [up] at done
    cases done
  · exact ⟨dev, set, host, rfl, fun agree =>
      absurd (agree_few (sampleAnswers_distinct _ _) (by decide) up _ agree) (by decide)⟩

end Ufp.Dev.Irq
