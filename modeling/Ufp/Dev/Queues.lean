/-
# Ufp.Dev.Queues — switching the queues of an interface on and off

Each queue has an enable register, `QRX_ENA` or `QTX_ENA`. The driver writes the
bit `QENA_REQ`, and the device answers with `QENA_STAT`. The four loops of
`dev/i40e/i40e_io.c` wait for an earlier request to be answered, skip a queue
whose status is already as wanted, write the request and wait for the answer, and
give up at the first queue that does not answer in time.

The device may report any status at any read: `Report` gives the bits of each read
other than `QENA_REQ`, which is as it was last written. `Swept` says what becomes of
a list of queues, in terms of what is reported for each of them.
-/
import Mathlib.Data.List.Nodup
import Mathlib.Logic.Function.Basic
import Mathlib.Data.Nat.Bitwise

namespace Ufp.Dev.Queues

set_option autoImplicit false

/-! ## Registers -/

/-- `QRX_ENA` or `QTX_ENA`. -/
inductive Dir where
  | rx
  | tx
  deriving DecidableEq

/-- The enable register of a queue. -/
abbrev Reg := Dir × Nat

/-- `QENA_REQ_MASK`. -/
def qenaReqMask : Nat := 1 <<< 0

/-- `QENA_REQ`. -/
def qenaReq (reg : Nat) : Bool := reg.testBit 0

/-- `QENA_STAT`. -/
def qenaStat (reg : Nat) : Bool := reg.testBit 2

/-- `I40E_QUEUE_WAIT_RETRY_LIMIT`. -/
def queueWaitRetryLimit : Nat := 10

/-- What the device reports at the `k`-th read of a register, `QENA_REQ` apart. -/
abbrev Report := Reg → Nat → Nat

/-- The registers: each enable register as last written and the reads of it so far,
`QTX_HEAD`, and whether the TX unit was last warned that a queue goes down. -/
structure Regs where
  ena : Reg → Nat
  reads : Reg → Nat
  txHead : Nat → Nat
  qdis : Nat → Bool

/-- The request of a queue. -/
def Regs.req (s : Regs) (r : Reg) : Bool := qenaReq (s.ena r)

section Code

variable (report : Report)

/-- `UFP_READ32` of an enable register. -/
def read (r : Reg) (s : Regs) : Nat × Regs :=
  (report r (s.reads r) / 2 * 2 + (s.req r).toNat,
    { s with reads := Function.update s.reads r (s.reads r + 1) })

/-- `UFP_WRITE32` of an enable register. -/
def write (r : Reg) (value : Nat) (s : Regs) : Regs := { s with ena := Function.update s.ena r value }

/-- The loop that waits until the status is as requested, with `todo` reads to go;
`reg` is what was read last. -/
def settle (r : Reg) : Nat → Nat → Regs → Nat × Regs
  | 0, reg, s => (reg, s)
  | todo + 1, _, s =>
      let (reg, s) := read report r s
      if qenaReq reg = qenaStat reg then (reg, s) else settle r todo reg s

/-- The loop that waits for the status `on`. -/
def await (r : Reg) (on : Bool) : Nat → Regs → Bool × Regs
  | 0, s => (false, s)
  | todo + 1, s =>
      let (reg, s) := read report r s
      if qenaStat reg = on then (true, s) else await r on todo s

/-- One iteration of the four loops; `prepare` comes before the write. -/
def turn (on : Bool) (prepare : Regs → Regs) (r : Reg) (s : Regs) : Bool × Regs :=
  let (reg, s) := settle report r 50 0 s
  -- Skip if the queue is already in the requested state
  if qenaStat reg = on then (true, s)
  else
    let value := if on then reg ||| qenaReqMask else reg &&& (2 ^ 32 - 1 - qenaReqMask)
    await report r on queueWaitRetryLimit (write r value (prepare s))

/-- `i40e_pre_tx_queue_enable`. -/
def i40ePreTxQueueEnable (qpIdx : Nat) (s : Regs) : Regs := { s with qdis := Function.update s.qdis qpIdx false }

/-- `i40e_pre_tx_queue_disable`. -/
def i40ePreTxQueueDisable (qpIdx : Nat) (s : Regs) : Regs := { s with qdis := Function.update s.qdis qpIdx true }

/-- `UFP_WRITE32` of 0 to `QTX_HEAD`. -/
def txHeadReset (qpIdx : Nat) (s : Regs) : Regs := { s with txHead := Function.update s.txHead qpIdx 0 }

/-- A loop over queues that ends at the first failure. -/
def loop {α : Type} (f : α → Regs → Bool × Regs) : List α → Regs → Bool × Regs
  | [], s => (true, s)
  | q :: qs, s =>
      match f q s with
      | (true, s) => loop f qs s
      | (false, s) => (false, s)

/-- What the loops read of an interface; its queues have registers, of which there
are `I40E_QRX_ENA_MAX_INDEX + 1`. -/
structure Iface where
  baseQp : Nat
  numQps : Nat
  exist : baseQp + numQps ≤ 1535 + 1

/-- The values of `qp_idx`, a `uint16_t`. -/
def Iface.qps (iface : Iface) : List Nat :=
  (List.range iface.numQps).map fun i => (iface.baseQp + i) % 2 ^ 16

def i40eVsiStartRx (iface : Iface) : Regs → Bool × Regs :=
  loop (fun qpIdx => turn report true id (.rx, qpIdx)) iface.qps

def i40eVsiStopRx (iface : Iface) : Regs → Bool × Regs :=
  loop (fun qpIdx => turn report false id (.rx, qpIdx)) iface.qps

def i40eVsiStartTx (iface : Iface) : Regs → Bool × Regs :=
  loop (fun qpIdx s => turn report true (txHeadReset qpIdx) (.tx, qpIdx) (i40ePreTxQueueEnable qpIdx s)) iface.qps

def i40eVsiStopTx (iface : Iface) : Regs → Bool × Regs :=
  loop (fun qpIdx s => turn report false id (.tx, qpIdx) (i40ePreTxQueueDisable qpIdx s)) iface.qps

/-- The results of the steps of `i40e_up` before the queues are started. None of
them writes an enable register. -/
structure UpSteps where
  vsiUpdate : Bool
  vsiGet : Bool
  vsiRssConfig : Bool
  vsiPromiscMode : Bool
  vsiConfigureRx : Bool
  vsiConfigureTx : Bool

/-- All of them succeed. -/
def UpSteps.ok (steps : UpSteps) : Bool :=
  steps.vsiUpdate && steps.vsiGet && steps.vsiRssConfig && steps.vsiPromiscMode && steps.vsiConfigureRx &&
    steps.vsiConfigureTx

/-- `i40e_up`, without what it does to the interrupts; -1 is `false`. -/
def i40eUp (steps : UpSteps) (iface : Iface) (s : Regs) : Bool × Regs :=
  if !steps.vsiUpdate then (false, s)
  else if !steps.vsiGet then (false, s)
  else if !steps.vsiRssConfig then (false, s)
  else if !steps.vsiPromiscMode then (false, s)
  else if !steps.vsiConfigureRx then (false, s)
  else if !steps.vsiConfigureTx then (false, s)
  else
    match i40eVsiStartRx report iface s with
    | (false, s) => (false, s)
    | (true, s) =>
        match i40eVsiStartTx report iface s with
        | (false, s) => (false, (i40eVsiStopRx report iface s).2)
        | (true, s) => (true, s)

/-- `i40e_down`, without what it does to the interrupts. -/
def i40eDown (iface : Iface) (s : Regs) : Bool × Regs :=
  match i40eVsiStopTx report iface s with
  | (false, s) => (false, s)
  | (true, s) => i40eVsiStopRx report iface s

/-- `i40e_ops_down`: the registers when it returns. -/
def i40eOpsDown (ifaces : List Iface) (s : Regs) : Regs := (loop (i40eDown report) ifaces s).2

end Code

/-! ## One queue -/

/-- The status of a queue at the `k`-th read from now on. -/
def Regs.stat (report : Report) (s : Regs) (r : Reg) (k : Nat) : Bool := qenaStat (report r (s.reads r + k))

/-- The status is as requested at one of the reads that wait for that. -/
def Settles (report : Report) (s : Regs) (r : Reg) : Prop := ∃ k < 50, s.stat report r k = s.req r

/-- Read `k` is the last of those reads. -/
def LastWait (report : Report) (s : Regs) (r : Reg) (k : Nat) : Prop :=
  k < 50 ∧ (∀ j < k, s.stat report r j ≠ s.req r) ∧ (s.stat report r k = s.req r ∨ k + 1 = 50)

/-- Neither the last of those reads nor any read after the write shows the status `on`. -/
def Unanswered (report : Report) (on : Bool) (s : Regs) (r : Reg) : Prop :=
  ∃ k, LastWait report s r k ∧ ∀ j ≤ queueWaitRetryLimit, s.stat report r (k + j) ≠ on

/-- The registers after `n` reads of one of them. -/
def Regs.skip (s : Regs) (r : Reg) (n : Nat) : Regs :=
  { s with reads := Function.update s.reads r (s.reads r + n) }

section Queue

variable {report : Report} {on : Bool} {s s' : Regs} {r : Reg}

@[simp] theorem Regs.req_skip (q : Reg) (n : Nat) : (s.skip r n).req q = s.req q := rfl

@[simp] theorem Regs.stat_skip (n k : Nat) : (s.skip r n).stat report r k = s.stat report r (n + k) := by
  simp [Regs.stat, Regs.skip, Nat.add_assoc]

@[simp] theorem Regs.skip_skip (n k : Nat) : (s.skip r n).skip r k = s.skip r (n + k) := by
  simp [Regs.skip, Nat.add_assoc]

theorem Regs.skip_reads_of_ne {q : Reg} (other : q ≠ r) (n : Nat) : (s.skip r n).reads q = s.reads q :=
  Function.update_of_ne other ..

theorem qenaReq_read : qenaReq (read report r s).1 = s.req r := by
  cases req : s.req r <;> simp [qenaReq, read, req, Nat.testBit_zero]

theorem qenaStat_read : qenaStat (read report r s).1 = s.stat report r 0 := by
  have shifted : (report r (s.reads r) / 2 * 2 + (s.req r).toNat) / 4 = report r (s.reads r) / 4 := by
    have := (s.req r).toNat_le
    omega
  simp only [qenaStat, Regs.stat, read, Nat.testBit_eq_decide_div_mod_eq, Nat.add_zero]
  rw [show 2 ^ 2 = 4 from rfl, shifted]

/-- Waiting reads up to the first read whose status is as requested, or to the end. -/
theorem settle_spec (todo reg : Nat) (some_left : 0 < todo) (s : Regs) :
    ∃ k < todo, (∀ j < k, s.stat report r j ≠ s.req r) ∧ (s.stat report r k = s.req r ∨ k + 1 = todo) ∧
      qenaStat (settle report r todo reg s).1 = s.stat report r k ∧
      (settle report r todo reg s).2 = s.skip r (k + 1) := by
  induction todo generalizing reg s with
  | zero => omega
  | succ todo ih =>
      have first : (read report r s).2 = s.skip r 1 := rfl
      simp only [settle, qenaReq_read, qenaStat_read]
      by_cases settled : s.req r = s.stat report r 0
      · rw [if_pos settled]
        exact ⟨0, by omega, by simp, .inl settled.symm, qenaStat_read, first⟩
      rw [if_neg settled]
      cases todo with
      | zero => exact ⟨0, by omega, by simp, .inr rfl, qenaStat_read, first⟩
      | succ todo =>
          obtain ⟨k, below, earlier, last, status, after⟩ :=
            ih (read report r s).1 (by omega) (read report r s).2
          simp only [first, Regs.stat_skip, Regs.req_skip, Regs.skip_skip] at earlier last status after
          refine ⟨k + 1, by omega, ?_, ?_, ?_, ?_⟩
          · intro j before
            cases j with
            | zero => exact Ne.symm settled
            | succ j =>
                rw [Nat.add_comm]
                exact earlier j (by omega)
          · rw [Nat.add_comm k 1]
            exact last.imp_right (by omega)
          · rw [first, status, Nat.add_comm]
          · rw [first, after, Nat.add_comm 1]

/-- Waiting for an answer fails exactly when no read shows it. -/
theorem await_spec (todo : Nat) (s : Regs) :
    ((await report r on todo s).1 = false ↔ ∀ j < todo, s.stat report r j ≠ on) ∧
      ∃ n, (await report r on todo s).2 = s.skip r n := by
  induction todo generalizing s with
  | zero => exact ⟨by simp [await], 0, by simp [await, Regs.skip]⟩
  | succ todo ih =>
      have first : (read report r s).2 = s.skip r 1 := rfl
      simp only [await, qenaStat_read]
      by_cases answered : s.stat report r 0 = on
      · rw [if_pos answered]
        refine ⟨?_, 1, first⟩
        simp only [Bool.true_eq_false, false_iff, not_forall]
        exact ⟨0, by omega, fun ne => ne answered⟩
      rw [if_neg answered, first]
      obtain ⟨failed, n, after⟩ := ih (s.skip r 1)
      refine ⟨failed.trans ?_, 1 + n, by rw [after, Regs.skip_skip]⟩
      simp only [Regs.stat_skip]
      constructor
      · intro silent j below
        cases j with
        | zero => exact answered
        | succ j =>
            rw [Nat.add_comm]
            exact silent j (by omega)
      · intro silent j below
        exact silent (1 + j) (by omega)

theorem LastWait.unique {k k' : Nat} (here : LastWait report s r k) (there : LastWait report s r k') :
    k = k' := by
  obtain ⟨below, earlier, last⟩ := here
  obtain ⟨below', earlier', last'⟩ := there
  -- Neither can come before the other: the earlier one would be settled, or the last of fifty
  rcases Nat.lt_trichotomy k k' with before | same | after
  · rcases last with settled | full
    · exact absurd settled (earlier' k before)
    · omega
  · exact same
  · rcases last' with settled | full
    · exact absurd settled (earlier k' after)
    · omega

/-- The read before a write that asks for `on` shows the opposite, so it is as
requested unless `on` was requested already. -/
theorem LastWait.settles {k : Nat} (wait : LastWait report s r k) (other : s.req r ≠ on)
    (status : s.stat report r k ≠ on) : Settles report s r := by
  refine ⟨k, wait.1, ?_⟩
  revert other status
  cases s.stat report r k <;> cases s.req r <;> cases on <;> simp

theorem LastWait.not_settles {k : Nat} (wait : LastWait report s r k) (other : s.req r ≠ on)
    (status : s.stat report r k = on) : ¬ Settles report s r := by
  obtain ⟨below, earlier, last⟩ := wait
  rintro ⟨j, small, settled⟩
  rcases Nat.lt_or_ge j k with before | after
  · exact earlier j before settled
  have full : k + 1 = 50 := last.resolve_left fun same => other (same.symm.trans status)
  have : j = k := by omega
  subst this
  exact other (settled.symm.trans status)

end Queue

/-! ## A list of queues -/

/-- What a call that switches the queues of `regs` to `on`, one after the other and
only until the first that does not answer, makes of the registers. -/
structure Swept (report : Report) (on : Bool) (regs : List Reg) (s : Regs) (result : Bool × Regs) : Prop where
  answered : result.1 = true ↔ ∀ r ∈ regs, ¬ Unanswered report on s r
  reached : ∀ before r after, regs = before ++ r :: after → (∀ q ∈ before, ¬ Unanswered report on s q) →
    (result.2.req r = on ↔ s.req r = on ∨ Settles report s r)
  missed : ∀ before r after, regs = before ++ r :: after → (∃ q ∈ before, Unanswered report on s q) →
    result.2.req r = s.req r
  kept : ∀ r ∉ regs, result.2.req r = s.req r ∧ result.2.reads r = s.reads r

/-- The call leaves the enable registers and what they report as they are. -/
def Quiet (f : Regs → Regs) : Prop := ∀ s, (f s).ena = s.ena ∧ (f s).reads = s.reads

theorem id_quiet : Quiet id := fun _ => ⟨rfl, rfl⟩

theorem txHeadReset_quiet (qpIdx : Nat) : Quiet (txHeadReset qpIdx) := fun _ => ⟨rfl, rfl⟩

section List

variable {report : Report} {on : Bool} {s s' : Regs} {r : Reg}

theorem settles_congr (req : s'.req r = s.req r) (reads : s'.reads r = s.reads r) :
    Settles report s' r ↔ Settles report s r := by
  simp only [Settles, Regs.stat, req, reads]

theorem unanswered_congr (req : s'.req r = s.req r) (reads : s'.reads r = s.reads r) :
    Unanswered report on s' r ↔ Unanswered report on s r := by
  simp only [Unanswered, LastWait, Regs.stat, req, reads]

variable {regs : List Reg} {result : Bool × Regs}

theorem Swept.congr (swept : Swept report on regs s' result) (ena : s'.ena = s.ena) (reads : s'.reads = s.reads) :
    Swept report on regs s result := by
  have req : ∀ q, s'.req q = s.req q := fun q => by rw [Regs.req, Regs.req, ena]
  have same : ∀ q, Unanswered report on s' q ↔ Unanswered report on s q := fun q =>
    unanswered_congr (req q) (congrFun reads q)
  have settles : ∀ q, Settles report s' q ↔ Settles report s q := fun q =>
    settles_congr (req q) (congrFun reads q)
  obtain ⟨answered, reached, missed, kept⟩ := swept
  simp only [same, settles, req, reads] at answered reached missed kept
  exact ⟨answered, reached, missed, kept⟩

theorem write_req_self (value : Nat) : (write r value s).req r = qenaReq value := by
  simp [Regs.req, write]

theorem write_req_of_ne {q : Reg} (other : q ≠ r) (value : Nat) : (write r value s).req q = s.req q := by
  simp [Regs.req, write, other]

theorem qenaReq_requested (reg : Nat) :
    qenaReq (if on then reg ||| qenaReqMask else reg &&& (2 ^ 32 - 1 - qenaReqMask)) = on := by
  cases on <;> simp [qenaReq, qenaReqMask]

/-- A list of one queue. -/
theorem swept_single (answered : result.1 = true ↔ ¬ Unanswered report on s r)
    (reached : result.2.req r = on ↔ s.req r = on ∨ Settles report s r)
    (kept : ∀ q, q ≠ r → result.2.req q = s.req q ∧ result.2.reads q = s.reads q) : Swept report on [r] s result := by
  have only : ∀ {before q later}, [r] = before ++ q :: later → before = [] ∧ q = r := by
    intro before q later split
    cases before <;> simp_all
  refine ⟨by simpa using answered, ?_, ?_, fun q outside => kept q (by simpa using outside)⟩
  · rintro before q later split -
    obtain ⟨-, rfl⟩ := only split
    exact reached
  · rintro before q later split ⟨e, inside, -⟩
    obtain ⟨rfl, -⟩ := only split
    cases inside

/-- In the last wait `k` of a queue, its reports from then on decide. -/
theorem LastWait.unanswered_iff {k : Nat} (wait : LastWait report s r k) :
    Unanswered report on s r ↔ ∀ j ≤ queueWaitRetryLimit, s.stat report r (k + j) ≠ on := by
  constructor
  · rintro ⟨k', wait', silent⟩
    rw [wait.unique wait']
    exact silent
  · exact fun silent => ⟨k, wait, silent⟩

/-- A queue that is in the state asked for is skipped. -/
theorem skipped_swept {k : Nat} (wait : LastWait report s r k) (skipped : s.stat report r k = on) :
    Swept report on [r] s (true, s.skip r (k + 1)) := by
  have answers : ¬ Unanswered report on s r := fun silent => wait.unanswered_iff.mp silent 0 (by omega) skipped
  refine swept_single (by simpa using answers) ?_ fun q other => ⟨rfl, Regs.skip_reads_of_ne other _⟩
  rw [Regs.req_skip]
  constructor
  · exact Or.inl
  · rintro (requested | settled)
    · exact requested
    · by_contra other
      exact wait.not_settles other skipped settled

/-- **One queue**: it is skipped, or switched and then answered or not. -/
theorem turn_swept {prepare : Regs → Regs} (quiet : Quiet prepare) (s : Regs) :
    Swept report on [r] s (turn report on prepare r s) := by
  obtain ⟨k, below, earlier, last, status, after⟩ := @settle_spec report r 50 0 (by omega) s
  have wait : LastWait report s r k := ⟨below, earlier, last⟩
  simp only [turn, status, after]
  by_cases skipped : s.stat report r k = on
  · rw [if_pos skipped]
    exact skipped_swept wait skipped
  rw [if_neg skipped]
  set asked := write r _ (prepare (s.skip r (k + 1))) with asked_eq
  obtain ⟨failed, n, final⟩ := @await_spec report on r queueWaitRetryLimit asked
  have asked_reads : asked.reads = (s.skip r (k + 1)).reads := (quiet _).2
  have asked_stat : ∀ j, asked.stat report r j = s.stat report r (k + (j + 1)) := fun j => by
    rw [Regs.stat, asked_reads, ← Regs.stat, Regs.stat_skip, Nat.add_assoc, Nat.add_comm 1]
  have silent : (await report r on queueWaitRetryLimit asked).1 = false ↔ Unanswered report on s r := by
    rw [failed, wait.unanswered_iff]
    simp only [asked_stat]
    constructor
    · intro never j small
      cases j with
      | zero => exact skipped
      | succ j => exact never j (by omega)
    · exact fun never j small => never (j + 1) (by omega)
  refine swept_single ?_ ?_ fun q other => ?_
  · rw [← Bool.not_eq_false, silent]
  · rw [final, Regs.req_skip, asked_eq, write_req_self, qenaReq_requested]
    refine iff_of_true rfl ?_
    by_cases requested : s.req r = on
    · exact .inl requested
    · exact .inr (wait.settles requested skipped)
  · rw [final, Regs.req_skip, asked_eq, write_req_of_ne other, Regs.skip_reads_of_ne other, ← asked_eq,
      asked_reads, Regs.skip_reads_of_ne other]
    refine ⟨?_, rfl⟩
    rw [Regs.req, (quiet _).1]
    rfl

theorem Swept.nil (s : Regs) : Swept report on [] s (true, s) := by
  constructor <;> simp

/-- A call that fails has met a queue that does not answer. -/
theorem Swept.silent (swept : Swept report on regs s (false, s')) : ∃ q ∈ regs, Unanswered report on s q := by
  have := swept.answered
  simpa using this

/-- An element of two lists, with what is before it, is in the first or the second. -/
theorem append_split {α : Type} {first second before after : List α} {a : α}
    (split : first ++ second = before ++ a :: after) :
    (∃ rest, first = before ++ a :: rest) ∨ ∃ rest, before = first ++ rest ∧ second = rest ++ a :: after := by
  rcases List.append_eq_append_iff.mp split with found | ⟨rest, rfl, tail⟩
  · exact .inr found
  · cases rest with
    | nil => exact .inr ⟨[], by simp, tail.symm⟩
    | cons b rest =>
        obtain ⟨rfl, -⟩ := List.cons.inj tail
        exact .inl ⟨rest, rfl⟩

/-- A call that fails says the same of a longer list. -/
theorem Swept.stop (swept : Swept report on regs s (false, s')) (more : List Reg) (distinct : (regs ++ more).Nodup) :
    Swept report on (regs ++ more) s (false, s') := by
  obtain ⟨e, inside, silent⟩ := swept.silent
  obtain ⟨-, reached, missed, kept⟩ := swept
  have apart := List.disjoint_of_nodup_append distinct
  refine ⟨?_, ?_, ?_, ?_⟩
  · simp only [Bool.false_eq_true, false_iff, not_forall, not_not]
    exact ⟨e, List.mem_append_left _ inside, silent⟩
  · intro before r after split answers
    rcases append_split split with ⟨rest, rfl⟩ | ⟨rest, rfl, -⟩
    · exact reached before r rest rfl answers
    · exact absurd silent (answers e (List.mem_append_left _ inside))
  · rintro before r after split earlier
    rcases append_split split with ⟨rest, rfl⟩ | ⟨rest, rfl, tail⟩
    · exact missed before r rest rfl earlier
    · exact (kept r fun member => apart member (by simp [tail])).1
  · exact fun r outside => kept r fun member => outside (List.mem_append_left _ member)

/-- After a call that succeeds, another one goes on with the registers behind. -/
theorem Swept.go {more : List Reg} (swept : Swept report on regs s (true, s')) (next : Swept report on more s' result)
    (distinct : (regs ++ more).Nodup) : Swept report on (regs ++ more) s result := by
  have apart := List.disjoint_of_nodup_append distinct
  have answers := swept.answered.mp rfl
  have fresh : ∀ q ∈ more, s'.req q = s.req q ∧ s'.reads q = s.reads q := fun q member =>
    swept.kept q fun member' => apart member' member
  have same : ∀ q ∈ more, Unanswered report on s' q ↔ Unanswered report on s q := fun q member =>
    unanswered_congr (fresh q member).1 (fresh q member).2
  refine ⟨?_, ?_, ?_, ?_⟩
  · rw [next.answered]
    constructor
    · intro rest q member
      rcases List.mem_append.mp member with member | member
      · exact answers q member
      · exact fun silent => rest q member ((same q member).mpr silent)
    · exact fun all q member silent => all q (List.mem_append_right _ member) ((same q member).mp silent)
  · intro before r after split quiet
    rcases append_split split with ⟨rest, rfl⟩ | ⟨rest, rfl, tail⟩
    · rw [(next.kept r fun member => apart (by simp) member).1]
      exact swept.reached before r rest rfl quiet
    · have member : r ∈ more := by simp [tail]
      rw [next.reached rest r after tail fun q inside silent =>
          quiet q (List.mem_append_right _ inside) ((same q (by simp [tail, inside])).mp silent),
        (fresh r member).1, settles_congr (fresh r member).1 (fresh r member).2]
  · rintro before r after split ⟨q, earlier, silent⟩
    rcases append_split split with ⟨rest, rfl⟩ | ⟨rest, rfl, tail⟩
    · exact absurd silent (answers q (List.mem_append_left _ earlier))
    · have behind : q ∈ rest := by
        rcases List.mem_append.mp earlier with inside | inside
        · exact absurd silent (answers q inside)
        · exact inside
      rw [next.missed rest r after tail ⟨q, behind, (same q (by simp [tail, behind])).mpr silent⟩,
        (fresh r (by simp [tail])).1]
  · intro r outside
    rw [List.mem_append, not_or] at outside
    rw [(next.kept r outside.2).1, (next.kept r outside.2).2]
    exact swept.kept r outside.1

/-- A loop over calls that sweep sweeps the registers of all of them. -/
theorem loop_swept {α : Type} {f : α → Regs → Bool × Regs} {regs : α → List Reg}
    (each : ∀ a s, (regs a).Nodup → Swept report on (regs a) s (f a s)) (todo : List α)
    (distinct : (todo.flatMap regs).Nodup) (s : Regs) :
    Swept report on (todo.flatMap regs) s (loop f todo s) := by
  induction todo generalizing s with
  | nil => exact Swept.nil s
  | cons a todo ih =>
      rw [List.flatMap_cons] at distinct ⊢
      have first := each a s (List.Nodup.of_append_left distinct)
      simp only [loop]
      cases result : f a s with
      | mk ok s' =>
          rw [result] at first
          cases ok with
          | false => exact first.stop _ distinct
          | true => exact first.go (ih (List.Nodup.of_append_right distinct) s') distinct

/-- A call that fails leaves a queue that was asked and does not answer. -/
theorem Swept.left_on (swept : Swept report on regs s (false, s')) (off : ∀ r ∈ regs, s.req r ≠ on) :
    ∃ r ∈ regs, s'.req r = on := by
  classical
  -- The first queue that does not answer is reached
  obtain ⟨r, found⟩ := Option.isSome_iff_exists.mp
    ((List.find?_isSome (p := fun q => decide (Unanswered report on s q))).mpr (by simpa using swept.silent))
  obtain ⟨silent, before, after, rfl, answers⟩ := List.find?_eq_some_iff_append.mp found
  obtain ⟨k, wait, never⟩ := of_decide_eq_true silent
  have member : r ∈ before ++ r :: after := by simp
  refine ⟨r, member, (swept.reached before r after rfl fun q inside => by simpa using answers q inside).mpr ?_⟩
  exact .inr (wait.settles (off r member) (never 0 (by omega)))

end List

/-! ## The calls of the driver -/

/-- The enable registers of an interface, in one direction. -/
def Iface.regs (iface : Iface) (d : Dir) : List Reg := iface.qps.map (Prod.mk d)

/-- The order in which `i40e_down` goes through the registers of an interface. -/
def Iface.stops (iface : Iface) : List Reg := iface.regs .tx ++ iface.regs .rx

section Calls

variable {report : Report} {iface : Iface} {s : Regs}

theorem Iface.mem_regs {d : Dir} {r : Reg} :
    r ∈ iface.regs d ↔ ∃ i < iface.numQps, r = (d, iface.baseQp + i) := by
  have exist := iface.exist
  simp only [Iface.regs, Iface.qps, List.mem_map, List.mem_range]
  constructor
  · rintro ⟨_, ⟨i, below, rfl⟩, rfl⟩
    exact ⟨i, below, by rw [Nat.mod_eq_of_lt (by omega)]⟩
  · rintro ⟨i, below, rfl⟩
    exact ⟨_, ⟨i, below, Nat.mod_eq_of_lt (by omega)⟩, rfl⟩

theorem Iface.not_mem_rx {r : Reg} (member : r ∈ iface.regs .tx) : r ∉ iface.regs .rx := by
  intro member'
  obtain ⟨i, -, rfl⟩ := Iface.mem_regs.mp member
  obtain ⟨i', -, same⟩ := Iface.mem_regs.mp member'
  exact absurd (Prod.mk.inj same).1 (by decide)

theorem Iface.regs_nodup (d : Dir) : (iface.regs d).Nodup := by
  have exist := iface.exist
  refine List.Nodup.map (fun q q' same => (Prod.mk.inj same).2) ?_
  refine List.Nodup.map_on ?_ List.nodup_range
  intro i below i' below' same
  rw [List.mem_range] at below below'
  rw [Nat.mod_eq_of_lt (by omega), Nat.mod_eq_of_lt (by omega)] at same
  omega

theorem Iface.mem_stops {r : Reg} :
    r ∈ iface.stops ↔ ∃ d, ∃ i < iface.numQps, r = (d, iface.baseQp + i) := by
  simp only [Iface.stops, List.mem_append, Iface.mem_regs]
  constructor
  · rintro (found | found)
    · exact ⟨_, found⟩
    · exact ⟨_, found⟩
  · rintro ⟨d, found⟩
    cases d with
    | rx => exact .inr found
    | tx => exact .inl found

/-- The loops over the queues of an interface, whatever they do around a queue. -/
theorem queues_swept {on : Bool} {d : Dir} {f : Nat → Regs → Bool × Regs}
    (each : ∀ qpIdx s, Swept report on [(d, qpIdx)] s (f qpIdx s)) (s : Regs) :
    Swept report on (iface.regs d) s (loop f iface.qps s) := by
  have distinct := iface.regs_nodup d
  rw [Iface.regs, List.map_eq_flatMap] at distinct ⊢
  exact loop_swept (fun qpIdx s _ => each qpIdx s) iface.qps distinct s

theorem i40eVsiStartRx_swept : Swept report true (iface.regs .rx) s (i40eVsiStartRx report iface s) :=
  queues_swept (fun _ => turn_swept id_quiet) s

theorem i40eVsiStopRx_swept : Swept report false (iface.regs .rx) s (i40eVsiStopRx report iface s) :=
  queues_swept (fun _ => turn_swept id_quiet) s

theorem i40eVsiStartTx_swept : Swept report true (iface.regs .tx) s (i40eVsiStartTx report iface s) :=
  queues_swept (fun qpIdx s => (turn_swept (txHeadReset_quiet qpIdx) (i40ePreTxQueueEnable qpIdx s)).congr
    rfl rfl) s

theorem i40eVsiStopTx_swept : Swept report false (iface.regs .tx) s (i40eVsiStopTx report iface s) :=
  queues_swept (fun qpIdx s => (turn_swept id_quiet (i40ePreTxQueueDisable qpIdx s)).congr rfl rfl) s

theorem i40eDown_swept (distinct : iface.stops.Nodup) :
    Swept report false iface.stops s (i40eDown report iface s) := by
  have stopped := @i40eVsiStopTx_swept report iface s
  simp only [i40eDown]
  cases result : i40eVsiStopTx report iface s with
  | mk ok s' =>
      rw [result] at stopped
      cases ok with
      | false => exact stopped.stop _ distinct
      | true => exact stopped.go i40eVsiStopRx_swept distinct

theorem i40eOpsDown_swept {ifaces : List Iface} (distinct : (ifaces.flatMap Iface.stops).Nodup) :
    Swept report false (ifaces.flatMap Iface.stops) s (loop (i40eDown report) ifaces s) :=
  loop_swept (fun _ _ => i40eDown_swept) ifaces distinct s

/-- How `i40e_up` ends once the steps before the queues are done. -/
theorem i40eUp_cases {steps : UpSteps} (ok : steps.ok = true) :
    (∃ s₁, i40eVsiStartRx report iface s = (false, s₁) ∧ i40eUp report steps iface s = (false, s₁)) ∨
      ∃ s₁, i40eVsiStartRx report iface s = (true, s₁) ∧
        ((∃ s₂, i40eVsiStartTx report iface s₁ = (false, s₂) ∧
            i40eUp report steps iface s = (false, (i40eVsiStopRx report iface s₂).2)) ∨
          ∃ s₂, i40eVsiStartTx report iface s₁ = (true, s₂) ∧ i40eUp report steps iface s = (true, s₂)) := by
  simp only [UpSteps.ok, Bool.and_eq_true] at ok
  obtain ⟨⟨⟨⟨⟨update, get⟩, rss⟩, promisc⟩, rx⟩, tx⟩ := ok
  cases rxResult : i40eVsiStartRx report iface s with
  | mk rxOk s₁ =>
      cases rxOk with
      | false => exact .inl ⟨s₁, rfl, by simp [i40eUp, update, get, rss, promisc, rx, tx, rxResult]⟩
      | true =>
          refine .inr ⟨s₁, rfl, ?_⟩
          cases txResult : i40eVsiStartTx report iface s₁ with
          | mk txOk s₂ =>
              cases txOk with
              | false =>
                  exact .inl ⟨s₂, rfl, by simp [i40eUp, update, get, rss, promisc, rx, tx, rxResult, txResult]⟩
              | true =>
                  exact .inr ⟨s₂, rfl, by simp [i40eUp, update, get, rss, promisc, rx, tx, rxResult, txResult]⟩

theorem i40eUp_of_not_ok {steps : UpSteps} (failed : steps.ok = false) :
    i40eUp report steps iface s = (false, s) := by
  obtain ⟨update, get, rss, promisc, rx, tx⟩ := steps
  cases update <;> cases get <;> cases rss <;> cases promisc <;> cases rx <;> cases tx <;>
    simp_all [i40eUp, UpSteps.ok]

end Calls

/-- No queue of the interface is requested. -/
def Regs.Off (s : Regs) (iface : Iface) : Prop :=
  ∀ d, ∀ i < iface.numQps, s.req (d, iface.baseQp + i) = false

theorem Regs.Off.regs {s : Regs} {iface : Iface} (off : s.Off iface) {d : Dir} {r : Reg}
    (member : r ∈ iface.regs d) : s.req r = false := by
  obtain ⟨i, below, rfl⟩ := Iface.mem_regs.mp member
  exact off d i below

/-- **A failed `i40e_up` leaves the queues off exactly when it fails before it starts
them**: a start that is not answered in time leaves its queue requested, and nothing
that follows takes the request back. -/
theorem up_failure_off_iff (report : Report) (steps : UpSteps) (iface : Iface) (s : Regs) (off : s.Off iface) :
    ((i40eUp report steps iface s).1 = false → (i40eUp report steps iface s).2.Off iface) ↔
      steps.ok = false ∨ ∀ d, ∀ i < iface.numQps, ¬ Unanswered report true s (d, iface.baseQp + i) := by
  cases ready : steps.ok with
  | false =>
      rw [i40eUp_of_not_ok ready]
      exact iff_of_true (fun _ => off) (.inl rfl)
  | true =>
      have all : (∀ d, ∀ i < iface.numQps, ¬ Unanswered report true s (d, iface.baseQp + i)) ↔
          ∀ d, ∀ r ∈ iface.regs d, ¬ Unanswered report true s r := by
        constructor
        · intro answers d r member
          obtain ⟨i, below, rfl⟩ := Iface.mem_regs.mp member
          exact answers d i below
        · exact fun answers d i below => answers d _ (Iface.mem_regs.mpr ⟨i, below, rfl⟩)
      rw [all]
      simp only [Bool.true_eq_false, false_or]
      have rxSwept := @i40eVsiStartRx_swept report iface s
      rcases @i40eUp_cases report iface s steps ready with ⟨s₁, rx, up⟩ | ⟨s₁, rx, rest⟩
      · -- An RX queue is left on
        rw [rx] at rxSwept
        rw [up]
        obtain ⟨r, member, on⟩ := rxSwept.left_on fun r member => by simp [off.regs member]
        refine iff_of_false (fun clear => ?_) (fun answers => ?_)
        · simp [(clear rfl).regs member] at on
        · exact Bool.false_ne_true (rxSwept.answered.mpr (answers .rx))
      rw [rx] at rxSwept
      have fresh := fun r (member : r ∈ iface.regs .tx) => rxSwept.kept r (Iface.not_mem_rx member)
      have txSwept := @i40eVsiStartTx_swept report iface s₁
      rcases rest with ⟨s₂, tx, up⟩ | ⟨s₂, tx, up⟩
      · -- A TX queue is left on: `i40e_vsi_stop_rx` does not reach it
        rw [tx] at txSwept
        rw [up]
        obtain ⟨r, member, on⟩ := txSwept.left_on fun r member => by
          simp [(fresh r member).1, off.regs member]
        have kept := ((@i40eVsiStopRx_swept report iface s₂).kept r (Iface.not_mem_rx member)).1
        refine iff_of_false (fun clear => ?_) (fun answers => ?_)
        · have cleared : (i40eVsiStopRx report iface s₂).2.req r = false := (clear rfl).regs member
          exact Bool.false_ne_true (cleared.symm.trans (kept.trans on))
        · refine Bool.false_ne_true (txSwept.answered.mpr fun r member => ?_)
          rw [unanswered_congr (fresh r member).1 (fresh r member).2]
          exact answers .tx r member
      · rw [tx] at txSwept
        rw [up]
        refine iff_of_true (by simp) fun d r member => ?_
        cases d with
        | rx => exact rxSwept.answered.mp rfl r member
        | tx =>
            rw [← unanswered_congr (fresh r member).1 (fresh r member).2]
            exact txSwept.answered.mp rfl r member

/-- One queue pair, nothing requested. -/
def sampleIface : Iface := ⟨0, 1, by decide⟩

def sampleIdle : Regs := ⟨fun _ => 0, fun _ => 0, fun _ => 0, fun _ => false⟩

def sampleSteps : UpSteps := ⟨true, true, true, true, true, true⟩

theorem sampleIdle_off : sampleIdle.Off sampleIface := by
  intro d i below
  simp [Regs.req, sampleIdle, qenaReq]

theorem up_failure_off_sample :
    sampleIdle.Off sampleIface ∧
      (((i40eUp (fun _ k => if k = 0 then 0 else 4) sampleSteps sampleIface sampleIdle).1 = false →
          (i40eUp (fun _ k => if k = 0 then 0 else 4) sampleSteps sampleIface sampleIdle).2.Off sampleIface) ↔
        sampleSteps.ok = false ∨ ∀ d, ∀ i < sampleIface.numQps,
          ¬ Unanswered (fun _ k => if k = 0 then 0 else 4) true sampleIdle (d, sampleIface.baseQp + i)) :=
  ⟨sampleIdle_off, up_failure_off_iff _ _ _ _ sampleIdle_off⟩

/-- A device that never reports a queue as on: `i40e_up` returns -1 with `QENA_REQ`
of its first RX queue set. -/
theorem up_failure_leaves_on :
    sampleIdle.Off sampleIface ∧ (i40eUp (fun _ _ => 0) sampleSteps sampleIface sampleIdle).1 = false ∧
      (i40eUp (fun _ _ => 0) sampleSteps sampleIface sampleIdle).2.req (.rx, sampleIface.baseQp) = true :=
  ⟨sampleIdle_off, by decide +kernel, by decide +kernel⟩

/-- **`i40e_ops_down` takes back every request exactly when** each requested queue shows
its status in time and every queue before it, in the order of the calls, answers: the
first queue that does not answer ends the shutdown. -/
theorem ops_down_off_iff (report : Report) (ifaces : List Iface) (s : Regs)
    (distinct : (ifaces.flatMap Iface.stops).Nodup) :
    (∀ iface ∈ ifaces, (i40eOpsDown report ifaces s).Off iface) ↔
      ∀ before r after, ifaces.flatMap Iface.stops = before ++ r :: after → s.req r = true →
        Settles report s r ∧ ∀ q ∈ before, ¬ Unanswered report false s q := by
  have swept := @i40eOpsDown_swept report s ifaces distinct
  have all : (∀ iface ∈ ifaces, (i40eOpsDown report ifaces s).Off iface) ↔
      ∀ r ∈ ifaces.flatMap Iface.stops, (i40eOpsDown report ifaces s).req r = false := by
    simp only [List.mem_flatMap, Iface.mem_stops]
    constructor
    · rintro clear r ⟨iface, member, d, i, below, rfl⟩
      exact clear iface member d i below
    · exact fun clear iface member d i below => clear _ ⟨iface, member, d, i, below, rfl⟩
  rw [all]
  constructor
  · intro clear before r after split requested
    have cleared := clear r (by simp [split])
    by_cases answers : ∀ q ∈ before, ¬ Unanswered report false s q
    · rcases (swept.reached before r after split answers).mp cleared with unasked | settled
      · exact absurd (requested.symm.trans unasked) (by decide)
      · exact ⟨settled, answers⟩
    · have kept := swept.missed before r after split (by simpa using answers)
      exact absurd (requested.symm.trans (kept.symm.trans cleared)) (by decide)
  · intro holds r member
    obtain ⟨before, after, split⟩ := List.append_of_mem member
    cases requested : s.req r with
    | true =>
        obtain ⟨settled, answers⟩ := holds before r after split requested
        exact (swept.reached before r after split answers).mpr (.inr settled)
    | false =>
        by_cases answers : ∀ q ∈ before, ¬ Unanswered report false s q
        · exact (swept.reached before r after split answers).mpr (.inl requested)
        · exact (swept.missed before r after split (by simpa using answers)).trans requested

/-- Two queue pairs, all requested. -/
def sampleIfaces : List Iface := [⟨0, 2, by decide⟩]

def sampleBusy : Regs := ⟨fun _ => 1, fun _ => 0, fun _ => 0, fun _ => false⟩

theorem ops_down_off_sample :
    (sampleIfaces.flatMap Iface.stops).Nodup ∧
      ((∀ iface ∈ sampleIfaces, (i40eOpsDown (fun _ _ => 4) sampleIfaces sampleBusy).Off iface) ↔
        ∀ before r after, sampleIfaces.flatMap Iface.stops = before ++ r :: after →
          sampleBusy.req r = true → Settles (fun _ _ => 4) sampleBusy r ∧
            ∀ q ∈ before, ¬ Unanswered (fun _ _ => 4) false sampleBusy q) :=
  have distinct : (sampleIfaces.flatMap Iface.stops).Nodup := by decide
  ⟨distinct, ops_down_off_iff _ _ _ distinct⟩

/-- A device that reports every queue as on for ever: the first TX queue does not
answer, and the second and both RX queues keep `QENA_REQ`. -/
theorem ops_down_leaves_on :
    (i40eOpsDown (fun _ _ => 4) sampleIfaces sampleBusy).req (.tx, 0) = false ∧
      (i40eOpsDown (fun _ _ => 4) sampleIfaces sampleBusy).req (.tx, 1) = true ∧
      (i40eOpsDown (fun _ _ => 4) sampleIfaces sampleBusy).req (.rx, 0) = true ∧
      (i40eOpsDown (fun _ _ => 4) sampleIfaces sampleBusy).req (.rx, 1) = true := by
  decide +kernel

end Ufp.Dev.Queues
