/-
# Ufp.Daemon.Pinning — threads and their interrupts on the same CPU

`ufpd_thread_create` sets up the thread for a core of `-c`: `ufp_plane_alloc` writes
the mask of that core to the affinity of the thread's RX and TX interrupts, and the
thread itself gets a CPU set with that core in it. `pinning_agrees_iff` says for
which cores the two are the same.
-/
import Ufp.Daemon.Options
import Ufp.Lib.Irq
import Mathlib.Data.Nat.Bitwise

namespace Ufp.Daemon

open Ufp.Lib.Irq Ufp.Theory.CLibrary

set_option autoImplicit false

/-! ## Creating a thread -/

/-- The answers of the system: to `ufp_alloc_buf`, to the `malloc`s of
`ufp_plane_alloc`, to the files of the interrupts, and what `pthread_create` and
`pthread_setaffinity_np` return. -/
structure ThreadAnswers where
  allocBuf : Bool
  planeBlocks : Bool
  files : AffinityFiles
  pthreadCreate : Int
  pthreadSetaffinity : Int

/-- What came of `ufpd_thread_create`: whether it returned 0, the masks that were
written, and the CPU set that `pthread_setaffinity_np` was given. -/
structure Created where
  ret : Bool
  written : List AffinityWrite
  cpuset : Option (Nat → Bool)

/-- `CPU_ZERO` and `CPU_SET`; a core past the 1024 of a `cpu_set_t` is ignored. -/
def cpuSet (coreId : Int) : Nat → Bool := fun cpu => decide ((cpu : Int) = coreId ∧ cpu < 1024)

/-- The end of `ufpd_thread_create`, after `ufp_plane_alloc` has returned a plane or
not. -/
def startThread (sys : ThreadAnswers) (coreId : Int) : Bool × List AffinityWrite → Created
  | (false, written) => ⟨false, written, none⟩
  | (true, written) =>
      if sys.pthreadCreate < 0 then ⟨false, written, none⟩
      else if sys.pthreadSetaffinity < 0 then ⟨false, written, some (cpuSet coreId)⟩
      else ⟨true, written, some (cpuSet coreId)⟩

/-- `ufpd_thread_create`, for the interrupts of the thread's ports; `none` if it is
undefined. -/
def ufpdThreadCreate (sys : ThreadAnswers) (ports : List (UfpIrq × UfpIrq)) (ufpd : Ufpd) (threadId : Nat)
    (coreId : Int) : Option Created :=
  if ¬ sys.allocBuf then some ⟨false, [], none⟩
  else
    (ufpd.cores threadId).bind fun core =>
      if ¬ sys.planeBlocks then some ⟨false, [], none⟩
      else (planeAffinity sys.files core.toNat ports []).map (startThread sys coreId)

/-- The turn of the loop of `main` that creates thread `i`. -/
def createThread (sys : ThreadAnswers) (ports : List (UfpIrq × UfpIrq)) (ufpd : Ufpd) (i : Nat) : Option Created :=
  (ufpd.cores i).bind fun core => ufpdThreadCreate sys ports ufpd i core

/-- The interrupts are where the thread is: every mask has the bit of the core and no
other, and so selects the CPU of the thread's set, and a core that a mask of 64 bits
does not have is refused. -/
structure Pins (core : Int) (created : Created) : Prop where
  masks : ∀ w ∈ created.written, w.mask = 2 ^ core.toNat
  alike : ∀ w ∈ created.written, ∀ cpuset, created.cpuset = some cpuset → ∀ cpu, w.mask.testBit cpu = cpuset cpu
  refused : 64 ≤ core → created.ret = false

/-! ## Cores are unsigned -/

/-- The cores are `unsigned int`s. -/
def Unsigned (cores : Nat → Option Int) : Prop := ∀ i core, cores i = some core → 0 ≤ core ∧ core < 2 ^ 32

theorem convertLoop_unsigned {str : Nat → Option (List Char)} {strCount : Int} (todo i : Nat)
    {result cores : Nat → Option Int} (before : Unsigned result)
    (done : convertLoop str strCount todo i result = .ok cores) : Unsigned cores := by
  induction todo generalizing i result with
  | zero =>
      cases done
      exact before
  | succ todo ih =>
      rw [convertLoop] at done
      split at done
      · cases field : str i with
        | none => simp [field] at done
        | some s =>
            cases read : scanfU s with
            | none => simp [field, read] at done
            | some num =>
                simp only [field, read] at done
                refine ih (i + 1) (fun j core here => ?_) done
                by_cases same : j = i
                · rw [same, Function.update_self] at here
                  cases here
                  exact scanfU_bounds read
                · rw [Function.update_of_ne same] at here
                  exact before j core here
      · cases done
        exact before

variable {ufpd ufpd' : Ufpd} {argbuf argbuf' : Nat → Option (List Char)} {core : Nat} {s : List Char}

theorem coresOption_unsigned (before : Unsigned ufpd.cores) (done : coresOption s ufpd argbuf = .ok (ufpd', argbuf')) :
    Unsigned ufpd'.cores := by
  rw [coresOption] at done
  cases text : parseRange s ufpdMaxArglen with
  | error stop => simp [text, bind, Except.bind] at done
  | ok strbuf =>
      simp only [text, bind, Except.bind] at done
      split at done
      · cases done
      · split at done
        · cases done
        · rename_i converted
          cases done
          exact convertLoop_unsigned _ _ before converted

theorem map_ok {α β : Type} {f : α → β} {out : Except Stop α} {b : β} (done : out.map f = .ok b) :
    ∃ a, out = .ok a ∧ f a = b := by
  cases out with
  | error stop => cases done
  | ok a => exact ⟨a, rfl, Except.ok.inj done⟩

theorem numberOption_unsigned {set : Int → Ufpd} (before : Unsigned ufpd.cores)
    (done : (numberOption s set).map (·, argbuf) = .ok (ufpd', argbuf')) (same : ∀ num, (set num).cores = ufpd.cores) :
    Unsigned ufpd'.cores := by
  obtain ⟨left, isSet, leftEq⟩ := map_ok done
  cases leftEq
  rw [numberOption] at isSet
  split at isSet
  · cases isSet
  · cases isSet
    rw [same]
    exact before

theorem parseOpt_unsigned {opt : Opt} (before : Unsigned ufpd.cores)
    (done : parseOpt ufpd argbuf opt = .ok (ufpd', argbuf')) : Unsigned ufpd'.cores := by
  unfold parseOpt at done
  split at done
  · exact coresOption_unsigned before done
  · obtain ⟨left, listed, same⟩ := map_ok done
    cases same
    simp only [devicesOption] at listed
    split at listed
    · cases listed
    · cases listed
      exact before
  · exact numberOption_unsigned before done fun _ => rfl
  · exact numberOption_unsigned before done fun _ => rfl
  · exact numberOption_unsigned before done fun _ => rfl
  · cases done
    exact before
  · cases done

theorem parseOpts_unsigned {opts : List Opt} (before : Unsigned ufpd.cores)
    (done : parseOpts ufpd argbuf opts = .ok ufpd') : Unsigned ufpd'.cores := by
  induction opts generalizing ufpd argbuf with
  | nil =>
      cases done
      exact before
  | cons opt opts ih =>
      rw [parseOpts] at done
      cases first : parseOpt ufpd argbuf opt with
      | error stop => simp [first, bind, Except.bind] at done
      | ok out =>
          rw [first] at done
          exact ih (parseOpt_unsigned before first) done

theorem parseArgs_unsigned {granted : Nat → Bool} {posixlyCorrect : Bool} {argv : List (List Char)}
    (accepted : parseArgs granted posixlyCorrect ufpdDefaults argv = .ok ufpd) : Unsigned ufpd.cores :=
  parseOpts_unsigned (fun _ _ unwritten => by cases unwritten) (parseArgs_ok_iff.1 accepted).2.1

/-! ## Which cores agree -/

theorem affinityMasks_low (low : core ≤ 31) : affinityMasks core = some (0, 2 ^ core) := by
  simp only [affinityMasks, if_pos low, shiftOne, if_pos (show core < 32 by omega), Nat.one_shiftLeft]
  rfl

/-- The high word is shifted by one bit too many. -/
theorem affinityMasks_high (high : ¬ core ≤ 31) (small : core ≤ 62) :
    affinityMasks core = some (2 ^ (core - 31), 0) := by
  simp only [affinityMasks, if_neg high, shiftOne, if_pos (show core - 31 < 32 by omega), Nat.one_shiftLeft]
  rfl

theorem affinityMasks_undefined (large : 62 < core) : affinityMasks core = none := by
  simp only [affinityMasks, if_neg (show ¬ core ≤ 31 by omega), shiftOne, if_neg (show ¬ core - 31 < 32 by omega)]
  rfl

/-- It selects the next CPU. -/
theorem wrong_mask {vector : Nat} (high : 31 ≤ core) :
    AffinityWrite.mask ⟨vector, 2 ^ (core - 31), 0⟩ ≠ 2 ^ core := by
  have next : AffinityWrite.mask ⟨vector, 2 ^ (core - 31), 0⟩ = 2 ^ (core + 1) := by
    rw [AffinityWrite.mask, Nat.add_zero, ← Nat.pow_add]
    exact congrArg _ (by omega)
  rw [next]
  exact fun same => absurd (Nat.pow_right_injective (Nat.le_refl 2) same) (Nat.succ_ne_self core)

/-- A mask with one bit is the CPU set with that core. -/
theorem testBit_cpuSet {core : Int} (natural : 0 ≤ core) (low : core ≤ 31) (cpu : Nat) :
    (2 ^ core.toNat).testBit cpu = cpuSet core cpu := by
  rw [Nat.testBit_two_pow, cpuSet, decide_eq_decide]
  omega

section

variable {sys : ThreadAnswers} {core : Int}

theorem startThread_spec (out : Bool × List AffinityWrite) :
    (startThread sys core out).written = out.2 ∧
      ((startThread sys core out).cpuset = none ∨ (startThread sys core out).cpuset = some (cpuSet core)) ∧
      (out.1 = false → (startThread sys core out).ret = false) := by
  obtain ⟨_ | _, written⟩ := out
  · exact ⟨rfl, .inl rfl, fun _ => rfl⟩
  · rw [startThread]
    split
    · exact ⟨rfl, .inl rfl, fun _ => rfl⟩
    · split
      · exact ⟨rfl, .inr rfl, fun _ => rfl⟩
      · exact ⟨rfl, .inr rfl, fun wrong => by cases wrong⟩

/-- The right masks for a core of the low word. -/
theorem Pins.low (natural : 0 ≤ core) (low : core ≤ 31) {out : Bool × List AffinityWrite}
    (masks : ∀ w ∈ out.2, w.mask = 2 ^ core.toNat) : Pins core (startThread sys core out) := by
  obtain ⟨written, cpuset, _⟩ := @startThread_spec sys core out
  refine ⟨by rwa [written], fun w member set isSet cpu => ?_, fun large => by omega⟩
  rw [written] at member
  rcases cpuset with unset | own
  · rw [unset] at isSet
    cases isSet
  · rw [own] at isSet
    cases isSet
    rw [masks w member, testBit_cpuSet natural low]

/-- A thread that was not created, and nothing written. -/
theorem Pins.nothing {created : Created} (written : created.written = []) (refused : created.ret = false) :
    Pins core created :=
  ⟨by simp [written], by simp [written], fun _ => refused⟩

theorem createThread_eq {i : Nat} (here : ufpd.cores i = some core) (ports : List (UfpIrq × UfpIrq)) :
    createThread sys ports ufpd i =
      if sys.allocBuf = true ∧ sys.planeBlocks = true then
        (planeAffinity sys.files core.toNat ports []).map (startThread sys core)
      else some ⟨false, [], none⟩ := by
  simp only [createThread, ufpdThreadCreate, here, Option.bind_some]
  cases sys.allocBuf <;> cases sys.planeBlocks <;> rfl

/-- The thread comes out pinned once its buffers and its plane are allocated. -/
def Pinned (sys : ThreadAnswers) (core : Int) (ports : List (UfpIrq × UfpIrq)) : Prop :=
  ∃ created, (planeAffinity sys.files core.toNat ports []).map (startThread sys core) = some created ∧
    Pins core created

variable (rxIrq txIrq : UfpIrq) (ports : List (UfpIrq × UfpIrq))

theorem pinned_low (natural : 0 ≤ core) (low : core ≤ 31) :
    Pinned sys core ((rxIrq, txIrq) :: ports) := by
  have masks : affinityMasks core.toNat = some (0, 2 ^ core.toNat) := affinityMasks_low (by omega)
  obtain ⟨ok, after, done, _, each⟩ := @planeAffinity_masks sys.files _ _ _ masks ((rxIrq, txIrq) :: ports) []
  refine ⟨_, by rw [done]; rfl, Pins.low natural low fun w member => ?_⟩
  rcases each w member with old | ⟨maskHigh, maskLow⟩
  · cases old
  · rw [AffinityWrite.mask, maskHigh, maskLow]
    omega

theorem not_pinned_high (high : 31 < core) (small : core ≤ 62)
    (takes : sys.files.opens rxIrq.vector = true ∧ sys.files.prints rxIrq.vector = true) :
    ¬ Pinned sys core ((rxIrq, txIrq) :: ports) := by
  rintro ⟨created, done, pins⟩
  have masks : affinityMasks core.toNat = some (2 ^ (core.toNat - 31), 0) := affinityMasks_high (by omega) (by omega)
  obtain ⟨ok, after, written, first⟩ := planeAffinity_first masks rxIrq txIrq ports [] takes
  rw [written] at done
  cases done
  have masks := pins.masks
  rw [(startThread_spec (ok, after)).1] at masks
  exact wrong_mask (by omega) (masks _ first)

theorem not_pinned_undefined (large : 62 < core) :
    ¬ Pinned sys core ((rxIrq, txIrq) :: ports) := by
  rintro ⟨created, done, _⟩
  rw [planeAffinity, ufpIrqSetaffinity, affinityMasks_undefined (by omega)] at done
  cases done

theorem pinned_unwritten (high : 31 < core) (small : core ≤ 62)
    (refuses : ¬ (sys.files.opens rxIrq.vector = true ∧ sys.files.prints rxIrq.vector = true)) :
    Pinned sys core ((rxIrq, txIrq) :: ports) := by
  have masks : affinityMasks core.toNat = some (2 ^ (core.toNat - 31), 0) := affinityMasks_high (by omega) (by omega)
  rw [Pinned, planeAffinity_unwritten masks rxIrq txIrq ports [] refuses]
  exact ⟨_, rfl, Pins.nothing rfl rfl⟩

end

/-- **Threads and interrupts agree up to core 31**: for a core of an accepted `-c` list,
the masks of a thread's interrupts select the CPU of the thread exactly when the core
is in the low word of the mask, or no mask is written: the thread is not created
before that, or the first file cannot be written, unless the shift is undefined. -/
theorem pinning_agrees_iff (granted : Nat → Bool) (posixlyCorrect : Bool) (argv : List (List Char)) (ufpd : Ufpd)
    (accepted : parseArgs granted posixlyCorrect ufpdDefaults argv = .ok ufpd) (sys : ThreadAnswers)
    (rxIrq txIrq : UfpIrq) (ports : List (UfpIrq × UfpIrq)) (i : Nat) (core : Int) (here : ufpd.cores i = some core) :
    (∃ created, createThread sys ((rxIrq, txIrq) :: ports) ufpd i = some created ∧ Pins core created) ↔
    (core ≤ 31 ∨ ¬ (sys.allocBuf = true ∧ sys.planeBlocks = true) ∨
      core ≤ 62 ∧ ¬ (sys.files.opens rxIrq.vector = true ∧ sys.files.prints rxIrq.vector = true)) := by
  have natural := (parseArgs_unsigned accepted i core here).1
  rw [createThread_eq here]
  by_cases blocks : sys.allocBuf = true ∧ sys.planeBlocks = true
  · rw [if_pos blocks, or_iff_right (not_not_intro blocks)]
    by_cases low : core ≤ 31
    · exact iff_of_true (pinned_low rxIrq txIrq ports natural low) (.inl low)
    rw [or_iff_right low]
    by_cases small : core ≤ 62
    · rw [and_iff_right small]
      constructor
      · exact fun pins takes => not_pinned_high rxIrq txIrq ports (by omega) small takes pins
      · exact pinned_unwritten rxIrq txIrq ports (by omega) small
    · exact iff_of_false (not_pinned_undefined rxIrq txIrq ports (by omega)) fun wrong => small wrong.1
  · rw [if_neg blocks]
    exact iff_of_true ⟨_, rfl, Pins.nothing rfl rfl⟩ (.inr (.inl blocks))

/-- A system that grants everything. -/
def sampleGrants : ThreadAnswers := ⟨true, true, ⟨fun _ => true, fun _ => true⟩, 0, 0⟩

def sampleRxIrq : UfpIrq := ⟨5, 1, 40⟩
def sampleTxIrq : UfpIrq := ⟨6, 2, 41⟩

/-- A list of one core is accepted. -/
theorem parseArgs_one_core {core : Int} (one : items s = [[s]]) (value : scanfU s = some core)
    (short : s.length ≤ ufpdMaxArglen - 1) (small : core < 2 ^ 31 - 1) :
    ∃ ufpd, parseArgs (fun _ => true) false ufpdDefaults (sampleArgv s) = .ok ufpd ∧ ufpd.cores 0 = some core := by
  have item : readItem none [s] = some (core, core) := by
    rw [readItem, readPiece_short short, value]
    rfl
  have read : ∀ item ∈ items s, Read item := by
    rw [one, List.forall_mem_singleton]
    exact ⟨core, core, item, .inr (.inl small)⟩
  have numbers : coreNumbers s = [core] := by
    rw [coreNumbers, one, List.filterMap_cons_some item, List.filterMap_nil, List.flatMap_singleton, upTo_self]
  obtain ⟨left, fields, first, threads, here⟩ : ∃ left fields,
      parseOpt ufpdDefaults (fun _ => none) (.arg 'c' s) = .ok (left, fields) ∧ left.numThreads = 1 ∧
        left.cores 0 = some core := by
    obtain ⟨cores, fields, done, written⟩ := coresOption_short ufpdDefaults (fun _ => none) read (by simp [numbers])
      (by rw [numbers, List.length_singleton]; decide)
    rw [numbers] at done written
    exact ⟨_, fields, done, rfl, written 0 Nat.one_pos⟩
  obtain ⟨numDevices, ifnames, listed, devices⟩ := devicesOption_taken left "0000:04:00.0".toList
  have second : parseOpt left fields (.arg 'p' "0000:04:00.0".toList) =
      .ok ({ left with numDevices, ifnames }, fields) := congrArg (Except.map (·, fields)) listed
  refine ⟨{ left with numDevices, ifnames }, parseArgs_ok_iff.2 ⟨by decide, ?_, Int.ne_of_gt devices.1, ?_⟩, here⟩
  · rw [getopt_sampleArgv, parseOpts_cons first, parseOpts_cons second, parseOpts]
  · rw [threads]
    decide

theorem pinning_agrees_iff_sample :
    ∃ ufpd, parseArgs (fun _ => true) false ufpdDefaults (sampleArgv "3".toList) = .ok ufpd ∧ ufpd.cores 0 = some 3 ∧
      ∃ created, createThread sampleGrants [(sampleRxIrq, sampleTxIrq)] ufpd 0 = some created ∧ Pins 3 created := by
  obtain ⟨ufpd, accepted, here⟩ : ∃ ufpd, parseArgs (fun _ => true) false ufpdDefaults (sampleArgv "3".toList) =
      .ok ufpd ∧ ufpd.cores 0 = some 3 :=
    parseArgs_one_core (by decide +kernel) (by decide +kernel) (by decide) (by decide)
  exact ⟨ufpd, accepted, here, (pinning_agrees_iff _ _ _ ufpd accepted sampleGrants sampleRxIrq sampleTxIrq [] 0 3
    here).2 (.inl (by decide))⟩

/-- With `-c 32` the thread is on CPU 32 and its interrupts go to CPU 33. -/
theorem pinning_next_cpu :
    ∃ ufpd, parseArgs (fun _ => true) false ufpdDefaults (sampleArgv "32".toList) = .ok ufpd ∧
      ufpd.cores 0 = some 32 ∧
      ¬ ∃ created, createThread sampleGrants [(sampleRxIrq, sampleTxIrq)] ufpd 0 = some created ∧ Pins 32 created := by
  obtain ⟨ufpd, accepted, here⟩ : ∃ ufpd, parseArgs (fun _ => true) false ufpdDefaults (sampleArgv "32".toList) =
      .ok ufpd ∧ ufpd.cores 0 = some 32 :=
    parseArgs_one_core (by decide +kernel) (by decide +kernel) (by decide) (by decide)
  refine ⟨ufpd, accepted, here, ?_⟩
  rw [createThread_eq here, if_pos ⟨rfl, rfl⟩]
  exact not_pinned_high sampleRxIrq sampleTxIrq [] (by decide) (by decide) ⟨rfl, rfl⟩

end Ufp.Daemon
