/-
# Ufp.Dev.AdminFields — what a command leaves of the one before it

The descriptors of the send ring are used again lap after lap, with whatever the firmware
wrote over them. `i40e_aq_asq_assign` writes `flags`, `opcode` and the cookie of every
command and the first bytes of `params`; `datalen` and the address only with `FLAG_BUF`;
and `retval` never. Here a descriptor is what lies in memory: the firmware may leave any
value in any member, the opcode included.

* `fill_eq_iff`: from two descriptors a command makes the same one exactly if they agree in
  what it does not write.
* `commands_determined_iff`: in a run every command publishes what it would publish in
  fresh memory exactly if each of them finds nothing left of another one.

`Shows` connects this ring with that of `AdminQueue`, step by step.
-/
import Ufp.Dev.AdminSessions

namespace Ufp.Dev.AdminFields

open Ufp.Dev.AdminQueue Ufp.Dev.AdminSessions Ufp.Theory

set_option autoImplicit false

/-! ## The ring in memory -/

/-- `struct i40e_aq_desc`. -/
@[ext]
structure DescMem where
  flags : Nat
  opcode : Nat
  datalen : Nat
  retval : Nat
  cookieHigh : Nat
  cookieLow : Nat
  params : List UInt8
  size : params.length = 16
  deriving DecidableEq

/-- A descriptor that nothing was written to: the ring is an anonymous mapping. -/
def blank : DescMem := ⟨0, 0, 0, 0, 0, 0, List.replicate 16 0, rfl⟩

/-- The arguments of `i40e_aq_asq_assign` that go into the descriptor. Every command
structure fits into `params`. -/
structure Command where
  opcode : Nat
  flags : Nat
  cmd : List UInt8
  fits : cmd.length ≤ 16
  dataSize : Nat
  cookie : Nat
  deriving DecidableEq

/-- The command has a buffer. -/
def Command.Buffered (c : Command) : Prop := c.flags &&& flagBuf ≠ 0

instance (c : Command) : Decidable c.Buffered := inferInstanceAs (Decidable (_ ≠ _))

theorem length_memcpy {dst src : List UInt8} (fits : src.length ≤ dst.length) :
    (memcpy dst src).length = dst.length := by
  rw [memcpy, List.length_append, List.length_drop]
  omega

/-- The descriptor `i40e_aq_asq_assign` makes of the one that is there. -/
def fill (c : Command) (dma : Nat) (old : DescMem) : DescMem where
  flags := if c.Buffered ∧ (c.dataSize = 0 ∨ 512 < c.dataSize) then c.flags ||| flagLb else c.flags
  opcode := c.opcode
  datalen := if c.Buffered then (if c.dataSize = 0 then 4096 else c.dataSize) else old.datalen
  retval := old.retval
  cookieHigh := upper32 c.cookie
  cookieLow := lower32 c.cookie
  params :=
    if c.Buffered then (memcpy old.params c.cmd).take 8 ++ bytesU32 (upper32 dma) ++ bytesU32 (lower32 dma)
    else memcpy old.params c.cmd
  size := by
    have copied := length_memcpy (old.size.symm ▸ c.fits)
    rw [old.size] at copied
    split
    · simp [copied, bytesU32]
    · exact copied

/-- `struct i40e_aq_ring` with its descriptors in memory. -/
structure SendRing where
  numDesc : Nat
  desc : Nat → DescMem
  bufs : Nat → List UInt8
  dma : Nat → Nat
  nextToUse : Nat
  nextToClean : Nat
  head : Nat
  tail : Nat

namespace SendRing

variable (ring : SendRing)

/-- `i40e_aq_desc_unused`. -/
def unused : Nat :=
  if ring.nextToClean > ring.nextToUse then ring.nextToClean - ring.nextToUse - 1
  else ring.numDesc - ring.nextToUse + ring.nextToClean - 1

/-- `i40e_aq_asq_assign`. -/
def assign (c : Command) (data : Option (List UInt8)) : SendRing :=
  if ring.unused = 0 then ring
  else
    let i := ring.nextToUse
    let bufs :=
      match data with
      | some data =>
          if c.Buffered ∧ c.flags &&& flagRd ≠ 0 ∧ c.dataSize ≠ 0 then
            Function.update ring.bufs i (memcpy (ring.bufs i) (data.take c.dataSize))
          else ring.bufs
      | none => ring.bufs
    let nextToUse := if i + 1 < ring.numDesc then i + 1 else 0
    { ring with
      desc := Function.update ring.desc i (fill c (ring.dma i) (ring.desc i))
      bufs, nextToUse, tail := nextToUse }

end SendRing

/-- A call of the driver, an answer of the firmware, which writes what it likes over the
descriptor at the head and its buffer, or a turn of `i40e_aq_asq_clean`. -/
inductive Event where
  | assign (c : Command) (data : Option (List UInt8))
  | complete (desc : DescMem) (buf : List UInt8)
  | clean

def SendRing.step (ring : SendRing) : Event → SendRing
  | .assign c data => ring.assign c data
  | .complete desc buf =>
      if ring.head = ring.tail then ring
      else
        { ring with
          desc := Function.update ring.desc ring.head desc
          bufs := Function.update ring.bufs ring.head buf
          head := Ring.next ring.numDesc ring.head }
  | .clean =>
      if ring.nextToClean = ring.head then ring
      else { ring with nextToClean := Ring.next ring.numDesc ring.nextToClean }

def SendRing.run (ring : SendRing) (events : List Event) : SendRing := events.foldl SendRing.step ring

/-- A command that found room, and the descriptor in its slot when the tail register is
written. -/
structure Publication where
  slot : Nat
  command : Command
  desc : DescMem

/-- What an event publishes. -/
def SendRing.publishes (ring : SendRing) : Event → List Publication
  | .assign c data =>
      if ring.unused = 0 then [] else [⟨ring.nextToUse, c, (ring.assign c data).desc ring.nextToUse⟩]
  | _ => []

/-- What a run publishes, in order. -/
def SendRing.published (ring : SendRing) : List Event → List Publication
  | [] => []
  | event :: events => ring.publishes event ++ (ring.step event).published events

/-! ## What is not written -/

/-- The bytes of `params` that the command or the address of the buffer end before. -/
def Command.paramsEnd (c : Command) : Nat := if c.Buffered then 8 else 16

/-- Two descriptors agree in what the command does not write. -/
structure SameLeft (c : Command) (old old' : DescMem) : Prop where
  retval : old.retval = old'.retval
  datalen : ¬ c.Buffered → old.datalen = old'.datalen
  params : (old.params.take c.paramsEnd).drop c.cmd.length = (old'.params.take c.paramsEnd).drop c.cmd.length

theorem take_memcpy (n : Nat) (dst src : List UInt8) :
    (memcpy dst src).take n = src.take n ++ (dst.take n).drop src.length := by
  rw [memcpy, List.take_append, List.drop_take]

variable {c : Command} {ring : SendRing} {old : DescMem}

theorem fill_params_eq_iff {dma : Nat} {old' : DescMem} :
    (fill c dma old).params = (fill c dma old').params ↔
      (old.params.take c.paramsEnd).drop c.cmd.length = (old'.params.take c.paramsEnd).drop c.cmd.length := by
  simp only [fill, Command.paramsEnd]
  split
  case isTrue =>
      rw [List.append_assoc, List.append_assoc, List.append_cancel_right_eq, take_memcpy, take_memcpy,
        List.append_cancel_left_eq]
  case isFalse =>
      rw [List.take_of_length_le (Nat.le_of_eq old.size), List.take_of_length_le (Nat.le_of_eq old'.size), memcpy,
        memcpy, List.append_cancel_left_eq]

/-- **What a descriptor is filled from shows in what the command does not write**, and
nowhere else. -/
theorem fill_eq_iff {dma : Nat} {old' : DescMem} : fill c dma old = fill c dma old' ↔ SameLeft c old old' := by
  constructor
  · intro same
    have retval := congrArg DescMem.retval same
    have datalen := congrArg DescMem.datalen same
    have params := congrArg DescMem.params same
    refine ⟨retval, fun direct => ?_, fill_params_eq_iff.1 params⟩
    simpa only [fill, if_neg direct] using datalen
  · rintro ⟨retval, datalen, params⟩
    refine DescMem.ext rfl rfl ?_ retval rfl rfl (fill_params_eq_iff.2 params)
    simp only [fill]
    split
    case isTrue => rfl
    case isFalse direct => exact datalen direct

/-! ## Runs -/

/-- The slot that a call takes holds nothing of another command: what the call does not
write is as in fresh memory. -/
def SendRing.Clear (ring : SendRing) : Event → Prop
  | .assign c _ => ring.unused ≠ 0 → SameLeft c (ring.desc ring.nextToUse) blank
  | _ => True

/-- Every call of a run takes a clear slot. -/
def SendRing.ClearRun (ring : SendRing) : List Event → Prop
  | [] => True
  | event :: events => ring.Clear event ∧ (ring.step event).ClearRun events

/-- The descriptor of a command for a slot with this buffer. -/
def Command.desc (c : Command) (dma : Nat) : DescMem := fill c dma blank

theorem assign_desc (room : ring.unused ≠ 0) (c : Command) (data : Option (List UInt8)) :
    (ring.assign c data).desc ring.nextToUse = fill c (ring.dma ring.nextToUse) (ring.desc ring.nextToUse) := by
  rw [SendRing.assign, if_neg room]
  exact Function.update_self ..

theorem step_dma (ring : SendRing) (event : Event) : (ring.step event).dma = ring.dma := by
  cases event with
  | assign c data =>
      simp only [SendRing.step, SendRing.assign]
      split <;> rfl
  | complete desc buf =>
      simp only [SendRing.step]
      split <;> rfl
  | clean =>
      simp only [SendRing.step]
      split <;> rfl

/-- One call publishes its own descriptor exactly if its slot is clear. -/
theorem publishes_determined_iff (ring : SendRing) (event : Event) :
    (∀ p ∈ ring.publishes event, p.desc = p.command.desc (ring.dma p.slot)) ↔ ring.Clear event := by
  cases event with
  | assign c data =>
      simp only [SendRing.publishes, SendRing.Clear]
      split
      case isTrue full => exact iff_of_true (fun p member => absurd member List.not_mem_nil) (absurd full)
      case isFalse room =>
          rw [List.forall_mem_singleton, assign_desc room, Command.desc, fill_eq_iff]
          exact ⟨fun clear _ => clear, fun clear => clear room⟩
  | complete desc buf => exact iff_of_true (fun p member => absurd member List.not_mem_nil) trivial
  | clean => exact iff_of_true (fun p member => absurd member List.not_mem_nil) trivial

theorem published_determined_iff (ring : SendRing) (events : List Event) :
    (∀ p ∈ ring.published events, p.desc = p.command.desc (ring.dma p.slot)) ↔ ring.ClearRun events := by
  induction events generalizing ring with
  | nil => exact iff_of_true (fun p member => absurd member List.not_mem_nil) trivial
  | cons event events ih =>
      rw [SendRing.published, List.forall_mem_append, publishes_determined_iff, SendRing.ClearRun, ← ih, step_dma]

/-- **A command carries nothing of those before it exactly if it takes a clear slot.** In a
run every published descriptor is determined by the call and the address of the slot's
buffer exactly if every call takes a clear slot; two such runs publish the same for the
same command in the same place. -/
theorem commands_determined_iff (ring ring' : SendRing) (events events' : List Event) :
    ((∀ p ∈ ring.published events, p.desc = p.command.desc (ring.dma p.slot)) ↔ ring.ClearRun events) ∧
      (ring.ClearRun events → ring'.ClearRun events' →
        ∀ p ∈ ring.published events, ∀ p' ∈ ring'.published events', p.command = p'.command → p.slot = p'.slot →
          ring.dma p.slot = ring'.dma p'.slot → p.desc = p'.desc) := by
  refine ⟨published_determined_iff ring events, fun clear clear' p member p' member' command _ address => ?_⟩
  rw [(published_determined_iff ring events).2 clear p member,
    (published_determined_iff ring' events').2 clear' p' member', command, address]

/-! ## The ring of the sessions -/

/-- `enum i40e_admin_queue_opc`. -/
def opcodeValue : Opcode → Nat
  | .firmwareVersion => 0x0001
  | .driverVersion => 0x0002
  | .queueShutdown => 0x0003
  | .macaddrRead => 0x0107
  | .clearPxemode => 0x0110
  | .getSwconf => 0x0200
  | .setSwconf => 0x0205
  | .rxctlRead => 0x0206
  | .rxctlWrite => 0x0207
  | .updateVsi => 0x0211
  | .getVsi => 0x0212
  | .promiscMode => 0x0254
  | .setPhyintmask => 0x0613
  | .stopLldp => 0x0a05
  | .setRsskey => 0x0b02
  | .setRsslut => 0x0b03

/-- The memory holds this descriptor. -/
structure DescMem.Holds (m : DescMem) (desc : Desc) : Prop where
  flags : m.flags = desc.flags
  opcode : m.opcode = opcodeValue desc.opcode
  datalen : m.datalen = desc.datalen
  retval : m.retval = desc.retval
  cookieHigh : m.cookieHigh = desc.cookieHigh
  cookieLow : m.cookieLow = desc.cookieLow
  params : m.params = desc.params

/-- The memory holds the descriptors of the ring. -/
structure SendRing.Shows (mem : SendRing) (ring : AqRing) : Prop where
  numDesc : mem.numDesc = ring.numDesc
  desc : ∀ i, (mem.desc i).Holds (ring.desc i)
  bufs : mem.bufs = ring.bufs
  dma : mem.dma = ring.dma
  nextToUse : mem.nextToUse = ring.nextToUse
  nextToClean : mem.nextToClean = ring.nextToClean
  head : mem.head = ring.head
  tail : mem.tail = ring.tail

theorem DescMem.Holds.fill {m : DescMem} {desc : Desc} (holds : m.Holds desc) (opcode : Opcode) (flags : Nat)
    {cmd : List UInt8} (fits : cmd.length ≤ 16) (dataSize cookie dma : Nat) :
    (fill ⟨opcodeValue opcode, flags, cmd, fits, dataSize, cookie⟩ dma m).Holds
      (fillDesc opcode flags cmd dataSize cookie dma desc) := by
  obtain ⟨-, -, datalen, retval, -, -, params⟩ := holds
  refine ⟨rfl, rfl, ?_, retval, rfl, rfl, ?_⟩
  · simp only [AdminFields.fill, fillDesc, Command.Buffered, datalen]
  · simp only [AdminFields.fill, fillDesc, Command.Buffered, params]

namespace SendRing.Shows

variable {mem : SendRing} {ring : AqRing}

theorem update (same : mem.Shows ring) (i : Nat) {m : DescMem} {desc : Desc} (holds : m.Holds desc) (j : Nat) :
    (Function.update mem.desc i m j).Holds (Function.update ring.desc i desc j) := by
  by_cases here : j = i
  · subst here
    rwa [Function.update_self, Function.update_self]
  · rw [Function.update_of_ne here, Function.update_of_ne here]
    exact same.desc j

theorem unused (same : mem.Shows ring) : mem.unused = i40eAqDescUnused ring := by
  rw [SendRing.unused, i40eAqDescUnused, same.numDesc, same.nextToUse, same.nextToClean]

/-- A command is submitted. -/
theorem assign (same : mem.Shows ring) (opcode : Opcode) (flags : Nat) {cmd : List UInt8} (fits : cmd.length ≤ 16)
    (data : Option (List UInt8)) (dataSize cookie : Nat) :
    (mem.step (.assign ⟨opcodeValue opcode, flags, cmd, fits, dataSize, cookie⟩ data)).Shows
      (i40eAqAsqAssign opcode flags cmd data dataSize cookie ring) := by
  simp only [SendRing.step, SendRing.assign, i40eAqAsqAssign, same.unused, same.numDesc, same.nextToUse, same.dma,
    same.bufs, Command.Buffered]
  split
  case isTrue => exact same
  case isFalse =>
      exact ⟨rfl, same.update _ ((same.desc _).fill opcode flags fits dataSize cookie _), rfl, rfl, rfl,
        same.nextToClean, same.head, rfl⟩

/-- A descriptor is answered. -/
theorem complete (same : mem.Shows ring) (given : ring.head ≠ ring.tail) (c : Completion)
    (size : c.params.length = 16) :
    (mem.step (.complete ⟨c.flags, (mem.desc ring.head).opcode, c.datalen, c.retval, (mem.desc ring.head).cookieHigh,
      (mem.desc ring.head).cookieLow, c.params, size⟩ c.buf)).Shows (ring.complete c) := by
  have old := same.desc ring.head
  simp only [SendRing.step, same.head, same.tail, if_neg given, same.bufs, same.numDesc]
  refine ⟨rfl, same.update _ ?_, rfl, same.dma, same.nextToUse, same.nextToClean, rfl, rfl⟩
  exact ⟨rfl, old.opcode, rfl, rfl, old.cookieHigh, old.cookieLow, rfl⟩

/-- A descriptor is cleaned. -/
theorem clean {aq : Aq} (same : mem.Shows aq.txRing) (left : aq.txRing.nextToClean ≠ aq.txRing.head) (room : Nat) :
    (mem.step .clean).Shows (asqCleanOne room aq).txRing := by
  rw [asqCleanOne_ring]
  simp only [SendRing.step, same.nextToClean, same.head, if_neg left, same.numDesc]
  exact ⟨rfl, same.desc, same.bufs, same.dma, same.nextToUse, rfl, rfl, same.tail⟩

end SendRing.Shows

/-! ## A lap of the ring -/

/-- The ring after `i40e_aq_asq_init`. -/
def freshRing (n : Nat) : SendRing :=
  { numDesc := n, desc := fun _ => blank, bufs := fun _ => [], dma := fun _ => 0
    nextToUse := 0, nextToClean := 0, head := 0, tail := 0 }

/-- Nothing is outstanding, and the next slot is `i`. -/
structure Idle (ring : SendRing) (i : Nat) : Prop where
  use : ring.nextToUse = i
  clean : ring.nextToClean = i
  head : ring.head = i
  tail : ring.tail = i

/-- A command that is answered so and cleaned. -/
def round (c : Command) (answer : DescMem) : List Event := [.assign c none, .complete answer [], .clean]

def rounds (c : Command) (answer : DescMem) (k : Nat) : List Event := (List.replicate k (round c answer)).flatten

theorem Idle.unused {i : Nat} (idle : Idle ring i) (inside : i < ring.numDesc) (deep : 2 ≤ ring.numDesc) :
    ring.unused ≠ 0 := by
  rw [SendRing.unused, idle.use, idle.clean, if_neg (Nat.lt_irrefl i)]
  omega

theorem Idle.round {i : Nat} (idle : Idle ring i) (inside : i < ring.numDesc) (deep : 2 ≤ ring.numDesc) (c : Command)
    (answer : DescMem) :
    Idle (ring.run (round c answer)) (Ring.next ring.numDesc i) ∧
      (ring.run (round c answer)).numDesc = ring.numDesc ∧
      (ring.run (round c answer)).desc = Function.update ring.desc i answer := by
  have room := idle.unused inside deep
  obtain ⟨use, clean, head, tail⟩ := idle
  have moved : (if i + 1 < ring.numDesc then i + 1 else 0) = Ring.next ring.numDesc i := rfl
  have apart : i ≠ Ring.next ring.numDesc i := by
    unfold Ring.next
    split <;> omega
  simp only [SendRing.run, AdminFields.round, List.foldl_cons, List.foldl_nil, SendRing.step, SendRing.assign,
    if_neg room, use, clean, head, moved, if_neg apart, Function.update_idem, and_true]
  exact ⟨rfl, rfl, rfl, rfl⟩

theorem run_append (ring : SendRing) (events more : List Event) :
    ring.run (events ++ more) = (ring.run events).run more :=
  List.foldl_append

theorem published_append (ring : SendRing) (events more : List Event) :
    ring.published (events ++ more) = ring.published events ++ (ring.run events).published more := by
  induction events generalizing ring with
  | nil => rfl
  | cons event events ih =>
      rw [List.cons_append, SendRing.published, ih, SendRing.published, List.append_assoc]
      rfl

/-- After a whole lap every slot holds the answer of the firmware. -/
theorem freshRing_lap {n : Nat} (deep : 2 ≤ n) (c : Command) (answer : DescMem) :
    Idle ((freshRing n).run (rounds c answer n)) 0 ∧ ((freshRing n).run (rounds c answer n)).numDesc = n ∧
      ((freshRing n).run (rounds c answer n)).desc 0 = answer := by
  have afterRounds : ∀ k ≤ n, Idle ((freshRing n).run (rounds c answer k)) (k % n) ∧
      ((freshRing n).run (rounds c answer k)).numDesc = n ∧
      (0 < k → ((freshRing n).run (rounds c answer k)).desc 0 = answer) := by
    intro k few
    induction k with
    | zero => exact ⟨⟨rfl, rfl, rfl, rfl⟩, rfl, fun none => absurd none (Nat.lt_irrefl 0)⟩
    | succ k ih =>
        obtain ⟨idle, size, first⟩ := ih (by omega)
        have place : k % n = k := Nat.mod_eq_of_lt (by omega)
        obtain ⟨idle', size', desc'⟩ := idle.round (by rw [place, size]; omega) (by omega) c answer
        rw [rounds, List.replicate_succ', List.flatten_concat, run_append, ← rounds]
        rw [place, size, Ring.next_eq_mod (by omega)] at idle'
        refine ⟨idle', size'.trans size, fun _ => ?_⟩
        rw [desc', place]
        by_cases zero : k = 0
        · rw [zero, Function.update_self]
        · rw [Function.update_of_ne (Ne.symm zero), first (by omega)]
  obtain ⟨idle, size, first⟩ := afterRounds n (Nat.le_refl n)
  rw [Nat.mod_self] at idle
  exact ⟨idle, size, first (by omega)⟩

/-- So a command of the second lap is filled from the answer. -/
theorem published_second_lap {n : Nat} (deep : 2 ≤ n) (c c' : Command) (answer : DescMem) :
    ((freshRing n).run (rounds c' answer n)).published [.assign c none] =
      [⟨0, c, fill c (((freshRing n).run (rounds c' answer n)).dma 0) answer⟩] := by
  obtain ⟨idle, size, first⟩ := freshRing_lap deep c' answer
  have room := idle.unused (by omega) (by omega)
  rw [SendRing.published, SendRing.publishes, if_neg room, assign_desc room, idle.use, first]
  rfl

/-- What a command does not write stays as it was. -/
theorem SameLeft.fill (same : SameLeft c old blank) (dma : Nat) : SameLeft c (fill c dma old) blank := by
  refine ⟨same.retval, fun direct => ?_, ?_⟩
  · simpa only [AdminFields.fill, if_neg direct] using same.datalen direct
  · have copied : ((memcpy old.params c.cmd).take c.paramsEnd).drop c.cmd.length =
        (old.params.take c.paramsEnd).drop c.cmd.length := by
      rw [List.drop_take, List.drop_take, memcpy, List.drop_left]
    rw [← same.params, ← copied]
    simp only [AdminFields.fill, Command.paramsEnd]
    split
    · have long : 8 ≤ (memcpy old.params c.cmd).length := by
        rw [length_memcpy (old.size.symm ▸ c.fits), old.size]
        decide
      rw [List.append_assoc, List.take_append_of_le_length (by simp [long]), List.take_take, Nat.min_self]
    · rfl

/-- An event of a run of one command whose answers are clear for it. -/
def Event.Tidy (c : Command) : Event → Prop
  | .assign c' _ => c' = c
  | .complete answer _ => SameLeft c answer blank
  | .clean => True

theorem tidy_step {event : Event} (tidy : event.Tidy c) (slots : ∀ i, SameLeft c (ring.desc i) blank) :
    ∀ i, SameLeft c ((ring.step event).desc i) blank := by
  have update : ∀ j {desc}, SameLeft c desc blank → ∀ i, SameLeft c (Function.update ring.desc j desc i) blank := by
    intro j desc clear i
    by_cases here : i = j
    · rwa [here, Function.update_self]
    · rw [Function.update_of_ne here]
      exact slots i
  cases event with
  | assign c' data =>
      obtain rfl : c' = c := tidy
      simp only [SendRing.step, SendRing.assign]
      split
      · exact slots
      · exact update _ ((slots _).fill _)
  | complete answer buf =>
      simp only [SendRing.step]
      split
      · exact slots
      · exact update _ tidy
  | clean =>
      simp only [SendRing.step]
      split <;> exact slots

/-- Such a run takes clear slots only, however many laps it makes. -/
theorem clearRun_tidy {events : List Event} (tidy : ∀ event ∈ events, event.Tidy c)
    (slots : ∀ i, SameLeft c (ring.desc i) blank) : ring.ClearRun events := by
  induction events generalizing ring with
  | nil => trivial
  | cons event events ih =>
      obtain ⟨first, rest⟩ := List.forall_mem_cons.mp tidy
      refine ⟨?_, ih rest (tidy_step first slots)⟩
      cases event with
      | assign c' data =>
          obtain rfl : c' = c := first
          exact fun _ => slots _
      | complete answer buf => trivial
      | clean => trivial

theorem tidy_rounds {answer : DescMem} (clear : SameLeft c answer blank) (k : Nat) :
    ∀ event ∈ rounds c answer k, event.Tidy c := by
  intro event member
  obtain ⟨_, turn, inside⟩ := List.mem_flatten.mp member
  obtain rfl := List.eq_of_mem_replicate turn
  simp only [round, List.mem_cons, List.not_mem_nil, or_false] at inside
  rcases inside with rfl | rfl | rfl
  · rfl
  · exact clear
  · trivial

/-- The read of a control register. -/
def sampleCommand : Command := ⟨0x0206, 0, List.replicate 16 0, by decide, 0, 4096⟩

/-- The firmware reports an error. -/
def sampleError : DescMem := { blank with flags := 7, opcode := 0x0206, retval := 2, cookieLow := 4096 }

/-- The firmware answers with the value of the register. -/
def sampleAnswer : DescMem :=
  { blank with flags := 3, opcode := 0x0206, cookieLow := 4096, params := List.replicate 16 7, size := rfl }

/-- After a lap of reads that were answered so, the read in slot 0 is published as in fresh
memory. -/
theorem commands_determined_iff_sample :
    let lap := rounds sampleCommand sampleAnswer 128
    (∀ p ∈ (freshRing 128).published (lap ++ [.assign sampleCommand none]), p.desc = p.command.desc 0) ∧
      ((freshRing 128).run lap).published [.assign sampleCommand none] =
        (freshRing 128).published [.assign sampleCommand none] := by
  intro lap
  have answered : SameLeft sampleCommand sampleAnswer blank := ⟨rfl, fun _ => rfl, rfl⟩
  have tidy : ∀ event ∈ lap ++ [.assign sampleCommand none], event.Tidy sampleCommand :=
    List.forall_mem_append.mpr ⟨tidy_rounds answered 128, List.forall_mem_singleton.mpr rfl⟩
  have clear : (freshRing 128).ClearRun (lap ++ [.assign sampleCommand none]) :=
    clearRun_tidy tidy fun _ => ⟨rfl, fun _ => rfl, rfl⟩
  have determined := (commands_determined_iff (freshRing 128) (freshRing 128) _ []).1.2 clear
  refine ⟨determined, ?_⟩
  have last := published_second_lap (n := 128) (by decide) sampleCommand sampleCommand sampleAnswer
  rw [published_append] at determined
  have same := (List.forall_mem_append.mp determined).2 _ (last ▸ List.mem_singleton.mpr rfl)
  rw [last]
  exact congrArg (fun desc => [Publication.mk 0 sampleCommand desc]) same

/-- The same read, in slot 0, first in fresh memory and then after a lap of reads that the
firmware refused: `retval` is still there. -/
theorem stale_retval_published :
    (freshRing 128).published [.assign sampleCommand none] = [⟨0, sampleCommand, sampleCommand.desc 0⟩] ∧
      (∃ p ∈ (freshRing 128).published (rounds sampleCommand sampleError 128 ++ [.assign sampleCommand none]),
        p.slot = 0 ∧ p.command = sampleCommand ∧ p.desc.retval = 2) ∧
      (sampleCommand.desc 0).retval = 0 := by
  have last := published_second_lap (n := 128) (by decide) sampleCommand sampleCommand sampleError
  rw [published_append, last]
  exact ⟨rfl, ⟨_, List.mem_append_right _ (List.mem_singleton.mpr rfl), rfl, rfl, rfl⟩, rfl⟩

end Ufp.Dev.AdminFields
