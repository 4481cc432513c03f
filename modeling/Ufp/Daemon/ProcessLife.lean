/-
# Ufp.Daemon.ProcessLife — what the daemon holds from start to exit

`main` and the functions it calls, in the manner of `Ufp.Lib.DeviceLife`: the names of the
interfaces, the memory pools, the devices, the threads with their buffers and planes. On
the way out `main` falls through its labels whether it has failed or been told to stop, so
they are `always` here. `daemon_life` says what is held when it returns.

`ufpd_thread_create` takes `pthread_create` to fail with a negative number, which it never
does; a thread that could not be created is joined all the same. The theorem is therefore
about runs in which threads can be created.

A thread has descriptors of its own: `threadStart` is `thread_process_interrupt` up to
`thread_wait`, with `thread_fd_prepare`, and `ThreadState.stop` the way back, with
`thread_fd_destroy`. The latter has no case for the netlink socket, which stays open
(`thread_files`), once for every thread of the process. Of what a thread does between the
two nothing is opened or closed, so it makes no difference that here it starts when it is
created and stops when it is joined.
-/
import Ufp.Dev.DriverLife

namespace Ufp.Daemon.Life

open Ufp.Theory.Acquire Ufp.Lib.Life Ufp.Dev.Life

set_option autoImplicit false

variable {terms : Terms Kind} {granted : Set Kind}

/-! ## Pools, buffers and planes -/

structure Mpool where
  mpool : Nat
  addrVirt : Nat
  node : Nat

def Mpool.own (pool : Mpool) : Things Kind :=
  {(.rootNode, pool.node)} + ({(.hugePage, pool.addrVirt)} + {(.mpool, pool.mpool)})

/-- `ufp_mpool_init`. -/
def ufpMpoolInit : Attempt Kind Mpool := do
  let mpool ← take .mpool
  onError (give .mpool mpool) do
    let addrVirt ← take .hugePage
    onError (give .hugePage addrVirt) do
      let node ← take .rootNode
      return { mpool, addrVirt, node }

/-- `ufp_mpool_destroy`, of a pool whose blocks are back. -/
def ufpMpoolDestroy (pool : Mpool) : World Kind → World Kind :=
  inOrder [give .rootNode pool.node, give .hugePage pool.addrVirt, give .mpool pool.mpool]

structure UfpBuf where
  buf : Nat
  addrVirt : Nat
  addrDma : Nat
  slots : Nat

def UfpBuf.own (buf : UfpBuf) : Things Kind :=
  {(.slots, buf.slots)} + ({(.dmaMap, buf.addrDma)} + ({(.bufMem, buf.addrVirt)} + {(.buf, buf.buf)}))

/-- `ufp_alloc_buf`. -/
def ufpAllocBuf : Attempt Kind UfpBuf := do
  let buf ← take .buf
  onError (give .buf buf) do
    let addrVirt ← take .bufMem
    onError (give .bufMem addrVirt) do
      let addrDma ← take .dmaMap
      onError (give .dmaMap addrDma) do
        let slots ← take .slots
        return { buf, addrVirt, addrDma, slots }

/-- `ufp_release_buf`. -/
def ufpReleaseBuf (buf : UfpBuf) : World Kind → World Kind :=
  inOrder [give .slots buf.slots, give .dmaMap buf.addrDma, give .bufMem buf.addrVirt, give .buf buf.buf]

structure UfpPlane where
  plane : Nat
  ports : Nat

def UfpPlane.own (plane : UfpPlane) : Things Kind := {(.ports, plane.ports)} + {(.plane, plane.plane)}

/-- `ufp_irq_setaffinity`. -/
def ufpIrqSetaffinity : Attempt Kind Unit := do
  let file ← take .file
  always (give .file file) (ask .call)

/-- `ufp_plane_alloc`; each port has two interrupts. -/
def ufpPlaneAlloc (numPorts : Nat) : Attempt Kind UfpPlane := do
  let plane ← take .plane
  onError (give .plane plane) do
    let ports ← take .ports
    onError (give .ports ports) do
      times ufpIrqSetaffinity (2 * numPorts)
      return { plane, ports }

/-- `ufp_plane_release`. -/
def ufpPlaneRelease (plane : UfpPlane) : World Kind → World Kind :=
  inOrder [give .ports plane.ports, give .plane plane.plane]

theorem ufpMpoolInit_gets : Gets terms 0 ufpMpoolInit Mpool.own 0 0 := by
  refine Gets.takeGuard fun mpool => Gets.takeGuard fun addrVirt => ?_
  exact (Gets.take _ _).andThen fun node => Gets.pure (by simp [Mpool.own])

theorem ufpMpoolDestroy_undoes (pool : Mpool) : Undoes granted (ufpMpoolDestroy pool) pool.own 0 :=
  (Undoes.give _ _ _).cons ((Undoes.give _ _ _).cons ((Undoes.giveLast _ _).cons (Undoes.nil _)))

theorem ufpAllocBuf_gets : Gets terms 0 ufpAllocBuf UfpBuf.own 0 0 := by
  refine Gets.takeGuard fun buf => Gets.takeGuard fun addrVirt => Gets.takeGuard fun addrDma => ?_
  exact (Gets.take _ _).andThen fun slots => Gets.pure (by simp [UfpBuf.own])

theorem ufpReleaseBuf_undoes (buf : UfpBuf) : Undoes granted (ufpReleaseBuf buf) buf.own 0 := by
  refine (Undoes.give _ _ _).cons ((Undoes.give _ _ _).cons ((Undoes.give _ _ _).cons ?_))
  exact (Undoes.giveLast _ _).cons (Undoes.nil _)

theorem ufpIrqSetaffinity_gets (pre : Things Kind) :
    Gets terms pre ufpIrqSetaffinity (fun _ => pre) pre 0 :=
  Gets.takeScope fun _ => Gets.ask _ _

theorem ufpPlaneAlloc_gets (numPorts : Nat) : Gets terms 0 (ufpPlaneAlloc numPorts) UfpPlane.own 0 0 := by
  refine Gets.takeGuard fun plane => Gets.takeGuard fun ports => ?_
  exact ((ufpIrqSetaffinity_gets _).times _).andThen fun _ => Gets.pure (by simp [UfpPlane.own])

theorem ufpPlaneRelease_undoes (plane : UfpPlane) : Undoes granted (ufpPlaneRelease plane) plane.own 0 :=
  (Undoes.give _ _ _).cons ((Undoes.giveLast _ _).cons (Undoes.nil _))

/-! ## The descriptors of a thread -/

/-- The type of a `struct epoll_desc`. -/
inductive EpollType
  | irqRx
  | irqTx
  | tun
  | signal
  | netlink

/-- `struct epoll_desc`, by its type; the descriptors of interrupts and of the virtual
interface belong to the device. -/
inductive EpollDesc
  | irqRx (desc : Nat)
  | irqTx (desc : Nat)
  | tun (desc : Nat)
  | signal (desc fd : Nat)
  | netlink (desc fd : Nat)

def EpollDesc.type : EpollDesc → EpollType
  | .irqRx _ => .irqRx
  | .irqTx _ => .irqTx
  | .tun _ => .tun
  | .signal _ _ => .signal
  | .netlink _ _ => .netlink

def EpollDesc.own : EpollDesc → Things Kind
  | .irqRx desc => {(.epollDesc, desc)}
  | .irqTx desc => {(.epollDesc, desc)}
  | .tun desc => {(.epollDesc, desc)}
  | .signal desc fd => {(.signalFd, fd)} + {(.epollDesc, desc)}
  | .netlink desc fd => {(.netlinkFd, fd)} + {(.netlinkDesc, desc)}

/-- `epoll_desc_alloc_irq`; `made` says for which of the two interrupts. -/
def epollDescAllocIrq (made : Nat → EpollDesc) : Attempt Kind EpollDesc := do
  let desc ← take .epollDesc
  return made desc

/-- `epoll_desc_alloc_tun`. -/
def epollDescAllocTun : Attempt Kind EpollDesc := do
  let desc ← take .epollDesc
  return .tun desc

/-- `epoll_desc_alloc_signalfd`. -/
def epollDescAllocSignalfd : Attempt Kind EpollDesc := do
  let desc ← take .epollDesc
  onError (give .epollDesc desc) do
    let fd ← take .signalFd
    return .signal desc fd

/-- `epoll_desc_alloc_netlink`. -/
def epollDescAllocNetlink : Attempt Kind EpollDesc := do
  let desc ← take .netlinkDesc
  onError (give .netlinkDesc desc) do
    let fd ← take .netlinkFd
    onError (give .netlinkFd fd) do
      ask .call
      return .netlink desc fd

def EpollType.alloc : EpollType → Attempt Kind EpollDesc
  | .irqRx => epollDescAllocIrq .irqRx
  | .irqTx => epollDescAllocIrq .irqTx
  | .tun => epollDescAllocTun
  | .signal => epollDescAllocSignalfd
  | .netlink => epollDescAllocNetlink

/-- The `switch` in `thread_fd_destroy`, which has no case for `EPOLL_NETLINK`. -/
def EpollDesc.release : EpollDesc → World Kind → World Kind
  | .irqRx desc => give .epollDesc desc
  | .irqTx desc => give .epollDesc desc
  | .tun desc => give .epollDesc desc
  | .signal desc fd => inOrder [give .signalFd fd, give .epollDesc desc]
  | .netlink _ _ => id

/-- What is left of a descriptor then. -/
def EpollDesc.left : EpollDesc → Things Kind
  | .netlink desc fd => (EpollDesc.netlink desc fd).own
  | _ => 0

/-- One turn of the loop in `thread_fd_destroy`. -/
def epollDelete (desc : EpollDesc) : World Kind → World Kind :=
  inOrder [regardless (ask .call : Attempt Kind Unit), desc.release]

/-- `thread_fd_destroy`. -/
def threadFdDestroy (descs : List EpollDesc) (fdEp : Nat) : World Kind → World Kind :=
  inOrder [releaseAll epollDelete descs, give .epollFd fdEp]

/-- The descriptors that `thread_fd_prepare` makes. -/
def threadFds (numPorts : Nat) : List EpollType :=
  (List.replicate numPorts [.irqRx, .irqTx, .tun]).flatten ++ [.signal, .netlink]

/-- The middle of `thread_fd_prepare`: the descriptors are made one after the other, put in
the list and added to the epoll descriptor, up to the first failure. The result says
whether there was none, and has the list. -/
def threadFdAdd : List EpollType → List EpollDesc → Attempt Kind (Bool × List EpollDesc)
  | [], descs => pure (true, descs)
  | type :: types, descs => do
      match ← observe type.alloc with
      | none => return (false, descs)
      | some desc =>
          match ← observe (ask .call) with
          | none => return (false, descs ++ [desc])
          | some () => threadFdAdd types (descs ++ [desc])

/-- How far a thread has got: it waits for events, or it has returned. `descs` is the list
that `thread_fd_destroy` has to go through, or has gone through. -/
inductive ThreadState
  | waiting (readBuf fdEp : Nat) (descs : List EpollDesc)
  | returned (descs : List EpollDesc)

/-- What a thread has open. -/
def ThreadState.own : ThreadState → Things Kind
  | .waiting readBuf fdEp descs =>
      (descs.map EpollDesc.own).sum + ({(.epollFd, fdEp)} + {(.readBuf, readBuf)})
  | .returned descs => (descs.map EpollDesc.left).sum

/-- What it has open in the end. -/
def ThreadState.left : ThreadState → Things Kind
  | .waiting _ _ descs => (descs.map EpollDesc.left).sum
  | .returned descs => (descs.map EpollDesc.left).sum

def ThreadState.waited : ThreadState → Bool
  | .waiting _ _ _ => true
  | .returned _ => false

/-- The end of `thread_process_interrupt`: `thread_fd_destroy` and the read buffer. -/
def threadEnd (readBuf fdEp : Nat) (descs : List EpollDesc) : World Kind → World Kind :=
  inOrder [threadFdDestroy descs fdEp, give .readBuf readBuf]

/-- `thread_process_interrupt` up to `thread_wait`, and to its end if something fails. What
it takes from the pool of the thread is given back there, and is left out. -/
def threadStart (numPorts : Nat) : Attempt Kind ThreadState := do
  -- the tables
  match ← observe (ask .call) with
  | none => return .returned []
  | some () =>
      match ← observe (take .readBuf) with
      | none => return .returned []
      | some readBuf =>
          match ← observe (take .epollFd) with
          | none =>
              perform (give .readBuf readBuf)
              return .returned []
          | some fdEp =>
              let (prepared, descs) ← threadFdAdd (threadFds numPorts) []
              if prepared then return .waiting readBuf fdEp descs
              perform (threadEnd readBuf fdEp descs)
              return .returned descs

/-- The rest of `thread_process_interrupt`, once `thread_wait` has returned. -/
def ThreadState.stop : ThreadState → World Kind → World Kind
  | .waiting readBuf fdEp descs => threadEnd readBuf fdEp descs
  | .returned _ => id

/-- `thread_process_interrupt`, as far as it opens and closes things; the result is how far
it got. -/
def threadFiles (numPorts : Nat) : Attempt Kind ThreadState := do
  let state ← threadStart numPorts
  perform state.stop
  return state

theorem takeName_gets (kind : Kind) : Gets terms 0 (take kind) (fun name => {(kind, name)}) 0 0 :=
  (Gets.take kind 0).post_eq fun _ => add_zero _

theorem EpollType.alloc_gets (type : EpollType) : Gets terms 0 type.alloc EpollDesc.own 0 0 := by
  cases type with
  | irqRx => exact (takeName_gets _).andThen fun desc => Gets.pure rfl
  | irqTx => exact (takeName_gets _).andThen fun desc => Gets.pure rfl
  | tun => exact (takeName_gets _).andThen fun desc => Gets.pure rfl
  | signal =>
      exact Gets.takeGuard fun desc => (Gets.take _ _).andThen fun fd => Gets.pure (by simp [EpollDesc.own])
  | netlink =>
      refine Gets.takeGuard fun desc => Gets.takeGuard fun fd => (Gets.ask _ _).andThen fun _ => ?_
      exact Gets.pure (by simp [EpollDesc.own])

theorem epollDelete_undoes (desc : EpollDesc) : Undoes granted (epollDelete desc) desc.own desc.left := by
  refine (Undoes.regardless (Gets.ask _ _)).cons (Undoes.cons ?_ (Undoes.nil _))
  cases desc with
  | irqRx desc => exact Undoes.giveLast _ _
  | irqTx desc => exact Undoes.giveLast _ _
  | tun desc => exact Undoes.giveLast _ _
  | signal desc fd => exact (Undoes.give _ _ _).cons ((Undoes.giveLast _ _).cons (Undoes.nil _))
  | netlink desc fd => exact Undoes.nil _

theorem threadEnd_undoes (readBuf fdEp : Nat) (descs : List EpollDesc) :
    Undoes granted (threadEnd readBuf fdEp descs) (ThreadState.waiting readBuf fdEp descs).own
      (descs.map EpollDesc.left).sum := by
  have destroyed : Undoes granted (threadFdDestroy descs fdEp)
      ((descs.map EpollDesc.own).sum + ({(.epollFd, fdEp)} + {(.readBuf, readBuf)}))
      ({(.readBuf, readBuf)} + (descs.map EpollDesc.left).sum) := by
    refine ((Undoes.releaseKeeping epollDelete_undoes descs).beside _).cons (Undoes.cons ?_ (Undoes.nil _))
    have same : (descs.map EpollDesc.left).sum + ({(.epollFd, fdEp)} + {(.readBuf, readBuf)}) =
        {(Kind.epollFd, fdEp)} + ({(.readBuf, readBuf)} + (descs.map EpollDesc.left).sum) := by abel
    rw [same]
    exact Undoes.give _ _ _
  exact destroyed.cons ((Undoes.give _ _ _).cons (Undoes.nil _))

theorem ThreadState.stop_undoes (state : ThreadState) : Undoes granted state.stop state.own state.left := by
  cases state with
  | waiting readBuf fdEp descs => exact threadEnd_undoes readBuf fdEp descs
  | returned descs => exact Undoes.nil _

/-- The list grows by one descriptor after the other; the invariant is that all of it is
held. -/
theorem threadFdAdd_gets (types : List EpollType) (descs : List EpollDesc) (pre fail : Things Kind) :
    Gets terms ((descs.map EpollDesc.own).sum + pre) (threadFdAdd types descs)
      (fun made => (made.2.map EpollDesc.own).sum + pre) fail 0 := by
  induction types generalizing descs with
  | nil => exact Gets.pure rfl
  | cons type types ih =>
      refine ((type.alloc_gets.frame _).observe fail).andThen fun made => ?_
      cases made with
      | none => exact Gets.pure rfl
      | some desc =>
          have more : desc.own + ((descs.map EpollDesc.own).sum + pre) =
              ((descs ++ [desc]).map EpollDesc.own).sum + pre := by
            simp only [List.map_append, List.sum_append, List.map_singleton, List.sum_singleton]
            abel
          dsimp only [Option.elim]
          rw [more]
          refine ((Gets.ask _ _).observe fail).andThen fun added => ?_
          cases added with
          | none => exact Gets.pure rfl
          | some _ => exact ih (descs ++ [desc])

theorem threadStart_gets (numPorts : Nat) (pre fail : Things Kind) :
    Gets terms pre (threadStart numPorts) (fun state => state.own + pre) fail 0 := by
  have nothing : pre = (ThreadState.returned []).own + pre := by simp [ThreadState.own]
  refine ((Gets.ask _ _).observe fail).andThen fun tables => ?_
  cases tables with
  | none => exact Gets.pure nothing
  | some _ =>
      refine ((Gets.take _ _).observe fail).andThen fun readBuf => ?_
      cases readBuf with
      | none => exact Gets.pure nothing
      | some readBuf =>
          refine ((Gets.take _ _).observe fail).andThen fun fdEp => ?_
          cases fdEp with
          | none => exact (Gets.perform (Undoes.give _ _ _) fail).andThen fun _ => Gets.pure nothing
          | some fdEp =>
              have added := @threadFdAdd_gets terms (threadFds numPorts) []
                ({(.epollFd, fdEp)} + ({(.readBuf, readBuf)} + pre)) fail
              rw [List.map_nil, List.sum_nil, zero_add] at added
              refine added.andThen fun made => ?_
              obtain ⟨prepared, descs⟩ := made
              have all : (descs.map EpollDesc.own).sum + ({(.epollFd, fdEp)} + ({(.readBuf, readBuf)} + pre)) =
                  (ThreadState.waiting readBuf fdEp descs).own + pre := by
                simp only [ThreadState.own]
                abel
              dsimp only
              rw [all]
              cases prepared with
              | true => exact Gets.pure rfl
              | false =>
                  refine (Gets.perform ((threadEnd_undoes readBuf fdEp descs).beside pre) fail).andThen fun _ => ?_
                  exact Gets.pure rfl

/-! ## What is left of a thread -/

/-- What `thread_fd_destroy` leaves of a descriptor. -/
def EpollType.left : EpollType → Multiset Kind
  | .netlink => {Kind.netlinkFd} + {Kind.netlinkDesc}
  | _ => 0

def netlinkLossy : Set Kind := {.netlinkFd, .netlinkDesc}

theorem EpollDesc.left_kinds (desc : EpollDesc) : desc.left.map Prod.fst = desc.type.left := by
  cases desc with
  | netlink desc fd => simp [EpollDesc.left, EpollDesc.own, EpollDesc.type, EpollType.left]
  | _ => rfl

theorem left_kinds (descs : List EpollDesc) :
    ((descs.map EpollDesc.left).sum).map Prod.fst = ((descs.map EpollDesc.type).map EpollType.left).sum := by
  induction descs with
  | nil => rfl
  | cons desc descs ih =>
      simp only [List.map_cons, List.sum_cons, Multiset.map_add, desc.left_kinds, ih]

theorem threadFds_left (numPorts : Nat) :
    ((threadFds numPorts).map EpollType.left).sum = {Kind.netlinkFd} + {Kind.netlinkDesc} := by
  simp [threadFds, EpollType.left]

theorem EpollType.alloc_yields (type : EpollType) : Yields type.alloc fun desc => desc.type = type := by
  cases type with
  | irqRx => exact Yields.after fun desc => Yields.pure rfl
  | irqTx => exact Yields.after fun desc => Yields.pure rfl
  | tun => exact Yields.after fun desc => Yields.pure rfl
  | signal =>
      refine Yields.after fun desc => Yields.onError (Yields.after fun fd => ?_)
      exact Yields.pure rfl
  | netlink =>
      refine Yields.after fun desc => Yields.onError (Yields.after fun fd => Yields.onError (Yields.after fun _ => ?_))
      exact Yields.pure rfl

/-- The list is a beginning of what was to be made, and all of it if nothing failed. -/
theorem threadFdAdd_yields (types : List EpollType) (descs : List EpollDesc) :
    Yields (threadFdAdd types descs) fun made =>
      made.2.map EpollDesc.type <+: descs.map EpollDesc.type ++ types ∧
        (made.1 = true → made.2.map EpollDesc.type = descs.map EpollDesc.type ++ types) := by
  induction types generalizing descs with
  | nil =>
      rw [List.append_nil]
      exact Yields.pure ⟨List.prefix_rfl, fun _ => rfl⟩
  | cons type types ih =>
      refine type.alloc_yields.observe.bind fun made is => ?_
      cases made with
      | none => exact Yields.pure ⟨List.prefix_append _ _, fun wrong => by cases wrong⟩
      | some desc =>
          have more : descs.map EpollDesc.type ++ type :: types = (descs ++ [desc]).map EpollDesc.type ++ types := by
            rw [List.map_append, List.map_singleton, is desc rfl, List.append_assoc, List.singleton_append]
          rw [more]
          refine Yields.after fun added => ?_
          cases added with
          | none => exact Yields.pure ⟨List.prefix_append _ _, fun wrong => by cases wrong⟩
          | some _ => exact ih (descs ++ [desc])

/-- The descriptors of a state are those that `thread_fd_prepare` makes, or the first of
them. -/
def ThreadState.Formed (numPorts : Nat) : ThreadState → Prop
  | .waiting _ _ descs => descs.map EpollDesc.type = threadFds numPorts
  | .returned descs => descs.map EpollDesc.type <+: threadFds numPorts

theorem threadStart_yields (numPorts : Nat) : Yields (threadStart numPorts) (ThreadState.Formed numPorts) := by
  have none : (ThreadState.returned []).Formed numPorts := List.nil_prefix
  refine Yields.after fun tables => ?_
  cases tables with
  | none => exact Yields.pure none
  | some _ =>
      refine Yields.after fun readBuf => ?_
      cases readBuf with
      | none => exact Yields.pure none
      | some readBuf =>
          refine Yields.after fun fdEp => ?_
          cases fdEp with
          | none => exact Yields.after fun _ => Yields.pure none
          | some fdEp =>
              refine (threadFdAdd_yields (threadFds numPorts) []).bind fun made is => ?_
              obtain ⟨prepared, descs⟩ := made
              cases prepared with
              | true => exact Yields.pure (is.2 rfl)
              | false => exact Yields.after fun _ => Yields.pure is.1

section Left

variable {numPorts : Nat} {state : ThreadState}

/-- A thread leaves at most a netlink socket and its descriptor. -/
theorem ThreadState.Formed.left_le (formed : state.Formed numPorts) :
    state.left.map Prod.fst ≤ {Kind.netlinkFd} + {Kind.netlinkDesc} := by
  have first : ∀ descs : List EpollDesc, descs.map EpollDesc.type <+: threadFds numPorts →
      ((descs.map EpollDesc.left).sum).map Prod.fst ≤ {Kind.netlinkFd} + {Kind.netlinkDesc} := by
    rintro descs ⟨others, all⟩
    rw [left_kinds, ← threadFds_left numPorts, ← all, List.map_append, List.sum_append]
    exact Multiset.le_add_right _ _
  cases state with
  | waiting readBuf fdEp descs =>
      have types : descs.map EpollDesc.type = threadFds numPorts := formed
      exact first descs (types ▸ List.prefix_rfl)
  | returned descs => exact first descs formed

/-- A thread that waited for events leaves both. -/
theorem ThreadState.Formed.left_eq (formed : state.Formed numPorts) (waited : state.waited = true) :
    state.left.map Prod.fst = {Kind.netlinkFd} + {Kind.netlinkDesc} := by
  cases state with
  | waiting readBuf fdEp descs =>
      have types : descs.map EpollDesc.type = threadFds numPorts := formed
      rw [ThreadState.left, left_kinds, types, threadFds_left]
  | returned descs => cases waited

end Left

theorem threadFdAdd_certain (types : List EpollType) (descs : List EpollDesc) : Certain (threadFdAdd types descs) := by
  induction types generalizing descs with
  | nil => exact Certain.pure _
  | cons type types ih =>
      refine (Certain.observe _).bind fun made => ?_
      cases made with
      | none => exact Certain.pure _
      | some desc =>
          refine (Certain.observe _).bind fun added => ?_
          cases added with
          | none => exact Certain.pure _
          | some _ => exact ih _

theorem threadStart_certain (numPorts : Nat) : Certain (threadStart numPorts) := by
  refine (Certain.observe _).bind fun tables => ?_
  cases tables with
  | none => exact Certain.pure _
  | some _ =>
      refine (Certain.observe _).bind fun readBuf => ?_
      cases readBuf with
      | none => exact Certain.pure _
      | some readBuf =>
          refine (Certain.observe _).bind fun fdEp => ?_
          cases fdEp with
          | none => exact (Certain.perform _).bind fun _ => Certain.pure _
          | some fdEp =>
              refine (threadFdAdd_certain _ _).bind fun made => ?_
              obtain ⟨prepared, descs⟩ := made
              cases prepared with
              | true => exact Certain.pure _
              | false => exact (Certain.perform _).bind fun _ => Certain.pure _

theorem threadFiles_gets (numPorts : Nat) : Gets terms 0 (threadFiles numPorts) ThreadState.left 0 0 := by
  refine (threadStart_gets numPorts 0 0).andThen fun state => ?_
  rw [add_zero]
  exact (Gets.perform state.stop_undoes 0).andThen fun _ => Gets.pure rfl

/-- **What a thread leaves open.** Whatever is refused, a thread closes and frees nothing
that it does not hold. On return it has what it had before and at most one netlink socket
and its descriptor more; exactly these, if it had got as far as waiting for events. -/
theorem thread_files (numPorts : Nat) (w : World Kind) :
    ∃ state, (threadFiles numPorts w).1 = some state ∧ (threadFiles numPorts w).2.wrong = w.wrong ∧
      ∃ left, (threadFiles numPorts w).2.held = left + w.held ∧
        left.map Prod.fst ≤ {Kind.netlinkFd} + {Kind.netlinkDesc} ∧
        (state.waited = true → left.map Prod.fst = {Kind.netlinkFd} + {Kind.netlinkDesc}) := by
  have formed : Yields (threadFiles numPorts) (ThreadState.Formed numPorts) :=
    (threadStart_yields numPorts).bind fun _ formed => Yields.after fun _ => Yields.pure formed
  have returns : Certain (threadFiles numPorts) :=
    (threadStart_certain numPorts).bind fun _ => (Certain.perform _).bind fun _ => Certain.pure _
  have gets : Gets ⟨∅, ∅⟩ 0 (threadFiles numPorts) ThreadState.left 0 0 := threadFiles_gets numPorts
  obtain ⟨state, w', run⟩ := returns w
  obtain ⟨wrong, left, held, -, none⟩ := gets.outcome w (by simp)
  rw [run] at wrong held none ⊢
  obtain rfl : left = 0 := by simpa using none rfl
  have formed := formed w w' state run
  exact ⟨state, rfl, wrong, state.left, by simpa using held, formed.left_le, formed.left_eq⟩

/-! ## Threads and devices -/

structure UfpdThread where
  buf : UfpBuf
  plane : UfpPlane
  tid : Nat
  state : ThreadState

def UfpdThread.own (thread : UfpdThread) : Things Kind :=
  thread.state.own + ({(.thread, thread.tid)} + (thread.plane.own + thread.buf.own))

/-- `ufpd_thread_create`. The results of `pthread_create` and `pthread_setaffinity_np` are
compared with 0 the wrong way round, so that neither failure is seen. -/
def ufpdThreadCreate (numPorts : Nat) : Attempt Kind UfpdThread := do
  let buf ← ufpAllocBuf
  onError (ufpReleaseBuf buf) do
    let plane ← ufpPlaneAlloc numPorts
    onError (ufpPlaneRelease plane) do
      let tid ← takeUnchecked .thread
      let state ← threadStart numPorts
      return { buf, plane, tid, state }

/-- `ufpd_thread_kill`; the thread has come to its end when `pthread_join` returns. -/
def ufpdThreadKill (thread : UfpdThread) : World Kind → World Kind :=
  inOrder [thread.state.stop, give .thread thread.tid, ufpPlaneRelease thread.plane, ufpReleaseBuf thread.buf]

theorem ufpdThreadKill_undoes (thread : UfpdThread) :
    Undoes granted (ufpdThreadKill thread) thread.own thread.state.left := by
  have same : thread.state.left + ({(.thread, thread.tid)} + (thread.plane.own + thread.buf.own)) =
      {(Kind.thread, thread.tid)} + (thread.plane.own + (thread.buf.own + thread.state.left)) := by abel
  refine (thread.state.stop_undoes.beside _).cons ?_
  rw [same]
  refine (Undoes.give _ _ _).cons (((ufpPlaneRelease_undoes _).frame _).cons ?_)
  exact ((ufpReleaseBuf_undoes _).frame _).cons (Undoes.nil _)

theorem ufpdThreadCreate_gets (sure : Kind.thread ∈ terms.granted) (numPorts : Nat) :
    Gets terms 0 (ufpdThreadCreate numPorts) UfpdThread.own 0 0 := by
  refine Gets.guard ufpAllocBuf_gets ufpReleaseBuf_undoes fun buf => ?_
  refine Gets.guard (ufpPlaneAlloc_gets numPorts) ufpPlaneRelease_undoes fun plane => ?_
  refine (Gets.takeUnchecked sure _ _).andThen fun tid => (threadStart_gets numPorts _ _).andThen fun state => ?_
  exact Gets.pure (by simp [UfpdThread.own])

theorem ufpdThreadCreate_yields (numPorts : Nat) :
    Yields (ufpdThreadCreate numPorts) fun thread => thread.state.Formed numPorts := by
  refine Yields.after fun buf => Yields.onError (Yields.after fun plane => Yields.onError ?_)
  exact Yields.after fun tid => (threadStart_yields numPorts).bind fun state formed => Yields.pure formed

/-- A thread that could not be created is joined. -/
example : (let (thread, w) := ufpdThreadCreate 1 ⟨fun kind _ => decide (kind ≠ .thread), 0, 0, false⟩
    thread.map fun thread => (ufpdThreadKill thread w).wrong) = some true := by decide +kernel

section Devices

variable {ε σ τ : Type} (drv : Driver terms ε σ τ)

structure UfpdDevice (σ τ : Type) where
  dev : UfpDev σ τ
  up : UfpUp

def UfpdDevice.own (device : UfpdDevice σ τ) : Things Kind := device.up.own + device.dev.own drv

/-- `ufpd_device_init`. -/
def ufpdDeviceInit (numQps vectors : Nat) (found : Found ε) : Attempt Kind (UfpdDevice σ τ) := do
  let dev ← ufpOpen drv found
  onError (ufpClose drv dev) do
    let up ← ufpUp drv 1 numQps vectors
    return { dev, up }

/-- `ufpd_device_destroy`. -/
def ufpdDeviceDestroy (device : UfpdDevice σ τ) : World Kind → World Kind :=
  inOrder [ufpDown drv device.up, ufpClose drv device.dev]

theorem ufpdDeviceDestroy_undoes (device : UfpdDevice σ τ) :
    Undoes terms.granted (ufpdDeviceDestroy drv device) (device.own drv) 0 :=
  ((ufpDown_undoes drv _).frame _).cons ((ufpClose_undoes drv _).cons (Undoes.nil _))

theorem ufpdDeviceInit_gets (up : upLossy ⊆ terms.lossy) (bar : Kind.bar ∈ terms.lossy) (numQps vectors : Nat)
    (found : Found ε) : Gets terms 0 (ufpdDeviceInit drv numQps vectors found) (UfpdDevice.own drv) 0
      (vectors • {Kind.irqEntry} + drv.lost found.device) := by
  refine Gets.guardLosing (ufpOpen_gets drv bar found) (ufpClose_undoes drv) fun dev => ?_
  exact ((ufpUp_gets drv up 1 numQps vectors).frame _).thenFree fun up => Gets.pure (by simp [UfpdDevice.own])

end Devices

/-! ## The daemon -/

/-- What `main` was told and what it finds: the numbers of devices and threads, and for each
device its surroundings and the interrupt vectors it has. -/
structure Setup where
  numDevices : Nat
  numThreads : Nat
  found : Nat → Found Nic
  vectors : Nat → Nat
  byRegister : Bool

/-- `ufpd_parse_args`, around the reading of the options. -/
def ufpdParseArgs : Attempt Kind Unit := do
  let argbuf ← collect (fun _ => take .argbuf) (give .argbuf) 128
  always (releaseAll (give .argbuf) argbuf) (ask .call)

/-- Threads can be created; anything else may be refused. -/
def daemonTerms : Terms Kind := ⟨{.thread}, deviceLossy ∪ netlinkLossy⟩

theorem openLossy_daemon : openLossy ⊆ daemonTerms.lossy := openLossy_subset.trans Set.subset_union_left

def daemonDriver (byRegister : Bool) : Driver daemonTerms Nic Nat I40eOpen :=
  i40eDriver openLossy_daemon byRegister

/-- `main`; it has a result if it came to `sigwait`, namely how far each thread has got. -/
def main (setup : Setup) : Attempt Kind (List ThreadState) := do
  let ifnames ← collect (fun _ => take .ifname) (give .ifname) 64
  always (releaseAll (give .ifname) ifnames) do
    ufpdParseArgs
    -- `ufpd_set_mempolicy`
    ask .call
    let devs ← take .devs
    always (give .devs devs) do
      let mpools ← take .mpools
      always (give .mpools mpools) do
        let threads ← take .threads
        always (give .threads threads) do
          let pools ← collect (fun _ => ufpMpoolInit) ufpMpoolDestroy setup.numThreads
          always (releaseAll ufpMpoolDestroy pools) do
            let drv := daemonDriver setup.byRegister
            let devices ← collect (fun i => ufpdDeviceInit drv setup.numThreads (setup.vectors i) (setup.found i))
              (ufpdDeviceDestroy drv) setup.numDevices
            always (releaseAll (ufpdDeviceDestroy drv) devices) do
              -- `ufpd_set_signal`
              times (ask .call) 5
              let running ← collect (fun _ => ufpdThreadCreate setup.numDevices) ufpdThreadKill setup.numThreads
              perform (releaseAll ufpdThreadKill running)
              return running.map UfpdThread.state

/-- What a run that comes to `sigwait` costs for good, besides what the threads leave. -/
def Setup.lost (setup : Setup) : Multiset Kind :=
  ((List.range setup.numDevices).map fun i =>
    setup.vectors i • {Kind.irqEntry} + openLost (setup.found i).device).sum

theorem ufpdParseArgs_gets (pre : Things Kind) : Gets terms pre ufpdParseArgs (fun _ => pre) pre 0 := by
  refine Gets.scope (Gets.collectFree (takeName_gets _) (fun _ => Undoes.giveLast _ _) 128) ?_ fun _ => Gets.ask _ _
  exact Undoes.giveAll Kind.argbuf

theorem left_lossy (state : ThreadState) : ∀ thing ∈ state.left, thing.1 ∈ netlinkLossy := by
  have one : ∀ desc : EpollDesc, ∀ thing ∈ desc.left, thing.1 ∈ netlinkLossy := by
    intro desc thing mem
    cases desc with
    | netlink desc fd =>
        simp only [EpollDesc.left, EpollDesc.own, Multiset.mem_add, Multiset.mem_singleton] at mem
        rcases mem with rfl | rfl
        · exact .inl rfl
        · exact .inr rfl
    | _ => simp [EpollDesc.left] at mem
  have all : ∀ descs : List EpollDesc, ∀ thing ∈ (descs.map EpollDesc.left).sum, thing.1 ∈ netlinkLossy := by
    intro descs thing mem
    obtain ⟨desc, -, mem⟩ := mem_sum_map mem
    exact one desc thing mem
  cases state with
  | waiting readBuf fdEp descs => exact all descs
  | returned descs => exact all descs

theorem main_gets (setup : Setup) : Gets daemonTerms 0 (main setup)
    (fun states => (states.map ThreadState.left).sum) 0 setup.lost := by
  refine Gets.scope (Gets.collectFree (takeName_gets _) (fun _ => Undoes.giveLast _ _) 64) (Undoes.giveAll Kind.ifname)
    fun ifnames => ?_
  refine (ufpdParseArgs_gets _).andThen fun _ => (Gets.ask _ _).andThen fun _ => ?_
  refine Gets.takeScope fun devs => Gets.takeScope fun mpools => Gets.takeScope fun threads => ?_
  refine Gets.scope (Gets.collectFree ufpMpoolInit_gets ufpMpoolDestroy_undoes _)
    (Undoes.releaseAll ufpMpoolDestroy_undoes) fun pools => ?_
  have devices := Gets.collect
    (fun i => ufpdDeviceInit_gets (daemonDriver setup.byRegister) (fun _ mem => .inl (.inl (.inl mem)))
      (.inl (.inr rfl)) setup.numThreads (setup.vectors i) (setup.found i))
    (ufpdDeviceDestroy_undoes (daemonDriver setup.byRegister)) setup.numDevices
  rw [← zero_add setup.lost]
  refine Gets.scopeLosing devices (Undoes.releaseAll (ufpdDeviceDestroy_undoes _)) fun devices => ?_
  refine ((Gets.ask _ _).times 5).andThen fun _ => ?_
  have sure : Kind.thread ∈ daemonTerms.granted := rfl
  have created := Gets.collectKeeping (fun _ => ufpdThreadCreate_gets sure setup.numDevices) ufpdThreadKill_undoes
    (fun thread thing mem => .inr (left_lossy thread.state thing mem)) setup.numThreads
  simp only [List.map_const', List.sum_replicate, nsmul_zero] at created
  refine (created.frame _).andThen fun running => ?_
  refine (Gets.perform ((Undoes.releaseKeeping ufpdThreadKill_undoes running).beside _) _).andThen fun _ => ?_
  refine Gets.pure ?_
  rw [List.map_map]
  simp only [Function.comp_def]
  abel

theorem main_yields (setup : Setup) : Yields (main setup) fun states =>
    states.length = setup.numThreads ∧ ∀ state ∈ states, state.Formed setup.numDevices := by
  refine Yields.after fun _ => Yields.always (Yields.after fun _ => Yields.after fun _ => Yields.after fun _ => ?_)
  refine Yields.always (Yields.after fun _ => Yields.always (Yields.after fun _ => Yields.always ?_))
  refine Yields.after fun _ => Yields.always (Yields.after fun _ => Yields.always (Yields.after fun _ => ?_))
  refine (Yields.collect (fun _ => ufpdThreadCreate_yields setup.numDevices) setup.numThreads).bind
    fun running is => Yields.after fun _ => Yields.pure ⟨?_, fun state mem => ?_⟩
  · rw [List.length_map, is.1]
  · obtain ⟨thread, among, rfl⟩ := List.mem_map.mp mem
    exact is.2 thread among

/-- Each thread leaves at most a socket and its descriptor, and both if it waited. -/
theorem states_left {numPorts : Nat} {states : List ThreadState} (formed : ∀ state ∈ states, state.Formed numPorts) :
    states.countP ThreadState.waited • ({Kind.netlinkFd} + {Kind.netlinkDesc}) ≤
        ((states.map ThreadState.left).sum).map Prod.fst ∧
      ((states.map ThreadState.left).sum).map Prod.fst ≤
        states.length • ({Kind.netlinkFd} + {Kind.netlinkDesc} : Multiset Kind) := by
  induction states with
  | nil => simp
  | cons state states ih =>
      obtain ⟨one, others⟩ := List.forall_mem_cons.mp formed
      obtain ⟨least, most⟩ := ih others
      rw [List.map_cons, List.sum_cons, Multiset.map_add, List.length_cons, succ_nsmul', List.countP_cons]
      refine ⟨?_, add_le_add one.left_le most⟩
      cases waited : state.waited with
      | true =>
          rw [if_pos rfl, succ_nsmul', one.left_eq waited]
          exact add_le_add_right least _
      | false =>
          rw [if_neg (by simp), add_zero]
          exact least.trans (Multiset.le_add_left _ _)

/-- **The daemon gives back what it took.** Where threads can be created, and whatever else
is refused on the way, `main` gives nothing back that it does not hold, and when it returns
the process holds what it held before and things of the few kinds that devices and threads
leave behind. If it came to `sigwait`, these are exactly the DMA descriptors and the
interface of every device and the entries of its interrupt vectors, and besides a netlink
socket with its descriptor for every thread that waited for events, and for a thread that
did not at most these. -/
theorem daemon_life (setup : Setup) (w : World Kind) (sure : ∀ n, w.answer .thread n = true) :
    (main setup w).2.wrong = w.wrong ∧ ∃ left, (main setup w).2.held = left + w.held ∧
      (∀ thing ∈ left, thing.1 ∈ deviceLossy ∪ netlinkLossy) ∧
      ∀ states, (main setup w).1 = some states → states.length = setup.numThreads ∧
        ∃ files, left.map Prod.fst = setup.lost + files ∧
          states.countP ThreadState.waited • ({Kind.netlinkFd} + {Kind.netlinkDesc}) ≤ files ∧
          files ≤ setup.numThreads • ({Kind.netlinkFd} + {Kind.netlinkDesc}) := by
  obtain ⟨wrong, left, held, kinds, exactly⟩ := (main_gets setup).outcome w fun kind mem n => by
    rw [Set.mem_singleton_iff.mp mem]
    exact sure n
  have yields := main_yields setup w
  rcases run : main setup w with ⟨_ | states, w'⟩
  · rw [run] at wrong held
    exact ⟨wrong, left, held.trans (zero_add _), kinds, fun _ wrong => by cases wrong⟩
  · rw [run] at wrong held exactly
    obtain ⟨length, formed⟩ := yields w' states run
    refine ⟨wrong, (states.map ThreadState.left).sum + left, held.trans (add_assoc _ _ _).symm, fun thing mem => ?_,
      fun _ same => ?_⟩
    · rcases Multiset.mem_add.mp mem with threads | lost
      · obtain ⟨state, -, mem⟩ := mem_sum_map threads
        exact .inr (left_lossy state thing mem)
      · exact kinds thing lost
    · obtain rfl := Option.some.inj same
      obtain ⟨least, most⟩ := states_left formed
      rw [length] at most
      refine ⟨length, _, ?_, least, most⟩
      rw [Multiset.map_add, exactly rfl, add_comm]

/-- One device and two threads, and everything granted. -/
def sampleLife : Setup := ⟨1, 2, fun _ => ⟨false, false, ⟨true, [2, 1], true, 0⟩⟩, fun _ => 5, false⟩

theorem daemon_life_sample :
    let w : World Kind := ⟨fun _ _ => true, 0, 0, false⟩
    (∀ n, w.answer .thread n = true) ∧ (main sampleLife w).2.wrong = false ∧
      (main sampleLife w).1.map (List.map ThreadState.waited) = some [true, true] ∧
      ∃ left, (main sampleLife w).2.held = left + 0 ∧
        ∀ states, (main sampleLife w).1 = some states →
          ∃ files, left.map Prod.fst = sampleLife.lost + files ∧
            files ≤ 2 • ({Kind.netlinkFd} + {Kind.netlinkDesc} : Multiset Kind) := by
  intro w
  obtain ⟨wrong, left, held, -, exactly⟩ := daemon_life sampleLife w fun _ => rfl
  refine ⟨fun _ => rfl, wrong, by decide +kernel, left, held, fun states came => ?_⟩
  obtain ⟨-, files, all, -, most⟩ := exactly states came
  exact ⟨files, all, most⟩

end Ufp.Daemon.Life
