/-
# Ufp.Daemon.KernelView — packets are forwarded as the kernel's messages say

The whole way from the netlink socket to a packet: a thread reads route and neighbour
messages in any order, between interrupts, TAP frames and packets, and at any time an IP
packet goes where the messages so far lead. `Tables.attempt` says what one message does
to the maps of `Tables`, as the code handles it: a route whose key is stored and an
address that is bound stay as they are, whatever the message says about them, until they
are deleted. `Tables.heard` folds the messages of a run.

`decision_follows_netlink` holds between any two events of `thread_wait`, for every
packet, as long as the pool grants what the messages need. Packets for link-local
addresses of IPv6 go to the TAP device and are not looked up.
-/
import Ufp.Daemon.Decision
import Ufp.Daemon.FibFollow
import Ufp.Daemon.NetlinkCalls

namespace Ufp.Daemon

open Ufp.Lib.Io
open Ufp.Theory (Pool)

set_option autoImplicit false

/-! ## Messages -/

/-- What a message says. -/
inductive News where
  | route (news : RouteNews)
  | neigh (news : NeighNews)
  | ignored

/-- A well-formed message that says `news`. -/
def Msg.Tells (m : Msg) : News → Prop
  | .route news => m.IsRoute news
  | .neigh news => m.IsNeigh news
  | .ignored => m.Ok ∧ ∀ type ∈ [rtmNewroute, rtmDelroute, rtmNewneigh, rtmDelneigh], m.type ≠ type

theorem Msg.Tells.ok {m : Msg} {news : News} (tells : m.Tells news) : m.Ok := by
  cases news with
  | route news => exact Msg.IsRoute.ok tells
  | neigh news => exact Msg.IsNeigh.ok tells
  | ignored => exact tells.1

/-- The call a message leads to, given the interface numbers of the thread's ports. -/
def News.call (thread : UfpdThread) : News → Option TableCall
  | .route news =>
      if news.new then some (.routeUpdate (news.route thread))
      else some (.routeDelete news.family (news.route thread).toKey)
  | .neigh news =>
      (thread.portOf news.ifindex).map fun port =>
        match news.lladdr with
        | some mac => .neighAdd news.family port (bytesAt news.dst) (bytesAt mac)
        | none => .neighDelete news.family port (bytesAt news.dst)
  | .ignored => none

section Wire

variable {m : Msg} (rest : List UInt8) (thread : UfpdThread)

theorem routeIn_encode {news : RouteNews} (formed : m.IsRoute news) :
    routeIn thread (m.encode ++ rest) = news.route thread := by
  obtain ⟨first, second, fifth⟩ := formed.header rest
  unfold routeIn RouteNews.route
  simp only [first, second, fifth, encode_drop_body formed.ok, rtmPayload_encode formed.ok,
    routeAttr_fold formed rest]

theorem netlinkCall_route {news : RouteNews} (formed : m.IsRoute news) :
    netlinkCall thread (m.encode ++ rest) = (News.route news).call thread := by
  have type := (nlmsgType_encode formed.ok rest).trans formed.type
  dsimp only [netlinkCall, News.call]
  rw [type, routeIn_encode rest thread formed]
  cases news.new with
  | true =>
      simp only [if_true]
  | false =>
      simp only [Bool.false_eq_true, if_false, if_true]
      exact if_neg (by decide)

theorem netlinkCall_neigh {news : NeighNews} (formed : m.IsNeigh news) :
    netlinkCall thread (m.encode ++ rest) = (News.neigh news).call thread := by
  have type := (nlmsgType_encode formed.ok rest).trans formed.type
  obtain ⟨first, index⟩ := formed.header rest
  obtain ⟨dst, mac⟩ := neighAttr_fold formed rest
  dsimp only [netlinkCall, News.call]
  rw [index, type]
  cases told : news.lladdr with
  | none =>
      simp only [Option.isSome_none, Bool.false_eq_true, if_false, or_true, if_true]
      refine (if_neg (by decide)).trans ((if_neg (by decide)).trans ?_)
      refine congrArg (fun f => Option.map f _) (funext fun port => ?_)
      unfold neighIn
      simp only [type, told, first, encode_drop_body formed.ok, rtmPayload_encode formed.ok, dst]
      exact if_neg (by decide)
  | some lladdr =>
      simp only [Option.isSome_some, if_true, true_or]
      refine (if_neg (by decide)).trans ((if_neg (by decide)).trans ?_)
      refine congrArg (fun f => Option.map f _) (funext fun port => ?_)
      unfold neighIn
      simp only [type, told, first, encode_drop_body formed.ok, rtmPayload_encode formed.ok, dst, mac lladdr told]
      exact if_pos rfl

/-- A message that says something leads to the call it asks for. -/
theorem netlinkCall_encode {news : News} (tells : m.Tells news) :
    netlinkCall thread (m.encode ++ rest) = news.call thread := by
  cases news with
  | route news => exact netlinkCall_route rest thread tells
  | neigh news => exact netlinkCall_neigh rest thread tells
  | ignored =>
      obtain ⟨ok, others⟩ := tells
      unfold netlinkCall
      rw [nlmsgType_encode ok rest, if_neg (others _ (by simp)), if_neg (others _ (by simp)),
        if_neg (not_or.mpr ⟨others _ (by simp), others _ (by simp)⟩)]
      rfl

variable {C : UfpdThread → TableCall → Prop}

/-- A condition on the calls of a read is one on the call of its first message and on
those of the messages after it. -/
theorem readAlong_cons (ok : m.Ok) :
    ReadAlong C thread (m.encode ++ rest) (m.encode ++ rest).length ↔
      (∀ c, netlinkCall thread (m.encode ++ rest) = some c → C thread c) ∧
        ReadAlong C (netlinkMessage thread (m.encode ++ rest)) rest rest.length := by
  rw [ReadAlong, dif_pos (nlmsgOk_encode ok rest), nlAlign_encode ok, List.length_append, Nat.add_sub_cancel_left,
    List.drop_left]

/-- The same for a message that asks for a call. -/
theorem readAlong_told {news : News} {c : TableCall} (tells : m.Tells news) (asks : news.call thread = some c)
    (meets : C thread c) (later : ReadAlong C (thread.call c).2 rest rest.length) :
    ReadAlong C thread (m.encode ++ rest) (m.encode ++ rest).length := by
  have asked := (netlinkCall_encode rest thread tells).trans asks
  refine (readAlong_cons rest thread tells.ok).mpr ⟨fun d same => ?_, ?_⟩
  · obtain rfl := Option.some.inj (asked.symm.trans same)
    exact meets
  · rw [netlinkMessage_eq, asked]
    exact later

theorem readAlong_nil : ReadAlong C thread [] 0 := by
  rw [ReadAlong, dif_neg]
  · trivial
  · rw [nlmsgOk_iff]
    omega

end Wire

/-! ## What a call does, whether it succeeds or not -/

namespace Tables

/-- A call that the pool does not refuse. A key that is stored and an address that is
bound are left alone, whatever comes with them. -/
def attempt (tables : Tables) (c : TableCall) : Tables :=
  match c with
  | .routeUpdate r =>
      if r.family = .other ∨ ∃ s ∈ tables.routes r.family, s.Same r.toKey then tables else tables.call c
  | .routeDelete _ _ => tables.call c
  | .neighAdd family port dst _ =>
      if family = .other ∨ tables.macs family port dst ≠ none then tables else tables.call c
  | .neighDelete _ _ _ => tables.call c

/-- The tables after what the messages of a run have said, on the ports of `start`. -/
def heard (tables : Tables) (start : UfpdThread) (history : List News) : Tables :=
  history.foldl (fun tables news => (news.call start).elim tables tables.attempt) tables

theorem heard_append (tables : Tables) (start : UfpdThread) (earlier later : List News) :
    tables.heard start (earlier ++ later) = (tables.heard start earlier).heard start later :=
  List.foldl_append

end Tables

namespace UfpdThread

theorem fib_none {thread : UfpdThread} {family : Family} (absent : thread.fib family = none) : family = .other := by
  cases family with
  | inet => cases absent
  | inet6 => cases absent
  | other => rfl

theorem neigh_none {thread : UfpdThread} {port : Nat} {family : Family} (absent : thread.neigh port family = none) :
    family = .other := by
  cases family with
  | inet => cases absent
  | inet6 => cases absent
  | other => rfl

section Attempt

variable {numPorts : Nat} {thread : UfpdThread} {tables : Tables} (holds : TablesHold numPorts thread tables)

include holds

/-- `fib_route_update`: the key is stored, or the route is new. -/
theorem TablesHold.attempt_update {r : Route} (inside : r.portIndex < numPorts)
    (granted : (thread.call (.routeUpdate r)).2.heap.pool.refused = false) :
    TablesHold numPorts (thread.call (.routeUpdate r)).2 (tables.attempt (.routeUpdate r)) := by
  cases here : thread.fib r.family with
  | none =>
      have other := fib_none here
      simp only [UfpdThread.call, Tables.attempt, other, true_or, if_true]
      exact holds
  | some fib =>
      have known : r.family ≠ .other := by
        intro other
        rw [other] at here
        cases here
      have whole : tables.attempt (.routeUpdate r) =
          { tables with routes := Function.update tables.routes r.family ((tables.routes r.family).update r).2 } := by
        by_cases present : ∃ s ∈ tables.routes r.family, s.Same r.toKey
        · rw [Routes.update, if_pos present, Function.update_eq_self]
          exact if_pos (.inr present)
        · rw [Routes.update, if_neg present]
          exact if_neg (not_or.mpr ⟨known, present⟩)
      have frame : ∀ fib' heap, (thread.setFib r.family fib' heap).heap = heap := by
        intro fib' heap
        cases family : r.family with
        | inet => rfl
        | inet6 => rfl
        | other => exact absurd family known
      simp only [UfpdThread.call, here] at granted ⊢
      rw [frame] at granted
      rw [whole]
      refine holds.setFib here (fun s member => ?_) fun {stored restB restL} ok same => ?_
      · unfold Routes.update at member
        split_ifs at member with present
        · exact holds.routes _ s member
        · rcases List.mem_cons.mp member with rfl | old
          · exact ⟨rfl, inside⟩
          · exact holds.routes _ s old
      · obtain ⟨stored', ok', keeps, both, -⟩ := @FibOk.call ⟨fib, thread.heap⟩ _ _ _ ok (.update r) known granted
        exact ⟨stored', ok', keeps, same ▸ congrArg Prod.snd both⟩

/-- `fib_route_delete`: with or without a route to delete. -/
theorem TablesHold.attempt_delete (family : Family) (k : Key) :
    TablesHold numPorts (thread.call (.routeDelete family k)).2 (tables.call (.routeDelete family k)) := by
  cases ran : thread.call (.routeDelete family k) with
  | mk ret thread' =>
      cases ret with
      | true => exact holds.call trivial ran
      | false =>
          cases here : thread.fib family with
          | none =>
              obtain rfl := fib_none here
              obtain rfl : thread' = thread := (Prod.mk.inj ran).2.symm
              refine ⟨holds.ports, holds.fibs, fun family r member => ?_, holds.neighs⟩
              dsimp only [Tables.call] at member
              by_cases other : family = .other
              · subst other
                rw [Function.update_self] at member
                exact holds.routes _ r (List.mem_filter.mp member).1
              · rw [Function.update_of_ne other] at member
                exact holds.routes _ r member
          | some fib =>
              simp only [UfpdThread.call, here] at ran
              obtain ⟨ret, rfl⟩ := Prod.mk.inj ran
              refine holds.setFib here (fun s member => ?_) fun {stored restB restL} ok same => ?_
              · exact holds.routes family s (List.mem_filter.mp member).1
              · have absent : Absent stored k := by
                  by_contra present
                  rw [(fibRouteDelete_iff ok k).mpr present] at ret
                  cases ret
                rw [fibRouteDelete_absent ok absent, ← same]
                refine ⟨stored, ok, (Heap.Step.refl _).keeps, (List.filter_eq_self.mpr ?_).symm⟩
                intro r member
                obtain ⟨s, known, rfl⟩ := List.mem_map.mp member
                exact decide_eq_true (absent s known)

/-- A neighbour table that stays as it is, whatever happens to the pool. -/
theorem TablesHold.setNeigh_same {family : Family} {port : Nat} (inside : port < numPorts) {neigh : NeighTable}
    (here : thread.neigh port family = some neigh) (dst : Bytes) {heap : Heap}
    (moved : ∀ {fib fib' stored stored'}, Shared thread.heap fib fib' stored stored' thread.neighBlocks →
      Shared heap fib fib' stored stored' thread.neighBlocks) :
    TablesHold numPorts (thread.setNeigh port family neigh heap)
      (tables.bind family port dst (tables.macs family port dst)) := by
  obtain ⟨n, size, ok, bounded, macs⟩ := holds.neigh_at inside here
  have still : (thread.setNeigh port family neigh heap).neighBlocks.Perm thread.neighBlocks := by
    have swap := @neighBlocks_setNeigh thread family port neigh neigh heap (holds.ports.symm ▸ inside) here
    exact (List.perm_append_right_iff neigh.blocks).mp (swap.trans List.perm_append_comm)
  refine holds.setNeigh size here ⟨ok, bounded, fun a => ?_⟩ macs fun {fib fib' stored stored'} both =>
    (moved both).perm still.symm
  split_ifs with equal
  · rw [ok.mac_congr equal, macs]
  · rfl

/-- `neigh_add`: the address is bound, or it is now. -/
theorem TablesHold.attempt_neighAdd {family : Family} {port : Nat} (dst mac : Bytes) (inside : port < numPorts)
    (granted : (thread.call (.neighAdd family port dst mac)).2.heap.pool.refused = false) :
    TablesHold numPorts (thread.call (.neighAdd family port dst mac)).2
      (tables.attempt (.neighAdd family port dst mac)) := by
  cases here : thread.neigh port family with
  | none =>
      obtain rfl := neigh_none here
      exact holds
  | some neigh =>
      obtain ⟨n, size, ok, bounded, macs⟩ := holds.neigh_at inside here
      have known : family ≠ .other := by
        rintro rfl
        cases size
      have bound_iff : tables.macs family port dst ≠ none ↔ neigh.mac dst ≠ none := by
        rw [← macs, ne_eq, Option.map_eq_none_iff]
      rcases neighAdd_cases ok size dst mac thread.heap with
        ⟨h', denied, run⟩ | ⟨blk, h', answer, ⟨bound, run⟩ | ⟨free, run⟩⟩
      · simp only [UfpdThread.call, here, run] at granted
        obtain ⟨pool, none, rfl⟩ := Heap.alloc_none denied
        rw [(thread.setNeigh_frame port size neigh _).2.2, (Pool.alloc_none none).2.1] at granted
        cases granted
      · have same : tables.attempt (.neighAdd family port dst mac) =
            tables.bind family port dst (tables.macs family port dst) := by
          refine (if_pos (.inr (bound_iff.mpr bound))).trans (congrArg (Tables.mk tables.routes) ?_)
          funext family' port' a
          split_ifs with about
          · obtain ⟨⟨rfl, rfl⟩, equal⟩ := about
            rw [size] at equal
            rw [← macs, ← macs, ok.mac_congr equal]
          · rfl
        rw [same]
        simp only [UfpdThread.call, here, run]
        exact holds.setNeigh_same inside here dst fun {fib fib' stored stored'} both => (both.take answer).give
      · have done : thread.call (.neighAdd family port dst mac) =
            (true, (thread.call (.neighAdd family port dst mac)).2) := by
          simp only [UfpdThread.call, here, run]
        rw [Tables.attempt, if_neg (not_or.mpr ⟨known, fun bound => bound_iff.mp bound free⟩)]
        exact holds.call inside done

/-- `neigh_delete`: the address is not bound in the end. -/
theorem TablesHold.attempt_neighDelete {family : Family} {port : Nat} (dst : Bytes) (inside : port < numPorts) :
    TablesHold numPorts (thread.call (.neighDelete family port dst)).2
      (tables.call (.neighDelete family port dst)) := by
  cases here : thread.neigh port family with
  | none =>
      obtain rfl := neigh_none here
      refine ⟨holds.ports, holds.fibs, holds.routes, fun {port' family' n} inside' size => ?_⟩
      have known : ¬ family' = .other := by
        rintro rfl
        cases size
      obtain ⟨neigh, there, ok, bounded, macs⟩ := holds.neighs inside' size
      exact ⟨neigh, there, ok, bounded, fun a => (macs a).trans (if_neg fun all => known all.1.1).symm⟩
  | some neigh =>
      obtain ⟨n, size, ok, bounded, macs⟩ := holds.neigh_at inside here
      rcases neighDelete_cases ok dst thread.heap with ⟨absent, run⟩ | ⟨target, found, run⟩
      · have free : tables.macs family port dst = none := by
          rw [← macs, ok.mac_none.mpr absent]
          rfl
        simp only [UfpdThread.call, here, run]
        rw [Tables.call, ← free]
        exact holds.setNeigh_same inside here dst fun {fib fib' stored stored'} both => both
      · have done : thread.call (.neighDelete family port dst) =
            (true, (thread.call (.neighDelete family port dst)).2) := by
          simp only [UfpdThread.call, here, run]
        exact holds.call inside done

/-- One call that the pool does not refuse, whatever it returns. -/
theorem TablesHold.attempt {c : TableCall} (ok : c.Ok numPorts)
    (granted : (thread.call c).2.heap.pool.refused = false) :
    TablesHold numPorts (thread.call c).2 (tables.attempt c) := by
  cases c with
  | routeUpdate r => exact holds.attempt_update ok granted
  | routeDelete family k => exact holds.attempt_delete family k
  | neighAdd family port dst mac => exact holds.attempt_neighAdd dst mac ok granted
  | neighDelete family port dst => exact holds.attempt_neighDelete dst ok

end Attempt

theorem call_tunIndex (thread : UfpdThread) (c : TableCall) : (thread.call c).2.tunIndex = thread.tunIndex := by
  cases c with
  | routeUpdate r => cases family : r.family <;> simp [call, fib, setFib, family]
  | routeDelete family k => cases family <;> simp [call, fib, setFib]
  | neighAdd family port dst mac => cases family <;> simp [call, neigh, setNeigh]
  | neighDelete family port dst => cases family <;> simp [call, neigh, setNeigh]

end UfpdThread

/-! ## Runs of the event loop -/

/-- What the netlink messages among the events say, in the order of their arrival. -/
inductive Hears : List Event → List News → Prop
  | nil : Hears [] []
  | read {msgs : List Msg} {news history : List News} {events : List Event}
      (tell : List.Forall₂ Msg.Tells msgs news) (later : Hears events history) :
      Hears (.netlink (some (buffer msgs)) :: events) (news ++ history)
  | other {event : Event} {history : List News} {events : List Event}
      (silent : ∀ readBuf, event ≠ .netlink (some readBuf)) (later : Hears events history) :
      Hears (event :: events) history

/-- The pool refuses nothing during a call. -/
def Granted (thread : UfpdThread) (c : TableCall) : Prop := (thread.call c).2.heap.pool.refused = false

/-- The thread has the ports of `start`, and its tables stand for `tables`. -/
structure View (start thread : UfpdThread) (tables : Tables) : Prop where
  tables : thread.TablesHold start.numPorts tables
  tuns : thread.tunIndex = start.tunIndex

namespace View

variable {start thread : UfpdThread} {tables : Tables} (view : View start thread tables)

include view

theorem call_eq (news : News) : news.call thread = news.call start := by
  have ports : thread.portOf = start.portOf := by
    funext ifindex
    rw [UfpdThread.portOf, UfpdThread.portOf, view.tables.ports, view.tuns]
  cases news with
  | route news =>
      have route : news.route thread = news.route start := by
        simp only [RouteNews.route, UfpdThread.portIndex, ports]
      rw [News.call, News.call, route]
  | neigh news => rw [News.call, News.call, ports]
  | ignored => rfl

/-- One message. -/
theorem message {m : Msg} {news : News} (tells : m.Tells news) (rest : List UInt8)
    (granted : ∀ c, netlinkCall thread (m.encode ++ rest) = some c → Granted thread c) :
    View start (netlinkMessage thread (m.encode ++ rest)) ((news.call start).elim tables tables.attempt) := by
  have asked := (netlinkCall_encode rest thread tells).trans (view.call_eq news)
  rw [netlinkMessage_eq, asked]
  cases call : news.call start with
  | none => exact view
  | some c =>
      have ok := netlinkCall_ok (asked.trans call)
      rw [view.tables.ports] at ok
      exact ⟨view.tables.attempt ok (granted c (asked.trans call)), (thread.call_tunIndex c).trans view.tuns⟩

end View

/-- The messages of one read. -/
theorem View.read {start thread : UfpdThread} {tables : Tables} (view : View start thread tables)
    {msgs : List Msg} {news : List News} (tell : List.Forall₂ Msg.Tells msgs news)
    (granted : ReadAlong Granted thread (buffer msgs) (buffer msgs).length) :
    View start (netlinkProcess thread (buffer msgs) (buffer msgs).length) (tables.heard start news) := by
  induction tell generalizing thread tables with
  | nil =>
      rw [show buffer [] = [] from rfl, List.length_nil, netlinkProcess_nil]
      exact view
  | cons tells later ih =>
      rename_i m news msgs history
      have split : buffer (m :: msgs) = m.encode ++ buffer msgs := List.flatMap_cons
      rw [split] at granted ⊢
      obtain ⟨first, next⟩ := (readAlong_cons (buffer msgs) thread tells.ok).mp granted
      rw [netlinkProcess_cons tells.ok]
      exact ih (view.message tells _ first) next

/-- An event without messages leaves the tables alone. -/
theorem handle_silent {s : Forwarder} {event : Event} (silent : ∀ readBuf, event ≠ .netlink (some readBuf)) :
    (s.handle event).2.thread = s.thread := by
  cases event with
  | netlink read =>
      cases read with
      | none => rfl
      | some readBuf => exact absurd rfl (silent readBuf)
  | device rx tx mem => rfl
  | irqRx portIndex read => exact Forwarder.threadProcessIrqRx_thread
  | irqTx portIndex read => exact Forwarder.threadProcessIrqTx_thread
  | tun portIndex read =>
      cases read with
      | none => rfl
      | some readBuf => exact Forwarder.threadProcessTun_thread
  | signal read => rfl

/-- The messages of a run, with anything between them. -/
theorem View.run {start : UfpdThread} {events : List Event} {history : List News} (hears : Hears events history)
    {s s' : Forwarder} {tables : Tables} (view : View start s.thread tables)
    (granted : CallsAlong Granted events s) (ran : threadWait events s = (none, s')) :
    View start s'.thread (tables.heard start history) := by
  induction hears generalizing s tables with
  | nil =>
      obtain rfl := (Prod.mk.inj ran).2
      exact view
  | read tell later ih =>
      rw [Tables.heard_append]
      obtain ⟨first, next⟩ := granted
      exact ih (view.read tell (first _ rfl)) next ran
  | other silent later ih =>
      rename_i event history events
      obtain ⟨-, next⟩ := granted
      have kept := @handle_silent s event silent
      rcases handled : s.handle event with ⟨_ | ret, t⟩
      · simp only [threadWait, handled] at ran
        rw [handled] at next kept
        exact ih (kept.symm ▸ view) next ran
      · simp only [threadWait, handled] at ran
        cases ran

/-- **Packets go where the kernel's messages lead.** Between any two events of the loop,
after any messages, interrupts, frames and packets, every IPv4 packet and every IPv6
packet that is not for a link-local address is sent, dropped or handed to the TAP device
as the tables of the messages so far say. A packet for a link-local address is handed to
the TAP device as it came, whatever the tables are. -/
theorem decision_follows_netlink (boot : Boot) {events : List Event} {history : List News}
    (hears : Hears events history) {s : Forwarder} (ran : threadWait events boot.start = (none, s))
    (granted : CallsAlong Granted events boot.start) (buf : Bytes) :
    let tables := Tables.empty.heard boot.thread history
    Decided tables .inet (ipDaddr buf) (ipTtl buf) ipTouched buf (forwardIpProcess s.thread buf) ∧
    (isLinklocal (ip6Dst buf) = false →
      Decided tables .inet6 (ip6Dst buf) (ip6Hlim buf) ip6Touched buf (forwardIp6Process s.thread buf)) ∧
    (isLinklocal (ip6Dst buf) = true → forwardIp6Process s.thread buf = ⟨-1, buf, true⟩) := by
  have ports : boot.thread.numPorts = _ := (threadPrepare_spec boot.prepared).1.1
  have same : boot.start.thread = boot.thread := by
    unfold Boot.start
    simp [Boot.fresh]
  have start : View boot.thread boot.start.thread Tables.empty := by
    rw [same]
    refine ⟨?_, rfl⟩
    rw [ports]
    exact tablesHold_start boot.prepared
  have holds := (start.run hears granted ran).tables
  exact ⟨forwardIpProcess_decided holds buf, forwardIp6Process_decided holds buf, fun scope => if_pos scope⟩

/-- A read with a route, its gateway as a neighbour, and a change of the neighbour that is
not taken over. -/
def sampleReads : List Msg :=
  [sampleRouteMsg true 1, sampleNeighMsg (some [2, 2, 2, 2, 2, 2]), sampleNeighMsg (some [3, 3, 3, 3, 3, 3])]

def sampleBind (byte : UInt8) : TableCall :=
  .neighAdd .inet 0 (bytesAt [10, 0, 0, 1]) (bytesAt (List.replicate 6 byte))

theorem decision_follows_netlink_sample :
    ∃ s, threadWait [.tun 0 (some [1, 2, 3]), .netlink (some (buffer sampleReads))] sampleBoot.start = (none, s) ∧
      (forwardIpProcess s.thread (samplePacket 64)).outcome = .sent 0 [2, 2, 2, 2, 2, 2] := by
  have route : (sampleRouteMsg true 1).Tells (.route (sampleRouteNews true 1)) := sampleRouteMsg_formed true 1
  have neigh : ∀ byte, (sampleNeighMsg (some (List.replicate 6 byte))).Tells
      (.neigh (sampleNeigh (some (List.replicate 6 byte)))) :=
    fun byte => sampleNeighMsg_formed (by rintro _ ⟨⟩; rfl)
  have hears : Hears [.tun 0 (some [1, 2, 3]), .netlink (some (buffer sampleReads))]
      [.route (sampleRouteNews true 1), .neigh (sampleNeigh (some (List.replicate 6 2))),
        .neigh (sampleNeigh (some (List.replicate 6 3)))] :=
    .other (by rintro _ ⟨⟩) (.read (.cons route (.cons (neigh 2) (.cons (neigh 3) .nil))) .nil)
  have asks : ∀ (thread : UfpdThread) byte, thread.portOf 5 = some 0 →
      (News.neigh (sampleNeigh (some (List.replicate 6 byte)))).call thread = some (sampleBind byte) :=
    fun thread byte here => congrArg (Option.map _) here
  have granted : CallsAlong Granted [.tun 0 (some [1, 2, 3]), .netlink (some (buffer sampleReads))]
      sampleBoot.start := by
    refine ⟨by rintro _ ⟨⟩, fun readBuf same => ?_, trivial⟩
    obtain rfl := Option.some.inj (Event.netlink.inj same)
    refine readAlong_told _ _ route rfl (by unfold Granted; decide +kernel) ?_
    refine readAlong_told _ _ (neigh 2) (asks _ 2 (by decide +kernel)) (by unfold Granted; decide +kernel) ?_
    exact readAlong_told _ _ (neigh 3) (asks _ 3 (by decide +kernel)) (by unfold Granted; decide +kernel)
      (readAlong_nil _)
  refine ⟨_, rfl, ?_⟩
  obtain ⟨inet, -⟩ := decision_follows_netlink sampleBoot hears rfl granted (samplePacket 64)
  refine (inet.sent 0 _).mpr ⟨(sampleRouteNews true 1).route sampleBoot.thread, ?_, ?_, ?_, ?_, ?_⟩
  · rfl
  · rfl
  · decide
  · rfl
  · decide

end Ufp.Daemon
