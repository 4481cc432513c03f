/-
# Ufp.Daemon.NetlinkCalls — a netlink message is at most one call on the tables

Whatever bytes the netlink socket delivers, `netlink_process` makes for each message
it finds at most one call of `fib_route_update`, `fib_route_delete`, `neigh_add` or
`neigh_delete` (`netlinkMessage_eq`). No other event of `thread_wait` touches the
tables. So what every call keeps, a whole run of the event loop keeps
(`threadWait_tables`), whatever the packets, interrupts and messages are.
-/
import Ufp.Daemon.Events
import Ufp.Daemon.Tables

namespace Ufp.Daemon

set_option autoImplicit false

/-! ## One message -/

/-- The route a route message is about. -/
def routeIn (thread : UfpdThread) (nlh : List UInt8) : Route :=
  let routeEntry := nlh.drop nlmsgHdrlen
  let attrs := rtaLoop routeAttr {} (routeEntry.drop rtmsgSize) (rtmPayload nlh)
  { bytes := attrs.prefixBytes
    len := u8At routeEntry 1
    id := attrs.ifindex
    family := familyOf (u8At routeEntry 0)
    nexthop := attrs.nexthop
    portIndex := thread.portIndex attrs.ifindex
    type := if u8At routeEntry 4 = rtTableLocal then .localhost else attrs.type }

/-- What a neighbour message asks of the table of `port`. -/
def neighIn (nlh : List UInt8) (port : Nat) : TableCall :=
  let neighEntry := nlh.drop nlmsgHdrlen
  let attrs := rtaLoop neighAttr {} (neighEntry.drop rtmsgSize) (rtmPayload nlh)
  if nlmsgType nlh = rtmNewneigh then .neighAdd (familyOf (u8At neighEntry 0)) port attrs.dstAddr attrs.dstMac
  else .neighDelete (familyOf (u8At neighEntry 0)) port attrs.dstAddr

/-- The call a message leads to, if any. -/
def netlinkCall (thread : UfpdThread) (nlh : List UInt8) : Option TableCall :=
  if nlmsgType nlh = rtmNewroute then some (.routeUpdate (routeIn thread nlh))
  else if nlmsgType nlh = rtmDelroute then
    some (.routeDelete (routeIn thread nlh).family (routeIn thread nlh).toKey)
  else if nlmsgType nlh = rtmNewneigh ∨ nlmsgType nlh = rtmDelneigh then
    (thread.portOf (s32At (nlh.drop nlmsgHdrlen) 4)).map (neighIn nlh)
  else none

section Message

variable {thread : UfpdThread} {nlh : List UInt8}

theorem netlinkRoute_new (new : nlmsgType nlh = rtmNewroute) :
    netlinkRoute thread nlh = (thread.call (.routeUpdate (routeIn thread nlh))).2 := by
  unfold netlinkRoute UfpdThread.call
  simp only [new, if_true, routeIn, updateRoute]
  cases familyOf (u8At (List.drop nlmsgHdrlen nlh) 0) <;> rfl

theorem netlinkRoute_delete (old : nlmsgType nlh = rtmDelroute) :
    netlinkRoute thread nlh =
      (thread.call (.routeDelete (routeIn thread nlh).family (routeIn thread nlh).toKey)).2 := by
  have other : ¬ rtmDelroute = rtmNewroute := by decide
  unfold netlinkRoute UfpdThread.call
  simp only [old, if_neg other, if_true, routeIn]
  cases familyOf (u8At (List.drop nlmsgHdrlen nlh) 0) <;> rfl

theorem netlinkNeigh_call (known : nlmsgType nlh = rtmNewneigh ∨ nlmsgType nlh = rtmDelneigh) :
    netlinkNeigh thread nlh =
      ((thread.portOf (s32At (nlh.drop nlmsgHdrlen) 4)).map (neighIn nlh)).elim thread
        fun c => (thread.call c).2 := by
  unfold netlinkNeigh
  dsimp only
  cases thread.portOf (s32At (nlh.drop nlmsgHdrlen) 4) with
  | none => rfl
  | some port =>
      have other : ¬ rtmDelneigh = rtmNewneigh := by decide
      rcases known with new | old
      · simp only [new, if_true, neighIn, Option.map_some, Option.elim_some, UfpdThread.call]
        cases familyOf (u8At (List.drop nlmsgHdrlen nlh) 0) <;> rfl
      · simp only [old, if_neg other, if_true, neighIn, Option.map_some, Option.elim_some, UfpdThread.call]
        cases familyOf (u8At (List.drop nlmsgHdrlen nlh) 0) <;> rfl

/-- A message is handled by the call it leads to. -/
theorem netlinkMessage_eq (thread : UfpdThread) (nlh : List UInt8) :
    netlinkMessage thread nlh = (netlinkCall thread nlh).elim thread fun c => (thread.call c).2 := by
  unfold netlinkMessage netlinkCall
  by_cases new : nlmsgType nlh = rtmNewroute
  · rw [if_pos (.inl new), if_pos new, netlinkRoute_new new]
    rfl
  rw [if_neg new]
  by_cases old : nlmsgType nlh = rtmDelroute
  · rw [if_pos (.inr old), if_pos old, netlinkRoute_delete old]
    rfl
  rw [if_neg old, if_neg (not_or.mpr ⟨new, old⟩)]
  by_cases known : nlmsgType nlh = rtmNewneigh ∨ nlmsgType nlh = rtmDelneigh
  · rw [if_pos known, if_pos known, netlinkNeigh_call known]
  · rw [if_neg known, if_neg known]
    rfl

/-- The call names a port of the thread. -/
theorem netlinkCall_ok {c : TableCall} (asked : netlinkCall thread nlh = some c) : c.Ok thread.numPorts := by
  unfold netlinkCall at asked
  split_ifs at asked
  · obtain rfl := Option.some.inj asked
    exact thread.portIndex_lt _
  · obtain rfl := Option.some.inj asked
    trivial
  · obtain ⟨port, found, rfl⟩ := Option.map_eq_some_iff.mp asked
    have inside : port < thread.numPorts := portOf_lt found
    unfold neighIn
    dsimp only
    split_ifs
    · exact inside
    · exact inside

end Message

theorem UfpdThread.call_numPorts (thread : UfpdThread) (c : TableCall) :
    (thread.call c).2.numPorts = thread.numPorts := by
  cases c with
  | routeUpdate r => cases family : r.family <;> simp [call, fib, setFib, family]
  | routeDelete family k => cases family <;> simp [call, fib, setFib]
  | neighAdd family port dst mac => cases family <;> simp [call, neigh, setNeigh]
  | neighDelete family port dst => cases family <;> simp [call, neigh, setNeigh]

/-! ## Runs -/

/-- Each call that a read leads to meets a condition on the thread before it. -/
def ReadAlong (C : UfpdThread → TableCall → Prop) (thread : UfpdThread) (readBuf : List UInt8)
    (readSize : Nat) : Prop :=
  if _ : nlmsgOk readBuf readSize then
    (∀ c, netlinkCall thread readBuf = some c → C thread c) ∧
      ReadAlong C (netlinkMessage thread readBuf) (readBuf.drop (nlAlign (nlmsgLen readBuf)))
        (readSize - nlAlign (nlmsgLen readBuf))
  else True
  termination_by readSize
  decreasing_by
    rename_i ok
    obtain ⟨room, header, -⟩ := nlmsgOk_iff.mp ok
    unfold nlAlign
    omega

/-- Each call that a run of the event loop leads to meets a condition. -/
def CallsAlong (C : UfpdThread → TableCall → Prop) : List Event → Forwarder → Prop :=
  Along fun s event => ∀ readBuf, event = .netlink (some readBuf) → ReadAlong C s.thread readBuf readBuf.length

section Runs

variable {I : UfpdThread → Prop} {C : UfpdThread → TableCall → Prop}

/-- What each call keeps under its condition, a read keeps. -/
theorem netlinkProcess_tables (step : ∀ thread c, I thread → c.Ok thread.numPorts → C thread c → I (thread.call c).2)
    {thread : UfpdThread} {readBuf : List UInt8} {readSize : Nat} (start : I thread)
    (along : ReadAlong C thread readBuf readSize) : I (netlinkProcess thread readBuf readSize) := by
  fun_induction netlinkProcess thread readBuf readSize with
  | case1 thread readBuf readSize ok ih =>
      rw [ReadAlong, dif_pos ok] at along
      refine ih ?_ along.2
      rw [netlinkMessage_eq]
      cases asked : netlinkCall thread readBuf with
      | none => exact start
      | some c => exact step thread c start (netlinkCall_ok asked) (along.1 c asked)
  | case2 => exact start

/-- What each call keeps under its condition holds between any two events. -/
theorem threadWait_tables (step : ∀ thread c, I thread → c.Ok thread.numPorts → C thread c → I (thread.call c).2)
    {events : List Event} {s : Forwarder} (start : I s.thread) (along : CallsAlong C events s) :
    I (threadWait events s).2.thread := by
  refine threadWait_rule (I := fun s => I s.thread) (fun s event holds meets => ?_) start along
  cases event with
  | netlink read =>
      cases read with
      | none => exact holds
      | some readBuf => exact netlinkProcess_tables step holds (meets readBuf rfl)
  | device rx tx mem => exact holds
  | irqRx portIndex read =>
      show I (s.threadProcessIrqRx portIndex).thread
      rwa [Forwarder.threadProcessIrqRx_thread]
  | irqTx portIndex read =>
      show I (s.threadProcessIrqTx portIndex).thread
      rwa [Forwarder.threadProcessIrqTx_thread]
  | tun portIndex read =>
      cases read with
      | none => exact holds
      | some readBuf =>
          show I (s.threadProcessTun portIndex readBuf).thread
          rwa [Forwarder.threadProcessTun_thread]
  | signal read => exact holds

end Runs

end Ufp.Daemon
