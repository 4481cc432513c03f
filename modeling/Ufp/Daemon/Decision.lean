/-
# Ufp.Daemon.Decision — what becomes of an IP packet

`forward_ip_process` and `forward_ip6_process` are compared with what the maps of
`Tables` say: a packet goes to the port of the longest route for its destination
and to the neighbour of that route, or to the TAP device of the port it came from, or
nowhere (`Tables.outcome`). The two functions do the same for their families. Of the
bytes, only those named in the headers change, and none unless the packet is sent.
-/
import Ufp.Daemon.Events
import Ufp.Daemon.Tables

namespace Ufp.Daemon

open Ufp.Lib.Io

set_option autoImplicit false

/-! ## Outcomes -/

/-- What becomes of a packet. -/
inductive Outcome where
  | dropped
  | tap
  | sent (port : Nat) (mac : List UInt8)

/-- `eth->h_dest`. -/
def ethDest (buf : Bytes) : List UInt8 := macBytes buf

/-- The outcome a forwarding function's result stands for. -/
def Forwarded.outcome (done : Forwarded) : Outcome :=
  if 0 ≤ done.ret then .sent done.ret.toNat (ethDest done.buf)
  else if done.toTap then .tap
  else .dropped

/-- The address whose neighbour a packet goes to. -/
def Route.hop (r : Route) (dst : Bytes) : Bytes :=
  match r.type with
  | .link => dst
  | _ => r.nexthop

/-- The neighbour a route leads to. -/
def Tables.via (tables : Tables) (family : Family) (r : Route) (dst : Bytes) : Option (Nat × List UInt8) :=
  if r.portIndex < 0 ∨ r.type = .localhost then none
  else (tables.macs family r.portIndex.toNat (r.hop dst)).map fun mac => (r.portIndex.toNat, mac)

/-- What the maps say. -/
def Tables.outcome (tables : Tables) (family : Family) (dst : Bytes) (hops : Nat) : Outcome :=
  match (tables.routes family).lookup dst with
  | none => .dropped
  | some r =>
      match tables.via family r dst with
      | none => .tap
      | some (port, mac) => if hops = 1 then .tap else .sent port mac

/-- The route, port and neighbour for which a packet is sent on. -/
def Tables.Leads (tables : Tables) (family : Family) (dst : Bytes) (hops port : Nat) (mac : List UInt8) : Prop :=
  ∃ r, (tables.routes family).lookup dst = some r ∧ r.portIndex = port ∧ r.type ≠ .localhost ∧
    tables.macs family port (r.hop dst) = some mac ∧ hops ≠ 1

section Outcomes

variable {tables : Tables} {family : Family} {dst : Bytes} {hops : Nat}

theorem Tables.via_eq {r : Route} {port : Nat} {mac : List UInt8} :
    tables.via family r dst = some (port, mac) ↔
      r.portIndex = port ∧ r.type ≠ .localhost ∧ tables.macs family port (r.hop dst) = some mac := by
  unfold Tables.via
  constructor
  · intro found
    split at found
    · cases found
    · rename_i usable
      obtain ⟨mac', known, same⟩ := Option.map_eq_some_iff.mp found
      obtain ⟨rfl, rfl⟩ := Prod.mk.inj same
      obtain ⟨natural, remote⟩ := not_or.mp usable
      exact ⟨(Int.toNat_of_nonneg (Int.not_lt.mp natural)).symm, remote, known⟩
  · rintro ⟨here, remote, known⟩
    have natural : ¬ (r.portIndex < 0 ∨ r.type = .localhost) := by
      rintro (negative | localhost)
      · omega
      · exact remote localhost
    have index : r.portIndex.toNat = port := by omega
    rw [if_neg natural, index, known]
    rfl

theorem Tables.outcome_sent {port : Nat} {mac : List UInt8} :
    tables.outcome family dst hops = .sent port mac ↔ tables.Leads family dst hops port mac := by
  unfold Tables.outcome Tables.Leads
  cases (tables.routes family).lookup dst with
  | none => simp
  | some r =>
      simp only [Option.some.injEq, exists_eq_left']
      rcases found : tables.via family r dst with _ | ⟨port', mac'⟩
      · refine iff_of_false (by simp) ?_
        rintro ⟨here, remote, known, -⟩
        have some := Tables.via_eq.mpr ⟨here, remote, known⟩
        rw [found] at some
        cases some
      · rw [← and_assoc, ← and_assoc, and_assoc (a := r.portIndex = _), ← Tables.via_eq, found]
        dsimp only
        by_cases last : hops = 1
        · rw [if_pos last]
          simp [last]
        · rw [if_neg last]
          simp [last]

theorem Tables.outcome_dropped :
    tables.outcome family dst hops = .dropped ↔ (tables.routes family).lookup dst = none := by
  unfold Tables.outcome
  cases (tables.routes family).lookup dst with
  | none => simp
  | some r =>
      refine iff_of_false ?_ (by simp)
      dsimp only
      split
      · simp
      · split_ifs <;> simp

end Outcomes

/-! ## The lookup -/

section Lookup

variable {numPorts n : Nat} {tables : Tables} {family : Family} {h : Heap} {fib : Fib}
  {neighs : Nat → NeighTable} {restB restL : List Nat} {stored : List Stored}

/-- The lookup led where the maps lead. -/
def Agrees (tables : Tables) (family : Family) (dst : Bytes) (hop : NextHop) : Prop :=
  ((tables.routes family).lookup dst = none ∧ hop = .drop) ∨
  ∃ r, (tables.routes family).lookup dst = some r ∧ ((tables.via family r dst = none ∧ hop = .tap) ∨
    ∃ port entry, tables.via family r dst = some (port, macBytes entry.dstMac) ∧ hop = .via port entry)

/-- The neighbour table of a route's port finds the neighbour of the map. -/
theorem neighLookup_via {r : Route} {dst a : Bytes} (natural : ¬ r.portIndex < 0) (remote : r.type ≠ .localhost)
    (ok : (neighs r.portIndex.toNat).Ok n)
    (macs : ∀ a, ((neighs r.portIndex.toNat).mac a).map macBytes = tables.macs family r.portIndex.toNat a)
    (near : AddrSame n a (r.hop dst)) {hop : NextHop}
    (decided : hop = match neighLookup (neighs r.portIndex.toNat) a with
      | none => .tap
      | some entry => .via r.portIndex.toNat entry) :
    (tables.via family r dst = none ∧ hop = .tap) ∨
      ∃ port entry, tables.via family r dst = some (port, macBytes entry.dstMac) ∧ hop = .via port entry := by
  rw [Tables.via, if_neg (not_or.mpr ⟨natural, remote⟩), ← macs, ← ok.mac_congr near, NeighTable.mac, decided]
  cases neighLookup (neighs r.portIndex.toNat) a with
  | none => exact .inl ⟨rfl, rfl⟩
  | some entry => exact .inr ⟨_, entry, rfl, rfl⟩

/-- What `nextHop` finds, in terms of the maps. -/
theorem nextHop_spec (size : family.bytes = some n) (ok : FibOk h fib stored restB restL)
    (same : stored.map Stored.route = tables.routes family)
    (formed : ∀ r ∈ tables.routes family, r.family = family ∧ r.portIndex < numPorts)
    (known : ∀ port < numPorts, (neighs port).Ok n ∧
      ∀ a, ((neighs port).mac a).map macBytes = tables.macs family port a) (dst : Bytes) :
    Agrees tables family dst (nextHop fib neighs h dst) := by
  unfold Agrees
  rw [← same]
  rcases fibLookup_spec ok dst with ⟨missed, none⟩ | ⟨ptr, r, found, best, holds⟩
  · exact .inl ⟨none, by rw [nextHop, missed]⟩
  refine .inr ⟨r, best, ?_⟩
  obtain ⟨-, -, newer, older, split, -⟩ := Routes.lookup_some best
  obtain ⟨kind, inside⟩ := formed r (by rw [← same, split]; exact List.mem_append_right _ List.mem_cons_self)
  have gateway : AddrSame n (h.fibEntry ptr).nexthop r.nexthop := fun i less =>
    (holds.bytes n (kind ▸ size) i less).1
  rw [nextHop, found]
  dsimp only
  rw [holds.portIndex, holds.type]
  by_cases negative : r.portIndex < 0
  · rw [if_pos negative]
    exact .inl ⟨if_pos (.inl negative), rfl⟩
  rw [if_neg negative]
  obtain ⟨neighOk, macs⟩ := known r.portIndex.toNat (by omega)
  cases type : r.type with
  | localhost => exact .inl ⟨if_pos (.inr type), rfl⟩
  | link =>
      have near : AddrSame n dst (r.hop dst) := by
        rw [Route.hop, type]
        exact fun _ _ => rfl
      exact neighLookup_via negative (by rw [type]; decide) neighOk macs near rfl
  | forward =>
      have near : AddrSame n (h.fibEntry ptr).nexthop (r.hop dst) := by
        rw [Route.hop, type]
        exact gateway
      exact neighLookup_via negative (by rw [type]; decide) neighOk macs near rfl

end Lookup

namespace UfpdThread.TablesHold

variable {numPorts : Nat} {thread : UfpdThread} {tables : Tables}

theorem inet (holds : TablesHold numPorts thread tables) (dst : Bytes) :
    Agrees tables .inet dst (nextHop thread.fibInet thread.neighInet thread.heap dst) := by
  obtain ⟨stored, stored', both, same, -⟩ := holds.fibs
  refine nextHop_spec rfl both.first same (holds.routes .inet) (fun port inside => ?_) dst
  obtain ⟨neigh, here, ok, -, macs⟩ := @holds.neighs port .inet 4 inside rfl
  obtain rfl := Option.some.inj here
  exact ⟨ok, macs⟩

theorem inet6 (holds : TablesHold numPorts thread tables) (dst : Bytes) :
    Agrees tables .inet6 dst (nextHop thread.fibInet6 thread.neighInet6 thread.heap dst) := by
  obtain ⟨stored, stored', both, -, same⟩ := holds.fibs
  refine nextHop_spec rfl both.second same (holds.routes .inet6) (fun port inside => ?_) dst
  obtain ⟨neigh, here, ok, -, macs⟩ := @holds.neighs port .inet6 16 inside rfl
  obtain rfl := Option.some.inj here
  exact ⟨ok, macs⟩

end UfpdThread.TablesHold

/-! ## The packet that goes out -/

/-- The positions `forward_ip_process` writes: the two MAC addresses, the TTL and the
checksum. -/
def ipTouched (i : Nat) : Prop := i < 2 * ethAlen ∨ i = ethHlen + 8 ∨ i = ethHlen + 10 ∨ i = ethHlen + 11

/-- The positions `forward_ip6_process` writes. -/
def ip6Touched (i : Nat) : Prop := i < 2 * ethAlen ∨ i = ethHlen + 7

theorem setMacs_dest (buf dstMac srcMac : Bytes) : ethDest (setMacs buf dstMac srcMac) = macBytes dstMac := by
  refine List.map_congr_left fun i inside => ?_
  have less := List.mem_range.mp inside
  unfold setMacs copyTo
  rw [if_neg (by omega), if_pos (by omega), Nat.sub_zero]

theorem ipSent_kept (buf dstMac srcMac : Bytes) {i : Nat} (kept : ¬ ipTouched i) :
    ipSent buf dstMac srcMac i = buf i := by
  unfold ipTouched at kept
  unfold ipSent
  rw [setMacs_apply _ _ _ (by omega), setField16_apply _ _ (by omega) (by omega), Function.update_of_ne (by omega)]

theorem ip6Sent_kept (buf dstMac srcMac : Bytes) {i : Nat} (kept : ¬ ip6Touched i) :
    ip6Sent buf dstMac srcMac i = buf i := by
  unfold ip6Touched at kept
  unfold ip6Sent
  rw [setMacs_apply _ _ _ (by omega), Function.update_of_ne (by omega)]

/-! ## The decision -/

/-- The result of a forwarding function is what the maps say, and of the packet at most
the positions `touched` have changed, or none if it is not sent. -/
structure Decided (tables : Tables) (family : Family) (dst : Bytes) (hops : Nat) (touched : Nat → Prop)
    (buf : Bytes) (done : Forwarded) : Prop where
  sent : ∀ port mac, done.outcome = .sent port mac ↔ tables.Leads family dst hops port mac
  dropped : done.outcome = .dropped ↔ (tables.routes family).lookup dst = none
  tap : done.outcome = .tap ↔ (tables.routes family).lookup dst ≠ none ∧
    ∀ port mac, ¬ tables.Leads family dst hops port mac
  kept : (done.outcome = .dropped ∨ done.outcome = .tap) → done.buf = buf
  frame : ∀ i, ¬ touched i → done.buf i = buf i

section Decided

variable {tables : Tables} {family : Family} {dst : Bytes} {hops : Nat} {touched : Nat → Prop} {buf : Bytes}
  {done : Forwarded}

theorem Decided.of_outcome (same : done.outcome = tables.outcome family dst hops)
    (kept : done.ret < 0 → done.buf = buf) (frame : ∀ i, ¬ touched i → done.buf i = buf i) :
    Decided tables family dst hops touched buf done := by
  refine ⟨fun port mac => ?_, ?_, ?_, fun stays => kept ?_, frame⟩
  · rw [same, Tables.outcome_sent]
  · rw [same, Tables.outcome_dropped]
  · rw [same, ne_eq, ← @Tables.outcome_dropped tables family dst hops]
    simp only [← Tables.outcome_sent]
    cases tables.outcome family dst hops <;> simp
  · by_contra natural
    unfold Forwarded.outcome at stays
    rw [if_pos (Int.not_lt.mp natural)] at stays
    simp at stays

/-- A packet that is not sent. -/
theorem Decided.of_kept {toTap : Bool}
    (same : tables.outcome family dst hops = if toTap then .tap else .dropped) :
    Decided tables family dst hops touched buf ⟨-1, buf, toTap⟩ :=
  .of_outcome same.symm (fun _ => rfl) fun _ _ => rfl

/-- A function that follows the lookup decides as the maps do. -/
theorem Decided.of_hop {hop : NextHop} (agrees : Agrees tables family dst hop)
    (drop : hop = .drop → done = ⟨-1, buf, false⟩) (tap : hop = .tap → done = ⟨-1, buf, true⟩)
    (last : hop.Forwards → hops = 1 → done = ⟨-1, buf, true⟩)
    (via : ∀ port entry, hop = .via port entry → hops ≠ 1 → ∃ out, done = ⟨port, out, false⟩ ∧
      ethDest out = macBytes entry.dstMac ∧ ∀ i, ¬ touched i → out i = buf i) :
    Decided tables family dst hops touched buf done := by
  rcases agrees with ⟨none, here⟩ | ⟨r, best, ⟨none, here⟩ | ⟨port, entry, some, here⟩⟩
  · rw [drop here]
    exact .of_kept (by rw [Tables.outcome, none]; rfl)
  · rw [tap here]
    refine .of_kept ?_
    rw [Tables.outcome, best]
    dsimp only
    rw [none]
    rfl
  · have outcome : tables.outcome family dst hops =
        if hops = 1 then .tap else .sent port (macBytes entry.dstMac) := by
      rw [Tables.outcome, best]
      dsimp only
      rw [some]
    by_cases one : hops = 1
    · rw [last (by rw [here]; trivial) one]
      exact .of_kept (by rw [outcome, if_pos one]; rfl)
    · obtain ⟨out, sent, dest, frame⟩ := via port entry here one
      have natural : (0 : Int) ≤ port := Int.natCast_nonneg port
      rw [sent]
      refine .of_outcome ?_ (fun negative => absurd negative (Int.not_lt.mpr natural)) frame
      rw [outcome, if_neg one, Forwarded.outcome, if_pos natural, dest, Int.toNat_natCast]

end Decided

section Processes

variable {numPorts : Nat} {thread : UfpdThread} {tables : Tables} (holds : thread.TablesHold numPorts tables)
  (buf : Bytes)

include holds

theorem forwardIpProcess_decided :
    Decided tables .inet (ipDaddr buf) (ipTtl buf) ipTouched buf (forwardIpProcess thread buf) := by
  refine .of_hop (holds.inet (ipDaddr buf)) ?_ ?_ ?_ ?_
  · intro hop
    rw [forwardIpProcess, hop]
  · intro hop
    rw [forwardIpProcess, hop]
  · intro forwards last
    unfold forwardIpProcess
    revert forwards
    cases nextHop thread.fibInet thread.neighInet thread.heap (ipDaddr buf) with
    | drop => exact False.elim
    | tap => exact False.elim
    | via port entry => exact fun _ => if_pos last
  · intro port entry hop more
    refine ⟨ipSent buf entry.dstMac (thread.macaddr port), ?_, setMacs_dest _ _ _, fun i => ipSent_kept _ _ _⟩
    rw [forwardIpProcess, hop]
    exact if_neg more

theorem forwardIp6Process_decided (wide : isLinklocal (ip6Dst buf) = false) :
    Decided tables .inet6 (ip6Dst buf) (ip6Hlim buf) ip6Touched buf (forwardIp6Process thread buf) := by
  refine .of_hop (holds.inet6 (ip6Dst buf)) ?_ ?_ ?_ ?_
  · intro hop
    rw [forwardIp6Process, wide, hop]
    rfl
  · intro hop
    rw [forwardIp6Process, wide, hop]
    rfl
  · intro forwards last
    rw [forwardIp6Process, wide]
    revert forwards
    cases nextHop thread.fibInet6 thread.neighInet6 thread.heap (ip6Dst buf) with
    | drop => exact False.elim
    | tap => exact False.elim
    | via port entry => exact fun _ => if_pos last
  · intro port entry hop more
    refine ⟨ip6Sent buf entry.dstMac (thread.macaddr port), ?_, setMacs_dest _ _ _, fun i => ip6Sent_kept _ _ _⟩
    rw [forwardIp6Process, wide, hop]
    exact if_neg more

end Processes

/-- A packet for the TAP is written to the TAP device of the port it came from, and
nothing else happens; one that is dropped changes nothing. -/
theorem Forwarder.forwardPacket_kept (s : Forwarder) (portIndex : Nat) (packet : Packet)
    (good : packet.flag &&& packetError = 0) :
    ((forwardSwitch s.thread (s.view packet)).outcome = .dropped → s.forwardPacket portIndex packet = s) ∧
    ((forwardSwitch s.thread (s.view packet)).outcome = .tap →
      s.forwardPacket portIndex packet = s.writeTap portIndex packet) := by
  have start : ¬ packet.flag &&& packetError ≠ 0 := not_not.mpr good
  rw [forwardPacket, if_neg start]
  rcases forwardSwitch_cases s.thread (s.view packet) with ⟨toTap, done⟩ | ⟨port, sent, done, -⟩
  · rw [done]
    cases toTap with
    | true => exact ⟨fun drop => by simp [Forwarded.outcome] at drop, fun _ => store_view⟩
    | false => exact ⟨fun _ => store_view, fun tap => by simp [Forwarded.outcome] at tap⟩
  · rw [done]
    have natural : (0 : Int) ≤ port := Int.natCast_nonneg port
    simp [Forwarded.outcome, natural]

/-- **IP packets are forwarded as the tables say.** After any successful calls on the
tables of a new thread, both functions send a packet out of a port to a neighbour,
drop it, or hand it to the TAP device of the receiving port as the routes and
neighbours say, and change no byte they should not. -/
theorem forwarding_decision {numPorts : Nat} {tunIndex : Nat → Int} {macaddr : Nat → Bytes} {heap : Heap}
    {start thread : UfpdThread} (made : threadPrepare numPorts tunIndex macaddr heap = some start)
    {calls : List TableCall} (ok : ∀ c ∈ calls, c.Ok numPorts) (ran : start.calls calls = some thread)
    (buf : Bytes) :
    let tables := calls.foldl Tables.call Tables.empty
    Decided tables .inet (ipDaddr buf) (ipTtl buf) ipTouched buf (forwardIpProcess thread buf) ∧
    (isLinklocal (ip6Dst buf) = false →
      Decided tables .inet6 (ip6Dst buf) (ip6Hlim buf) ip6Touched buf (forwardIp6Process thread buf)) ∧
    ∀ (s : Forwarder) (portIndex : Nat) (packet : Packet), s.thread = thread →
      packet.flag &&& packetError = 0 →
      ((Forwarder.forwardSwitch thread (s.view packet)).outcome = .dropped →
        s.forwardPacket portIndex packet = s) ∧
      ((Forwarder.forwardSwitch thread (s.view packet)).outcome = .tap →
        s.forwardPacket portIndex packet = s.writeTap portIndex packet) := by
  have holds := tablesHold_run made ok ran
  refine ⟨forwardIpProcess_decided holds buf, forwardIp6Process_decided holds buf, ?_⟩
  rintro s portIndex packet rfl good
  exact s.forwardPacket_kept portIndex packet good

/-- The route `10.1.2.0/24` via `7.7.7.7`, which is a neighbour on port 0. -/
def sampleTableCalls : List TableCall :=
  [.routeUpdate (sampleRoute 24 1), .neighAdd .inet 0 (fun _ => 7) (fun _ => 3)]

def sampleReached : UfpdThread := (sampleThread.calls sampleTableCalls).get (by decide +kernel)

/-- The thread of `sampleReached` at work. -/
def sampleWorking : Forwarder :=
  { sampleBoot.start with thread := sampleReached, numPorts := by decide +kernel }

/-- The packet is sent to the neighbour; as an IPv6 packet it would find no route. A
frame of another type is dropped. -/
theorem forwarding_decision_sample :
    (forwardIpProcess sampleReached (samplePacket 64)).outcome = .sent 0 [3, 3, 3, 3, 3, 3] ∧
      (forwardIp6Process sampleReached (samplePacket 64)).outcome = .dropped ∧
      (Forwarder.forwardSwitch sampleReached (sampleWorking.view ⟨0, 60, 0, 0⟩)).outcome = .dropped ∧
      sampleWorking.forwardPacket 0 ⟨0, 60, 0, 0⟩ = sampleWorking := by
  have ok : ∀ c ∈ sampleTableCalls, c.Ok 1 := by
    simp [sampleTableCalls, TableCall.Ok, sampleRoute]
  have ran : sampleThread.calls sampleTableCalls = some sampleReached := (Option.some_get _).symm
  obtain ⟨inet, inet6, both⟩ := forwarding_decision sampleThread_made ok ran (samplePacket 64)
  have leads : (sampleTableCalls.foldl Tables.call Tables.empty).Leads .inet (ipDaddr (samplePacket 64)) 64 0
      [3, 3, 3, 3, 3, 3] := by
    refine ⟨sampleRoute 24 1, rfl, rfl, by decide, ?_, by decide⟩
    rfl
  have dropped : (Forwarder.forwardSwitch sampleReached (sampleWorking.view ⟨0, 60, 0, 0⟩)).outcome = .dropped :=
    rfl
  exact ⟨(inet.sent 0 _).mpr leads, (inet6 rfl).dropped.mpr rfl, dropped,
    (both sampleWorking 0 ⟨0, 60, 0, 0⟩ rfl rfl).1 dropped⟩

end Ufp.Daemon
