/-
# Ufp.Daemon.FibFollow — do the FIBs follow the kernel?

Runs of reads of well-formed `RTM_NEWROUTE` and `RTM_DELROUTE` messages, next to
the route map that the messages describe: `RTM_NEWROUTE` adds a route, or replaces
gateway, type and port of the route with its key; `RTM_DELROUTE` removes it.

`fib_route_update` refuses a key that is stored, so a replacement is lost. The
FIBs follow the kernel in the runs in which no message asks for one
(`fib_follows_netlink`).
-/
import Ufp.Daemon.FibRefine
import Ufp.Daemon.NetlinkWire
import Mathlib.Data.List.Induction

namespace Ufp.Daemon

open Ufp.Theory

set_option autoImplicit false

/-! ## What a message says -/

/-- A route message; `table` tells whether it is about `RT_TABLE_LOCAL`. -/
structure RouteNews where
  new : Bool
  family : Family
  len : Nat
  dst : Option (List UInt8)
  gateway : Option (List UInt8)
  oif : Option Int
  isLocal : Bool

/-- A well-formed message that says `news`. -/
structure Msg.IsRoute (m : Msg) (news : RouteNews) : Prop where
  ok : m.Ok
  type : m.type = if news.new then rtmNewroute else rtmDelroute
  body : ∃ (family dstLen srcLen tos table : UInt8) (tail : List UInt8),
    m.body = family :: dstLen :: srcLen :: tos :: table :: tail ∧
      familyOf family.toNat = news.family ∧ dstLen.toNat = news.len ∧
      (table.toNat = rtTableLocal ↔ news.isLocal = true)
  len : ∀ size, news.family.bytes = some size → news.len ≤ 8 * size
  dst : Carries m.attrs rtaDst news.dst
  dstSize : ∀ payload, news.dst = some payload → news.family.bytes = some payload.length
  gateway : Carries m.attrs rtaGateway news.gateway
  gatewaySize : ∀ payload, news.gateway = some payload → news.family.bytes = some payload.length
  oif : Carries m.attrs rtaOif (news.oif.map le32s)
  ifindex : ∀ n, news.oif = some n → -2 ^ 31 ≤ n ∧ n < 2 ^ 31

/-- The route of a message, given the interface numbers of the thread's ports. -/
def RouteNews.route (news : RouteNews) (thread : UfpdThread) : Route where
  bytes := bytesAt (news.dst.getD [])
  len := news.len
  id := news.oif.getD (-1)
  family := news.family
  nexthop := bytesAt (news.gateway.getD [])
  portIndex := thread.portIndex (news.oif.getD (-1))
  type := if news.isLocal then .localhost else if news.gateway.isSome then .forward else .link

/-- What the message asks of the FIB of its family. -/
def RouteNews.call (news : RouteNews) (thread : UfpdThread) : Call :=
  if news.new then .update (news.route thread) else .delete (news.route thread).toKey

/-- The thread once it has handled the message. -/
def UfpdThread.learn (thread : UfpdThread) (news : RouteNews) : UfpdThread :=
  match news.family with
  | .inet =>
      let (_, st) := FibState.call ⟨thread.fibInet, thread.heap⟩ (news.call thread)
      { thread with fibInet := st.fib, heap := st.heap }
  | .inet6 =>
      let (_, st) := FibState.call ⟨thread.fibInet6, thread.heap⟩ (news.call thread)
      { thread with fibInet6 := st.fib, heap := st.heap }
  | .other => thread

theorem Carries.payload_eq {attrs : List Attr} {type : Nat} {payload : Option (List UInt8)}
    (carries : Carries attrs type payload) {a : Attr} (member : a ∈ attrs) (here : a.type = type) :
    payload = some a.payload := by
  have kept : a ∈ attrs.filter fun a => a.type == type :=
    List.mem_filter.mpr ⟨member, by simp [here]⟩
  rw [show attrs.filter _ = _ from carries, Option.mem_toList, Option.map_eq_some_iff] at kept
  obtain ⟨_, known, rfl⟩ := kept
  exact known

variable {news : RouteNews} {m : Msg}

theorem routeAttr_fold (formed : m.IsRoute news) (rest : List UInt8) :
    rtaLoop routeAttr {} (m.payload ++ rest) m.payload.length =
      { prefixBytes := bytesAt (news.dst.getD []), nexthop := bytesAt (news.gateway.getD [])
        type := if news.gateway.isSome then .forward else .link, ifindex := news.oif.getD (-1) } := by
  have number : ∀ {n}, news.oif = some n → ∀ tail, s32At (le32s n ++ tail) 0 = n := by
    intro n known tail
    exact s32At_le32s (formed.ifindex n known).1 (formed.ifindex n known).2 tail
  have loop : rtaLoop routeAttr {} (m.payload ++ rest) m.payload.length =
      m.attrs.foldl (fun s a => routeAttr s a.type a.payload a.payload.length) {} := by
    refine rtaLoop_encode routeAttr formed.ok.attrs (fun a member s tail => ?_) {} rest
    unfold routeAttr
    by_cases oif : a.type = rtaOif
    · obtain ⟨n, known, payload⟩ := Option.map_eq_some_iff.mp (formed.oif.payload_eq member oif)
      have alone := number known []
      rw [List.append_nil] at alone
      simp only [memcpy_append, ← payload, number known, alone]
    · simp only [memcpy_append, oif, if_false]
  rw [loop]
  apply RouteAttrs.ext
  · rw [foldl_field _ RouteAttrs.prefixBytes (fun old data => memcpy old (bytesAt data) data.length)
      (fun s a => routeAttr_prefixBytes s _ _ _) formed.dst]
    cases news.dst with
    | none => rfl
    | some payload => exact memcpy_zero payload
  · rw [foldl_field _ RouteAttrs.nexthop (fun old data => memcpy old (bytesAt data) data.length)
      (fun s a => routeAttr_nexthop s _ _ _) formed.gateway]
    cases news.gateway with
    | none => rfl
    | some payload => exact memcpy_zero payload
  · rw [foldl_field _ RouteAttrs.type (fun _ _ => .forward) (fun s a => routeAttr_type s _ _ _) formed.gateway]
    cases news.gateway <;> rfl
  · rw [foldl_field _ RouteAttrs.ifindex (fun _ data => s32At data 0) (fun s a => routeAttr_ifindex s _ _ _)
      formed.oif]
    cases known : news.oif with
    | none => rfl
    | some n =>
        rw [Option.map_some, Option.elim_some, Option.getD_some, ← List.append_nil (le32s n)]
        exact number known []

/-- The fields of the header that `netlink_route` reads. -/
theorem Msg.IsRoute.header (formed : m.IsRoute news) (rest : List UInt8) :
    familyOf (u8At ((m.encode ++ rest).drop nlmsgHdrlen) 0) = news.family ∧
      u8At ((m.encode ++ rest).drop nlmsgHdrlen) 1 = news.len ∧
      ∀ type : FibType, (if u8At ((m.encode ++ rest).drop nlmsgHdrlen) 4 = rtTableLocal then .localhost else type) =
        if news.isLocal then .localhost else type := by
  obtain ⟨family, dstLen, srcLen, tos, table, tail, body, known, len, isLocal⟩ := formed.body
  have entry : (m.encode ++ rest).drop nlmsgHdrlen =
      family :: dstLen :: srcLen :: tos :: table :: (tail ++ (m.payload ++ rest)) := by
    rw [encode_drop_header, body]
    simp only [List.cons_append]
  rw [entry]
  exact ⟨known, len, fun type => if_congr isLocal rfl rfl⟩

/-- A route message does what it says. -/
theorem netlinkMessage_route (formed : m.IsRoute news) (rest : List UInt8) (thread : UfpdThread) :
    netlinkMessage thread (m.encode ++ rest) = thread.learn news := by
  have type : nlmsgType (m.encode ++ rest) = if news.new then rtmNewroute else rtmDelroute :=
    (nlmsgType_encode formed.ok rest).trans formed.type
  obtain ⟨first, second, fifth⟩ := formed.header rest
  have handler : netlinkMessage thread (m.encode ++ rest) = netlinkRoute thread (m.encode ++ rest) := by
    rw [netlinkMessage, type, if_pos]
    cases news.new
    · exact .inr rfl
    · exact .inl rfl
  have call : ∀ fib : Fib,
      (if (if news.new then rtmNewroute else rtmDelroute) = rtmNewroute then
        (updateRoute fib (news.route thread) thread.heap).2
      else if (if news.new then rtmNewroute else rtmDelroute) = rtmDelroute then
        (fibRouteDelete fib (news.route thread).bytes (news.route thread).len (news.route thread).id
          thread.heap).2
      else (fib, thread.heap)) =
        ((FibState.call ⟨fib, thread.heap⟩ (news.call thread)).2.fib,
          (FibState.call ⟨fib, thread.heap⟩ (news.call thread)).2.heap) := by
    intro fib
    unfold RouteNews.call
    cases news.new <;> rfl
  rw [handler, netlinkRoute]
  simp only [first, second, fifth, encode_drop_body formed.ok, rtmPayload_encode formed.ok,
    routeAttr_fold formed rest, type]
  unfold UfpdThread.learn
  cases family : news.family with
  | inet =>
      have inet := call thread.fibInet
      simp only [updateRoute, RouteNews.route, family] at inet ⊢
      rw [inet]
  | inet6 =>
      have inet6 := call thread.fibInet6
      simp only [updateRoute, RouteNews.route, family] at inet6 ⊢
      rw [inet6]
  | other => rfl

/-! ## The route map -/

/-- A route whose key is in the map gives it a new gateway, type and port. -/
def Routes.replace (routes : Routes) (r : Route) : Routes :=
  if ∃ s ∈ routes, s.Same r.toKey then
    routes.map fun s => if s.Same r.toKey then
      { s with nexthop := r.nexthop, type := r.type, portIndex := r.portIndex } else s
  else r :: routes

/-- What the message does to the route map of its family. -/
def RouteNews.apply (news : RouteNews) (thread : UfpdThread) (routes : Routes) : Routes :=
  if news.new then routes.replace (news.route thread)
  else (routes.delete (news.route thread).toKey).2

/-- The route map of a family. -/
def routeMap (thread : UfpdThread) (family : Family) (history : List RouteNews) : Routes :=
  history.foldl (fun routes news => if news.family = family then news.apply thread routes else routes) []

theorem routeMap_append (thread : UfpdThread) (family : Family) (history : List RouteNews)
    (news : RouteNews) :
    routeMap thread family (history ++ [news]) =
      if news.family = family then news.apply thread (routeMap thread family history)
      else routeMap thread family history := by
  rw [routeMap, List.foldl_append]
  rfl

/-- A message for a key in the map says nothing new about it. -/
def RouteNews.Repeats (news : RouteNews) (thread : UfpdThread) (routes : Routes) : Prop :=
  news.new = true → ∀ s ∈ routes, s.Same (news.route thread).toKey →
    s.nexthop = (news.route thread).nexthop ∧ s.type = (news.route thread).type ∧
      s.portIndex = (news.route thread).portIndex

/-- No message of the family asks for a replacement. -/
def NoReplacement (thread : UfpdThread) (family : Family) (history : List RouteNews) : Prop :=
  ∀ before news after, history = before ++ news :: after → news.family = family →
    news.Repeats thread (routeMap thread family before)

/-- Without a replacement, the map changes as the call does it. -/
theorem RouteNews.Repeats.apply_eq {thread : UfpdThread} {routes : Routes} (repeats : news.Repeats thread routes) :
    news.apply thread routes = (Routes.call routes (news.call thread)).2 := by
  unfold RouteNews.apply RouteNews.call
  cases new : news.new with
  | false => rfl
  | true =>
      show routes.replace _ = (routes.update _).2
      unfold Routes.replace Routes.update
      split_ifs with present
      · refine (List.map_congr_left fun s member => ?_).trans (List.map_id routes)
        split_ifs with same
        · obtain ⟨nexthop, type, port⟩ := repeats new s member same
          rw [← nexthop, ← type, ← port]
          rfl
        · rfl
      · rfl

/-! ## Following the kernel -/

/-- Both FIBs are well formed, and that of the family holds its route map. -/
structure FibsFollow (start : UfpdThread) (family : Family) (history : List RouteNews) (thread : UfpdThread) :
    Prop where
  ports : thread.numPorts = start.numPorts
  tuns : thread.tunIndex = start.tunIndex
  fibs : ∃ stored stored6, FibsOk thread.heap thread.fibInet thread.fibInet6 stored stored6 ∧
    (family = .inet → stored.map Stored.route = routeMap start .inet history) ∧
    (family = .inet6 → stored6.map Stored.route = routeMap start .inet6 history)

theorem RouteNews.call_valid (news : RouteNews) (thread : UfpdThread) (known : news.family ≠ .other) :
    (news.call thread).Valid := by
  unfold RouteNews.call
  split_ifs with new
  · exact known
  · exact trivial

/-- One message, which asks for no replacement if it is of the family. -/
theorem FibsFollow.learn {start thread : UfpdThread} {family : Family} {history : List RouteNews}
    (follow : FibsFollow start family history thread) (granted : (thread.learn news).heap.pool.refused = false)
    (repeats : news.family = family → news.Repeats start (routeMap start family history)) :
    FibsFollow start family (history ++ [news]) (thread.learn news) := by
  obtain ⟨stored, stored6, both, inet, inet6⟩ := follow.fibs
  have call : news.call thread = news.call start := by
    have route : news.route thread = news.route start := by
      simp only [RouteNews.route, UfpdThread.portIndex, UfpdThread.portOf, follow.ports, follow.tuns]
    rw [RouteNews.call, RouteNews.call, route]
  -- the map of another family than the message's
  have other : ∀ family, news.family ≠ family →
      routeMap start family (history ++ [news]) = routeMap start family history := fun family differs => by
    rw [routeMap_append, if_neg differs]
  unfold UfpdThread.learn at granted ⊢
  cases known : news.family with
  | inet =>
      rw [known] at granted other
      simp only [call] at granted ⊢
      obtain ⟨stored', ok', keeps, same, -⟩ := @FibOk.call ⟨thread.fibInet, thread.heap⟩ _ _ _
        both.first _ (news.call_valid start (by rw [known]; decide)) granted
      refine ⟨follow.ports, follow.tuns, stored', stored6, both.of_call ok' keeps, ?_, fun isInet6 => ?_⟩
      · rintro rfl
        rw [routeMap_append, if_pos known, (repeats known).apply_eq, ← inet rfl, ← same]
      · rw [other .inet6 nofun, inet6 isInet6]
  | inet6 =>
      rw [known] at granted other
      simp only [call] at granted ⊢
      obtain ⟨stored', ok', keeps, same, -⟩ := @FibOk.call ⟨thread.fibInet6, thread.heap⟩ _ _ _
        both.second _ (news.call_valid start (by rw [known]; decide)) granted
      refine ⟨follow.ports, follow.tuns, stored, stored', (both.symm.of_call ok' keeps).symm, fun isInet => ?_, ?_⟩
      · rw [other .inet nofun, inet isInet]
      · rintro rfl
        rw [routeMap_append, if_pos known, (repeats known).apply_eq, ← inet6 rfl, ← same]
  | other =>
      rw [known] at other
      refine ⟨follow.ports, follow.tuns, stored, stored6, both, fun isInet => ?_, fun isInet6 => ?_⟩
      · rw [other .inet nofun, inet isInet]
      · rw [other .inet6 nofun, inet6 isInet6]

theorem fibsFollow_run {start : UfpdThread} {family : Family} (follow : FibsFollow start family [] start)
    {history : List RouteNews} (steady : NoReplacement start family history)
    (granted : ∀ k, ((history.take k).foldl UfpdThread.learn start).heap.pool.refused = false) :
    FibsFollow start family history (history.foldl UfpdThread.learn start) := by
  induction history using List.reverseRecOn with
  | nil => exact follow
  | append_singleton history news ih =>
      have last := granted (history ++ [news]).length
      rw [List.take_length, List.foldl_concat] at last
      rw [List.foldl_concat]
      apply FibsFollow.learn _ last (steady history news [] rfl)
      apply ih
      · intro before other after split
        exact steady before other (after ++ [news]) (by rw [split]; simp)
      · intro k
        have earlier := granted (min k history.length)
        rwa [List.take_append_of_le_length (by omega), ← List.take_eq_take_min] at earlier

section Follow

variable {numPorts : Nat} {tunIndex : Nat → Int} {macaddr : Nat → Bytes} {heap : Heap}
  {thread : UfpdThread} {reads : List (List Msg)} {history : List RouteNews}

theorem listen_learn (heard : List.Forall₂ Msg.IsRoute reads.flatten history) :
    thread.listen reads = history.foldl UfpdThread.learn thread :=
  UfpdThread.listen_eq (fun _ _ formed => formed.ok)
    (fun _ _ formed => netlinkMessage_route formed) heard thread

theorem listen_take (heard : List.Forall₂ Msg.IsRoute reads.flatten history) (k : Nat) :
    thread.listen [reads.flatten.take k] = (history.take k).foldl UfpdThread.learn thread := by
  refine listen_learn ?_
  rw [List.flatten_singleton]
  exact List.forall₂_take k heard

/-- **The FIBs follow the kernel** in every run of reads in which no message of the FIB's
family asks for a replacement: a lookup finds the longest match of the route map. -/
theorem fib_follows_netlink (made : threadPrepare numPorts tunIndex macaddr heap = some thread)
    (heard : List.Forall₂ Msg.IsRoute reads.flatten history)
    (granted : ∀ k, (thread.listen [reads.flatten.take k]).heap.pool.refused = false)
    {family : Family} (steady : NoReplacement thread family history) {fib : Fib}
    (owned : (thread.listen reads).fib family = some fib) (dst : Bytes) :
    IsLongestMatch (routeMap thread family history) dst ⟨fib, (thread.listen reads).heap⟩
      (fibLookup fib dst) := by
  have start : FibsFollow thread family [] thread :=
    ⟨rfl, rfl, [], [], (threadPrepare_spec made).2.2, fun _ => rfl, fun _ => rfl⟩
  have follow := fibsFollow_run start steady fun k => listen_take heard k ▸ granted k
  rw [← listen_learn heard] at follow
  obtain ⟨stored, stored6, both, inet, inet6⟩ := follow.fibs
  cases family with
  | inet =>
      obtain rfl := Option.some.inj owned
      rw [← inet rfl]
      exact both.first.lookup dst
  | inet6 =>
      obtain rfl := Option.some.inj owned
      rw [← inet6 rfl]
      exact both.second.lookup dst
  | other => cases owned

end Follow

/-! ## A route that changes its gateway -/

/-- `10.1.2.0/24` out of interface 5, announced or deleted. -/
def sampleRouteNews (new : Bool) (gateway : UInt8) : RouteNews :=
  { new, family := .inet, len := 24, dst := some [10, 1, 2, 0], gateway := some [10, 0, 0, gateway]
    oif := some 5, isLocal := false }

def sampleRouteMsg (new : Bool) (gateway : UInt8) : Msg where
  type := if new then rtmNewroute else rtmDelroute
  flags := 0
  seq := 0
  pid := 0
  body := 2 :: 24 :: 0 :: 0 :: 254 :: [4, 0, 1, 0, 0, 0, 0]
  attrs := [⟨rtaDst, [10, 1, 2, 0]⟩, ⟨rtaGateway, [10, 0, 0, gateway]⟩, ⟨rtaOif, le32s 5⟩]

theorem sampleRouteMsg_formed (new : Bool) (gateway : UInt8) :
    (sampleRouteMsg new gateway).IsRoute (sampleRouteNews new gateway) where
  ok := by
    refine ⟨?_, rfl, ?_, ?_⟩
    · cases new
      · show rtmDelroute < 2 ^ 16
        decide
      · show rtmNewroute < 2 ^ 16
        decide
    · simp [sampleRouteMsg, Msg.len, Msg.payload, Attr.encode_length, le32s, le32, le16]
      decide
    · simp [sampleRouteMsg, Attr.Ok, rtaDst, rtaGateway, rtaOif, rtattrSize, le32s, le32, le16]
  type := rfl
  body := ⟨2, 24, 0, 0, 254, _, rfl, rfl, rfl, by
    show UInt8.toNat 254 = rtTableLocal ↔ false = true
    decide⟩
  len := by rintro _ ⟨⟩; exact Nat.le_of_ble_eq_true rfl
  dst := rfl
  dstSize := by rintro _ ⟨⟩; rfl
  gateway := rfl
  gatewaySize := by rintro _ ⟨⟩; rfl
  oif := rfl
  ifindex := by rintro _ ⟨⟩; decide

/-- Announced, deleted and announced with another gateway: the FIB has the new
one. -/
theorem fib_follows_netlink_sample :
    IsLongestMatch [(sampleRouteNews true 2).route sampleThread] (bytesAt [10, 1, 2, 3])
      ⟨(sampleThread.listen [[sampleRouteMsg true 1, sampleRouteMsg false 1],
        [sampleRouteMsg true 2]]).fibInet, (sampleThread.listen [[sampleRouteMsg true 1,
          sampleRouteMsg false 1], [sampleRouteMsg true 2]]).heap⟩
      (fibLookup (sampleThread.listen [[sampleRouteMsg true 1, sampleRouteMsg false 1],
        [sampleRouteMsg true 2]]).fibInet (bytesAt [10, 1, 2, 3])) := by
  have heard : List.Forall₂ Msg.IsRoute
      [[sampleRouteMsg true 1, sampleRouteMsg false 1], [sampleRouteMsg true 2]].flatten
      [sampleRouteNews true 1, sampleRouteNews false 1, sampleRouteNews true 2] :=
    .cons (sampleRouteMsg_formed _ _) (.cons (sampleRouteMsg_formed _ _)
      (.cons (sampleRouteMsg_formed _ _) .nil))
  have granted : ∀ k, (sampleThread.listen [[[sampleRouteMsg true 1, sampleRouteMsg false 1],
      [sampleRouteMsg true 2]].flatten.take k]).heap.pool.refused = false := by
    intro k
    rw [listen_take heard]
    match k with
    | 0 => decide +kernel
    | 1 => decide +kernel
    | 2 => decide +kernel
    | k + 3 =>
        rw [List.take_of_length_le (by simp)]
        decide +kernel
  have steady : NoReplacement sampleThread .inet
      [sampleRouteNews true 1, sampleRouteNews false 1, sampleRouteNews true 2] := by
    rintro (_ | ⟨_, _ | ⟨_, _ | ⟨_, before⟩⟩⟩) news after split _ new s member
    · cases member
    · obtain ⟨rfl, rfl, rfl⟩ : _ ∧ _ ∧ _ := by simpa using split
      cases new
    · obtain ⟨rfl, rfl, rfl, rfl⟩ : _ ∧ _ ∧ _ ∧ _ := by simpa using split
      cases member
    · simp at split
  exact @fib_follows_netlink _ _ _ _ _ _ _ sampleThread_made heard granted .inet steady _ rfl
    (bytesAt [10, 1, 2, 3])

/-- Announced twice with different gateways: the FIB keeps the first one. -/
theorem fib_replacement_lost :
    (sampleRouteMsg true 1).IsRoute (sampleRouteNews true 1) ∧
      (sampleRouteMsg true 2).IsRoute (sampleRouteNews true 2) ∧
      ¬ IsLongestMatch (routeMap sampleThread .inet [sampleRouteNews true 1, sampleRouteNews true 2])
        (bytesAt [10, 1, 2, 3])
        ⟨(sampleThread.listen [[sampleRouteMsg true 1], [sampleRouteMsg true 2]]).fibInet,
          (sampleThread.listen [[sampleRouteMsg true 1], [sampleRouteMsg true 2]]).heap⟩
        (fibLookup (sampleThread.listen [[sampleRouteMsg true 1],
          [sampleRouteMsg true 2]]).fibInet (bytesAt [10, 1, 2, 3])) := by
  have heard : List.Forall₂ Msg.IsRoute [[sampleRouteMsg true 1], [sampleRouteMsg true 2]].flatten
      [sampleRouteNews true 1, sampleRouteNews true 2] :=
    .cons (sampleRouteMsg_formed _ _) (.cons (sampleRouteMsg_formed _ _) .nil)
  refine ⟨sampleRouteMsg_formed _ _, sampleRouteMsg_formed _ _, ?_⟩
  rw [listen_learn heard]
  intro best
  have kept : (fibLookup ([sampleRouteNews true 1, sampleRouteNews true 2].foldl UfpdThread.learn
      sampleThread).fibInet (bytesAt [10, 1, 2, 3])).map (fun ptr =>
        (([sampleRouteNews true 1, sampleRouteNews true 2].foldl UfpdThread.learn
          sampleThread).heap.fibEntry ptr).nexthop 3) = some 1 := by
    decide +kernel
  obtain ⟨ptr, found, old⟩ := Option.map_eq_some_iff.mp kept
  obtain ⟨newer, r, older, split, holds, -⟩ := best.best ptr found
  have whole : ∀ r ∈ routeMap sampleThread .inet [sampleRouteNews true 1, sampleRouteNews true 2],
      r.family = .inet ∧ r.nexthop 3 = 2 := by
    decide +kernel
  obtain ⟨family, new⟩ := whole r (split ▸ List.mem_append_right _ List.mem_cons_self)
  have equal := (holds.bytes 4 (by rw [family]; rfl) 3 (by omega)).1
  rw [old, new] at equal
  exact absurd equal (by decide)

end Ufp.Daemon
