/-
# Ufp.Daemon.Netlink — reading the kernel's messages, `src/netlink.c`

`netlink_process` walks the messages of a read buffer; a route message updates
the FIB of its family, a neighbour message the table of its port and family. A
pointer into the buffer is the list of bytes from there on; numbers are
little-endian, as on the host. The macros are those of the Linux headers. Lengths
that the macros make negative are 0 here: both fail the test that reads them.

The arrays that attributes are copied to have no end here. A well-formed attribute
fits.
-/
import Ufp.Daemon.Thread

namespace Ufp.Daemon

set_option autoImplicit false

/-! ## Bytes -/

def u8At (buf : List UInt8) (i : Nat) : Nat := (buf.getD i 0).toNat

def u16At (buf : List UInt8) (i : Nat) : Nat := u8At buf i + u8At buf (i + 1) * 2 ^ 8

def u32At (buf : List UInt8) (i : Nat) : Nat := u16At buf i + u16At buf (i + 2) * 2 ^ 16

/-- A signed 32-bit number. -/
def s32At (buf : List UInt8) (i : Nat) : Int :=
  if u32At buf i < 2 ^ 31 then u32At buf i else u32At buf i - 2 ^ 32

/-- The bytes a pointer points to. -/
def bytesAt (buf : List UInt8) : Bytes := fun i => buf.getD i 0

/-! ## `linux/netlink.h` and `linux/rtnetlink.h` -/

/-- `NLMSG_ALIGN` and `RTA_ALIGN`. -/
def nlAlign (len : Nat) : Nat := (len + 3) / 4 * 4

/-- `NLMSG_HDRLEN`, the size of `struct nlmsghdr`. -/
def nlmsgHdrlen : Nat := 16

/-- The size of `struct rtmsg` and of `struct ndmsg`. -/
def rtmsgSize : Nat := 12

def nlmsgLen (nlh : List UInt8) : Nat := u32At nlh 0

def nlmsgType (nlh : List UInt8) : Nat := u16At nlh 4

/-- `NLMSG_OK`. -/
def nlmsgOk (nlh : List UInt8) (len : Nat) : Bool :=
  nlmsgHdrlen ≤ len && nlmsgHdrlen ≤ nlmsgLen nlh && nlmsgLen nlh ≤ len

theorem nlmsgOk_iff {nlh : List UInt8} {len : Nat} :
    nlmsgOk nlh len = true ↔ 16 ≤ len ∧ 16 ≤ nlmsgLen nlh ∧ nlmsgLen nlh ≤ len := by
  simp only [nlmsgOk, Bool.and_eq_true, decide_eq_true_eq, and_assoc]
  rfl

/-- `RTM_PAYLOAD`. -/
def rtmPayload (nlh : List UInt8) : Nat := nlmsgLen nlh - (nlmsgHdrlen + rtmsgSize)

/-- The size of `struct rtattr`. -/
def rtattrSize : Nat := 4

def rtaLen (rta : List UInt8) : Nat := u16At rta 0

def rtaType (rta : List UInt8) : Nat := u16At rta 2

/-- `RTA_OK`. -/
def rtaOk (rta : List UInt8) (len : Nat) : Bool :=
  rtattrSize ≤ len && rtattrSize ≤ rtaLen rta && rtaLen rta ≤ len

theorem rtaOk_iff {rta : List UInt8} {len : Nat} :
    rtaOk rta len = true ↔ 4 ≤ len ∧ 4 ≤ rtaLen rta ∧ rtaLen rta ≤ len := by
  simp only [rtaOk, Bool.and_eq_true, decide_eq_true_eq, and_assoc]
  rfl

/-- The loop over the attributes; `f` is the body's `switch`, on the type, the data
and the number of payload bytes. -/
def rtaLoop {σ : Type} (f : σ → Nat → List UInt8 → Nat → σ) (s : σ) (rta : List UInt8) (len : Nat) : σ :=
  if _ : rtaOk rta len then
    rtaLoop f (f s (rtaType rta) (rta.drop rtattrSize) (rtaLen rta - rtattrSize))
      (rta.drop (nlAlign (rtaLen rta))) (len - nlAlign (rtaLen rta))
  else s
  termination_by len
  decreasing_by
    rename_i ok
    obtain ⟨room, header, -⟩ := rtaOk_iff.mp ok
    unfold nlAlign
    omega

/-- `AF_INET` and `AF_INET6`. -/
def familyOf : Nat → Family
  | 2 => .inet
  | 10 => .inet6
  | _ => .other

def rtmNewroute : Nat := 24
def rtmDelroute : Nat := 25
def rtmNewneigh : Nat := 28
def rtmDelneigh : Nat := 29

def rtaDst : Nat := 1
def rtaOif : Nat := 4
def rtaGateway : Nat := 5

def ndaDst : Nat := 1
def ndaLladdr : Nat := 2

/-- `RT_TABLE_LOCAL`. -/
def rtTableLocal : Nat := 255

/-! ## Routes -/

/-- The locals of `netlink_route` that attributes are stored in. -/
@[ext] structure RouteAttrs where
  prefixBytes : Bytes := fun _ => 0
  nexthop : Bytes := fun _ => 0
  type : FibType := .link
  ifindex : Int := -1

/-- The `switch` of `netlink_route`. -/
def routeAttr (s : RouteAttrs) (type : Nat) (data : List UInt8) (payload : Nat) : RouteAttrs :=
  if type = rtaDst then { s with prefixBytes := memcpy s.prefixBytes (bytesAt data) payload }
  else if type = rtaGateway then
    { s with nexthop := memcpy s.nexthop (bytesAt data) payload, type := .forward }
  else if type = rtaOif then { s with ifindex := s32At data 0 }
  else s

section RouteAttr

variable (s : RouteAttrs) (type : Nat) (data : List UInt8) (payload : Nat)

theorem routeAttr_prefixBytes : (routeAttr s type data payload).prefixBytes =
    if type = rtaDst then memcpy s.prefixBytes (bytesAt data) payload else s.prefixBytes := by
  unfold routeAttr
  split_ifs <;> rfl

theorem routeAttr_nexthop : (routeAttr s type data payload).nexthop =
    if type = rtaGateway then memcpy s.nexthop (bytesAt data) payload else s.nexthop := by
  unfold routeAttr
  by_cases dst : type = rtaDst
  · rw [if_pos dst, if_neg (by simp [dst, rtaDst, rtaGateway])]
  · rw [if_neg dst]
    split_ifs <;> rfl

theorem routeAttr_type : (routeAttr s type data payload).type = if type = rtaGateway then .forward else s.type := by
  unfold routeAttr
  by_cases dst : type = rtaDst
  · rw [if_pos dst, if_neg (by simp [dst, rtaDst, rtaGateway])]
  · rw [if_neg dst]
    split_ifs <;> rfl

theorem routeAttr_ifindex :
    (routeAttr s type data payload).ifindex = if type = rtaOif then s32At data 0 else s.ifindex := by
  unfold routeAttr
  by_cases oif : type = rtaOif
  · rw [if_neg (by simp [oif, rtaDst, rtaOif]), if_neg (by simp [oif, rtaGateway, rtaOif]), if_pos oif, if_pos oif]
  · rw [if_neg oif, if_neg oif]
    split_ifs <;> rfl

end RouteAttr

/-- `netlink_route`. -/
def netlinkRoute (thread : UfpdThread) (nlh : List UInt8) : UfpdThread :=
  let routeEntry := nlh.drop nlmsgHdrlen
  let family := familyOf (u8At routeEntry 0)
  let prefixLen := u8At routeEntry 1
  let attrs := rtaLoop routeAttr {} (routeEntry.drop rtmsgSize) (rtmPayload nlh)
  let type := if u8At routeEntry 4 = rtTableLocal then .localhost else attrs.type
  let portIndex := thread.portIndex attrs.ifindex
  let update (fib : Fib) : Fib × Heap :=
    if nlmsgType nlh = rtmNewroute then
      (fibRouteUpdate fib family type attrs.prefixBytes prefixLen attrs.nexthop portIndex attrs.ifindex
        thread.heap).2
    else if nlmsgType nlh = rtmDelroute then
      (fibRouteDelete fib attrs.prefixBytes prefixLen attrs.ifindex thread.heap).2
    else (fib, thread.heap)
  match family with
  | .inet =>
      let (fibInet, heap) := update thread.fibInet
      { thread with fibInet, heap }
  | .inet6 =>
      let (fibInet6, heap) := update thread.fibInet6
      { thread with fibInet6, heap }
  | .other => thread

/-! ## Neighbours -/

/-- The locals of `netlink_neigh` that attributes are stored in. -/
structure NeighAttrs where
  dstAddr : Bytes := fun _ => 0
  dstMac : Bytes := fun _ => 0

/-- The `switch` of `netlink_neigh`. -/
def neighAttr (s : NeighAttrs) (type : Nat) (data : List UInt8) (payload : Nat) : NeighAttrs :=
  if type = ndaDst then { s with dstAddr := memcpy s.dstAddr (bytesAt data) payload }
  else if type = ndaLladdr then { s with dstMac := memcpy s.dstMac (bytesAt data) payload }
  else s

theorem neighAttr_dstAddr (s : NeighAttrs) (type : Nat) (data : List UInt8) (payload : Nat) :
    (neighAttr s type data payload).dstAddr =
      if type = ndaDst then memcpy s.dstAddr (bytesAt data) payload else s.dstAddr := by
  unfold neighAttr
  split_ifs <;> rfl

theorem neighAttr_dstMac (s : NeighAttrs) (type : Nat) (data : List UInt8) (payload : Nat) :
    (neighAttr s type data payload).dstMac =
      if type = ndaLladdr then memcpy s.dstMac (bytesAt data) payload else s.dstMac := by
  unfold neighAttr
  by_cases dst : type = ndaDst
  · rw [if_pos dst, if_neg (by simp [dst, ndaDst, ndaLladdr])]
  · rw [if_neg dst]
    split_ifs <;> rfl

/-- `netlink_neigh`. -/
def netlinkNeigh (thread : UfpdThread) (nlh : List UInt8) : UfpdThread :=
  let neighEntry := nlh.drop nlmsgHdrlen
  let family := familyOf (u8At neighEntry 0)
  match thread.portOf (s32At neighEntry 4) with
  | none => thread
  | some portIndex =>
      let attrs := rtaLoop neighAttr {} (neighEntry.drop rtmsgSize) (rtmPayload nlh)
      let update (neigh : NeighTable) : NeighTable × Heap :=
        if nlmsgType nlh = rtmNewneigh then
          (neighAdd neigh family attrs.dstAddr attrs.dstMac thread.heap).2
        else if nlmsgType nlh = rtmDelneigh then (neighDelete neigh attrs.dstAddr thread.heap).2
        else (neigh, thread.heap)
      match family with
      | .inet =>
          let (table, heap) := update (thread.neighInet portIndex)
          { thread with neighInet := Function.update thread.neighInet portIndex table, heap }
      | .inet6 =>
          let (table, heap) := update (thread.neighInet6 portIndex)
          { thread with neighInet6 := Function.update thread.neighInet6 portIndex table, heap }
      | .other => thread

/-! ## Messages -/

/-- The `switch` of `netlink_process`. -/
def netlinkMessage (thread : UfpdThread) (nlh : List UInt8) : UfpdThread :=
  if nlmsgType nlh = rtmNewroute ∨ nlmsgType nlh = rtmDelroute then netlinkRoute thread nlh
  else if nlmsgType nlh = rtmNewneigh ∨ nlmsgType nlh = rtmDelneigh then netlinkNeigh thread nlh
  else thread

/-- `netlink_process`. -/
def netlinkProcess (thread : UfpdThread) (readBuf : List UInt8) (readSize : Nat) : UfpdThread :=
  if _ : nlmsgOk readBuf readSize then
    netlinkProcess (netlinkMessage thread readBuf) (readBuf.drop (nlAlign (nlmsgLen readBuf)))
      (readSize - nlAlign (nlmsgLen readBuf))
  else thread
  termination_by readSize
  decreasing_by
    rename_i ok
    obtain ⟨room, header, -⟩ := nlmsgOk_iff.mp ok
    unfold nlAlign
    omega

end Ufp.Daemon
