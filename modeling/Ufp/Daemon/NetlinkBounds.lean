/-
# Ufp.Daemon.NetlinkBounds — which bytes `netlink_process` touches

The three loops of `netlink.c` have one form: a test that the record at the pointer
fits what is left of an `int` length, then a step over it (`Records.walk`). Here the
pointer keeps its offset in the buffer, and lengths are computed as the macros do,
with their conversions between `int` and `unsigned int`. Every step shortens the
length, so the loops end; the walk visits the records that the model's loops visit
(`netlinkProcess_walk`, `rtaLoop_walk`).

`netlinkAccesses` lists every byte read and every copy to a local array.
`netlink_in_bounds_iff` says when they are all in bounds: the records are, but the
fields of a message that is shorter than its `struct rtmsg` or `struct ndmsg`, the
interface index of a short `RTA_OIF` and the arrays that long attributes are copied to
are not.
-/
import Ufp.Daemon.Netlink
import Ufp.Theory.CLibrary

namespace Ufp.Daemon

open Ufp.Theory.CLibrary

set_option autoImplicit false

/-! ## Pointers and lengths -/

/-- A pointer into the buffer: its offset, the bytes from there on, and the `int` that
says how many are left. -/
structure Cursor where
  off : Nat
  ptr : List UInt8
  len : Int
  fits : len < 2 ^ 31

/-- `NLMSG_ALIGN` and `RTA_ALIGN` of an `unsigned int`. -/
def alignU (len : Nat) : Nat := (len + 3) % 2 ^ 32 / 4 * 4

/-- `NLMSG_NEXT` and `RTA_NEXT` over a record of `size` bytes: the `int` length is
reduced in an `unsigned int`. -/
def Cursor.next (c : Cursor) (size : Nat) : Cursor where
  off := c.off + alignU size
  ptr := c.ptr.drop (alignU size)
  len := asInt (asUnsigned (c.len - alignU size))
  fits := (asInt_bounds (asUnsigned_bounds _)).2

/-- What may stand at a pointer: records that begin with their length. `ok` is the test
of the loop, and it finds the record longer than its header and no longer than what is
left. -/
structure Records where
  header : Nat
  size : List UInt8 → Nat
  ok : List UInt8 → Int → Bool
  headerPos : 0 < header
  bounds : ∀ {ptr len}, len < 2 ^ 31 → ok ptr len = true → header ≤ size ptr ∧ (size ptr : Int) ≤ len

/-- A step over a record that passed the test does not wrap around. -/
theorem Cursor.next_spec {c : Cursor} {size : Nat} (inside : (size : Int) ≤ c.len) :
    (c.next size).off = c.off + nlAlign size ∧ (c.next size).ptr = c.ptr.drop (nlAlign size) ∧
      (c.next size).len = c.len - nlAlign size := by
  have fits := c.fits
  have same : alignU size = nlAlign size := by
    unfold alignU nlAlign
    omega
  refine ⟨congrArg (c.off + ·) same, congrArg c.ptr.drop same, ?_⟩
  simp only [Cursor.next, same]
  unfold nlAlign
  exact asInt_asUnsigned (by omega) (by omega)

/-- The pointers at which the loop tests for a record; the last has none. -/
def Records.walk (r : Records) (c : Cursor) : List Cursor :=
  if _ : r.ok c.ptr c.len then c :: r.walk (c.next (r.size c.ptr)) else [c]
  termination_by c.len.toNat
  decreasing_by
    rename_i ok
    obtain ⟨long, inside⟩ := r.bounds c.fits ok
    have positive := r.headerPos
    have step := (Cursor.next_spec inside).2.2
    unfold nlAlign at step
    omega

namespace Records

variable {r : Records} {c d : Cursor}

/-- A round of the loop over a record of `size` bytes. -/
theorem walk_cons {size : Nat} (ok : r.ok c.ptr c.len = true) (record : r.size c.ptr = size) :
    r.walk c = c :: r.walk (c.next size) := by
  rw [walk, dif_pos ok, record]

theorem walk_stop (stop : ¬ r.ok c.ptr c.len = true) : r.walk c = [c] := by
  rw [walk, dif_neg stop]

theorem mem_walk_self (r : Records) (c : Cursor) : c ∈ r.walk c := by
  rw [walk]
  split <;> simp

/-- Every pointer of the walk has the same end. -/
theorem walk_end (member : d ∈ r.walk c) : (d.off : Int) + d.len = c.off + c.len := by
  fun_induction walk r c with
  | case1 c ok ih =>
      rcases List.mem_cons.mp member with rfl | member
      · rfl
      · obtain ⟨off, -, len⟩ := Cursor.next_spec (r.bounds c.fits ok).2
        rw [ih member, off, len]
        push_cast
        omega
  | case2 c => rw [List.mem_singleton.mp member]

/-- A walk takes at most one step for every `header` bytes. -/
theorem walk_length (r : Records) (c : Cursor) :
    r.header * ((r.walk c).length - 1) ≤ c.len.toNat := by
  fun_induction walk r c with
  | case1 c ok ih =>
      obtain ⟨long, inside⟩ := r.bounds c.fits ok
      have step := (Cursor.next_spec inside).2.2
      have some : 0 < (r.walk (c.next (r.size c.ptr))).length :=
        List.length_pos_of_mem (mem_walk_self r _)
      obtain ⟨n, count⟩ := Nat.exists_eq_add_one.mpr some
      rw [count, Nat.add_sub_cancel] at ih
      rw [List.length_cons, count, Nat.add_sub_cancel]
      have room : r.header + (c.next (r.size c.ptr)).len.toNat ≤ c.len.toNat := by
        unfold nlAlign at step
        omega
      rw [Nat.mul_add, Nat.mul_one]
      omega
  | case2 c => simp

end Records

/-! ## The loops of `netlink.c` -/

/-- The messages of the buffer: `NLMSG_OK` compares `nlmsg_len` with an `int` as an
`unsigned int`. -/
def nlmsgs : Records where
  header := nlmsgHdrlen
  size := nlmsgLen
  ok nlh len :=
    (nlmsgHdrlen : Int) ≤ len && nlmsgHdrlen ≤ nlmsgLen nlh && (nlmsgLen nlh : Int) ≤ asUnsigned len
  headerPos := by decide
  bounds := by
    intro nlh len fits ok
    simp only [Bool.and_eq_true, decide_eq_true_eq] at ok
    unfold asUnsigned at ok
    omega

/-- The attributes of a message: `RTA_OK` compares two `int`s. -/
def rtas : Records where
  header := rtattrSize
  size := rtaLen
  ok rta len := (rtattrSize : Int) ≤ len && rtattrSize ≤ rtaLen rta && (rtaLen rta : Int) ≤ len
  headerPos := by decide
  bounds := by
    intro rta len fits ok
    simp only [Bool.and_eq_true, decide_eq_true_eq] at ok
    exact ⟨ok.1.2, ok.2⟩

theorem nlmsgs_ok (nlh : List UInt8) {len : Int} (fits : len < 2 ^ 31) :
    nlmsgs.ok nlh len = nlmsgOk nlh len.toNat := by
  rw [Bool.eq_iff_iff, nlmsgOk_iff]
  simp only [nlmsgs, Bool.and_eq_true, decide_eq_true_eq]
  unfold asUnsigned nlmsgHdrlen
  omega

theorem rtas_ok (rta : List UInt8) (len : Int) : rtas.ok rta len = rtaOk rta len.toNat := by
  rw [Bool.eq_iff_iff, rtaOk_iff]
  simp only [rtas, Bool.and_eq_true, decide_eq_true_eq]
  unfold rtattrSize
  omega

/-- The walk over the messages is the loop of `netlink_process`. -/
theorem netlinkProcess_walk (thread : UfpdThread) (c : Cursor) :
    netlinkProcess thread c.ptr c.len.toNat =
      (nlmsgs.walk c).dropLast.foldl (fun thread m => netlinkMessage thread m.ptr) thread := by
  fun_induction Records.walk nlmsgs c generalizing thread with
  | case1 c ok ih =>
      obtain ⟨-, ptr, len⟩ := Cursor.next_spec (nlmsgs.bounds c.fits ok).2
      have left : c.len.toNat - nlAlign (nlmsgLen c.ptr) = (c.next (nlmsgs.size c.ptr)).len.toNat := by
        rw [len]
        exact (Int.toNat_sub' _ _).symm
      rw [netlinkProcess, dif_pos (nlmsgs_ok c.ptr c.fits ▸ ok), left]
      rw [List.dropLast_cons_of_ne_nil (List.ne_nil_of_mem (Records.mem_walk_self _ _)), List.foldl_cons, ← ih, ptr]
      rfl
  | case2 c stop =>
      rw [netlinkProcess, dif_neg (nlmsgs_ok c.ptr c.fits ▸ stop)]
      rfl

/-- The walk over the attributes is the loop of `netlink_route` and `netlink_neigh`. -/
theorem rtaLoop_walk {σ : Type} (f : σ → Nat → List UInt8 → Nat → σ) (s : σ) (c : Cursor) :
    rtaLoop f s c.ptr c.len.toNat = (rtas.walk c).dropLast.foldl
      (fun s a => f s (rtaType a.ptr) (a.ptr.drop rtattrSize) (rtaLen a.ptr - rtattrSize)) s := by
  fun_induction Records.walk rtas c generalizing s with
  | case1 c ok ih =>
      obtain ⟨-, ptr, len⟩ := Cursor.next_spec (rtas.bounds c.fits ok).2
      have left : c.len.toNat - nlAlign (rtaLen c.ptr) = (c.next (rtas.size c.ptr)).len.toNat := by
        rw [len]
        exact (Int.toNat_sub' _ _).symm
      rw [rtaLoop, dif_pos (rtas_ok c.ptr c.len ▸ ok), left]
      rw [List.dropLast_cons_of_ne_nil (List.ne_nil_of_mem (Records.mem_walk_self _ _)), List.foldl_cons, ← ih, ptr]
      rfl
  | case2 c stop =>
      rw [rtaLoop, dif_neg (rtas_ok c.ptr c.len ▸ stop)]
      rfl

/-! ## Accesses -/

/-- The local arrays that attributes are copied to. -/
inductive Target where
  | prefixBytes
  | nexthop
  | dstAddr
  | dstMac
  deriving DecidableEq

/-- `prefix[16]`, `nexthop[16]`, `dst_addr[16]` and `dst_mac[ETH_ALEN]`. -/
def Target.size : Target → Nat
  | .prefixBytes => 16
  | .nexthop => 16
  | .dstAddr => 16
  | .dstMac => 6

/-- Bytes of the buffer that are read, or copied to a local array. -/
inductive Access where
  | read (off len : Nat)
  | copy (dst : Target) (off len : Nat)
  deriving DecidableEq

/-- The bytes are among the first `readSize`, and what is copied fits its array. -/
def Access.InBounds (readSize : Int) : Access → Prop
  | .read off len => ((off + len : Nat) : Int) ≤ readSize
  | .copy dst off len => ((off + len : Nat) : Int) ≤ readSize ∧ len ≤ dst.size

/-- The `switch` of `netlink_route` on an attribute. -/
def routeCopies (type off payload : Nat) : List Access :=
  if type = rtaDst then [.copy .prefixBytes off payload]
  else if type = rtaGateway then [.copy .nexthop off payload]
  else if type = rtaOif then [.read off 4]
  else []

/-- The `switch` of `netlink_neigh` on an attribute. -/
def neighCopies (type off payload : Nat) : List Access :=
  if type = ndaDst then [.copy .dstAddr off payload]
  else if type = ndaLladdr then [.copy .dstMac off payload]
  else []

/-- One round of a loop over attributes. The test reads `rta_len` only if there is
room for a header. -/
def attrAccesses (copies : Nat → Nat → Nat → List Access) (a : Cursor) : List Access :=
  if (rtattrSize : Int) ≤ a.len then
    .read a.off 2 ::
      if rtas.ok a.ptr a.len then
        .read (a.off + 2) 2 :: copies (rtaType a.ptr) (a.off + rtattrSize) (rtaLen a.ptr - rtattrSize)
      else []
  else []

/-- The first attribute of a message: `RTM_RTA`, and `RTM_PAYLOAD` in an `int`. -/
def rtmRta (m : Cursor) : Cursor where
  off := m.off + nlmsgHdrlen + rtmsgSize
  ptr := (m.ptr.drop nlmsgHdrlen).drop rtmsgSize
  len := asInt (asUnsigned ((nlmsgLen m.ptr : Int) - (nlmsgHdrlen + rtmsgSize : Nat)))
  fits := (asInt_bounds (asUnsigned_bounds _)).2

def attributes (m : Cursor) : List Cursor := rtas.walk (rtmRta m)

theorem rtmRta_len {m : Cursor} (ok : nlmsgs.ok m.ptr m.len = true) :
    (rtmRta m).len = (nlmsgLen m.ptr : Int) - (nlmsgHdrlen + rtmsgSize : Nat) := by
  obtain ⟨long, short⟩ := nlmsgs.bounds m.fits ok
  have fits := m.fits
  simp only [nlmsgs] at long short
  exact asInt_asUnsigned (by unfold nlmsgHdrlen rtmsgSize; omega) (by omega)

/-- `netlink_route`: `rtm_family`, `rtm_dst_len`, the attributes and `rtm_table`. -/
def routeAccesses (m : Cursor) : List Access :=
  [.read (m.off + nlmsgHdrlen) 1, .read (m.off + nlmsgHdrlen + 1) 1] ++
    (attributes m).flatMap (attrAccesses routeCopies) ++ [.read (m.off + nlmsgHdrlen + 4) 1]

/-- `netlink_neigh`: `ndm_family` and `ndm_ifindex`, and if that is a port the attributes. -/
def neighAccesses (thread : UfpdThread) (m : Cursor) : List Access :=
  [.read (m.off + nlmsgHdrlen) 1, .read (m.off + nlmsgHdrlen + 4) 4] ++
    match thread.portOf (s32At (m.ptr.drop nlmsgHdrlen) 4) with
    | none => []
    | some _ => (attributes m).flatMap (attrAccesses neighCopies)

/-- The message goes to `netlink_route`, or to `netlink_neigh`. -/
def IsRoute (m : Cursor) : Prop := nlmsgType m.ptr = rtmNewroute ∨ nlmsgType m.ptr = rtmDelroute

def IsNeigh (m : Cursor) : Prop := nlmsgType m.ptr = rtmNewneigh ∨ nlmsgType m.ptr = rtmDelneigh

instance (m : Cursor) : Decidable (IsRoute m) := inferInstanceAs (Decidable (_ ∨ _))

instance (m : Cursor) : Decidable (IsNeigh m) := inferInstanceAs (Decidable (_ ∨ _))

/-- One round of `netlink_process`. -/
def messageAccesses (thread : UfpdThread) (m : Cursor) : List Access :=
  if (nlmsgHdrlen : Int) ≤ m.len then
    .read m.off 4 ::
      if nlmsgs.ok m.ptr m.len then
        .read (m.off + 4) 2 ::
          if IsRoute m then routeAccesses m else if IsNeigh m then neighAccesses thread m else []
      else []
  else []

/-- The accesses of `netlink_process`, less those that read a field again. The ports of
the thread stay as they are. -/
def netlinkAccesses (thread : UfpdThread) (start : Cursor) : List Access :=
  (nlmsgs.walk start).flatMap (messageAccesses thread)

/-! ## Messages without a long attribute -/

/-- No `RTA_DST` or `RTA_GATEWAY` is longer than an address, and the index of an
`RTA_OIF` is there. -/
@[mk_iff] structure RouteAttrFits (readSize : Int) (a : Cursor) : Prop where
  dst : rtaType a.ptr = rtaDst → rtaLen a.ptr ≤ rtattrSize + 16
  gateway : rtaType a.ptr = rtaGateway → rtaLen a.ptr ≤ rtattrSize + 16
  oif : rtaType a.ptr = rtaOif → ((a.off + rtattrSize + 4 : Nat) : Int) ≤ readSize

/-- No `NDA_DST` or `NDA_LLADDR` is longer than an address. -/
@[mk_iff] structure NeighAttrFits (a : Cursor) : Prop where
  dst : rtaType a.ptr = ndaDst → rtaLen a.ptr ≤ rtattrSize + 16
  lladdr : rtaType a.ptr = ndaLladdr → rtaLen a.ptr ≤ rtattrSize + 6

/-- The buffer does not end before `rtm_table`, and each attribute fits. -/
@[mk_iff] structure RouteFits (readSize : Int) (m : Cursor) : Prop where
  fields : ((m.off + nlmsgHdrlen + 5 : Nat) : Int) ≤ readSize
  attrs : ∀ a ∈ attributes m, rtas.ok a.ptr a.len = true → RouteAttrFits readSize a

/-- The buffer does not end before the end of `ndm_ifindex`, and each attribute fits if
it is looked at. -/
@[mk_iff] structure NeighFits (thread : UfpdThread) (readSize : Int) (m : Cursor) : Prop where
  fields : ((m.off + nlmsgHdrlen + 8 : Nat) : Int) ≤ readSize
  attrs : (thread.portOf (s32At (m.ptr.drop nlmsgHdrlen) 4)).isSome →
    ∀ a ∈ attributes m, rtas.ok a.ptr a.len = true → NeighAttrFits a

/-- What a message must keep to. -/
@[mk_iff] structure MessageFits (thread : UfpdThread) (readSize : Int) (m : Cursor) : Prop where
  route : IsRoute m → RouteFits readSize m
  neigh : IsNeigh m → NeighFits thread readSize m

section

variable {readSize : Int} {a m : Cursor}

/-- The headers of attributes are in bounds, and the rest is up to the `switch`. -/
theorem attrAccesses_iff {copies : Nat → Nat → Nat → List Access} {fits : Prop}
    (inside : (a.off : Int) + a.len ≤ readSize)
    (body : rtas.ok a.ptr a.len = true → ((∀ x ∈ copies (rtaType a.ptr) (a.off + rtattrSize)
      (rtaLen a.ptr - rtattrSize), x.InBounds readSize) ↔ fits)) :
    (∀ x ∈ attrAccesses copies a, x.InBounds readSize) ↔ (rtas.ok a.ptr a.len = true → fits) := by
  unfold attrAccesses
  split
  · rename_i room
    have header : (Access.read a.off 2).InBounds readSize ∧ (Access.read (a.off + 2) 2).InBounds readSize := by
      simp only [Access.InBounds]
      unfold rtattrSize at room
      omega
    rw [List.forall_mem_cons, and_iff_right header.1]
    split
    · rename_i ok
      rw [List.forall_mem_cons, and_iff_right header.2, body ok, forall_prop_of_true ok]
    · rename_i stop
      simp [stop]
  · rename_i short
    have stop : ¬ rtas.ok a.ptr a.len = true := by
      simp only [rtas, Bool.and_eq_true, decide_eq_true_eq]
      exact fun ok => short ok.1.1
    simp [stop]

section Attribute

variable (inside : (a.off : Int) + a.len ≤ readSize) (ok : rtas.ok a.ptr a.len = true)

include inside ok

/-- The payload of an attribute is in the buffer, and may be too long for an array. -/
theorem copy_inBounds_iff (dst : Target) :
    (Access.copy dst (a.off + rtattrSize) (rtaLen a.ptr - rtattrSize)).InBounds readSize ↔
      rtaLen a.ptr ≤ rtattrSize + dst.size := by
  obtain ⟨long, short⟩ := rtas.bounds a.fits ok
  simp only [rtas] at long short
  simp only [Access.InBounds]
  omega

theorem routeCopies_iff :
    (∀ x ∈ routeCopies (rtaType a.ptr) (a.off + rtattrSize) (rtaLen a.ptr - rtattrSize), x.InBounds readSize) ↔
      RouteAttrFits readSize a := by
  rw [routeAttrFits_iff, routeCopies]
  split_ifs with dst gateway oif
  · rw [List.forall_mem_singleton, copy_inBounds_iff inside ok]
    simp [dst, Target.size, rtaDst, rtaGateway, rtaOif]
  · rw [List.forall_mem_singleton, copy_inBounds_iff inside ok]
    simp [gateway, Target.size, rtaDst, rtaGateway, rtaOif]
  · simp [oif, Access.InBounds, rtaDst, rtaGateway, rtaOif]
  · simp [dst, gateway, oif]

theorem neighCopies_iff :
    (∀ x ∈ neighCopies (rtaType a.ptr) (a.off + rtattrSize) (rtaLen a.ptr - rtattrSize), x.InBounds readSize) ↔
      NeighAttrFits a := by
  rw [neighAttrFits_iff, neighCopies]
  split_ifs with dst lladdr
  · rw [List.forall_mem_singleton, copy_inBounds_iff inside ok]
    simp [dst, Target.size, ndaDst, ndaLladdr]
  · rw [List.forall_mem_singleton, copy_inBounds_iff inside ok]
    simp [lladdr, Target.size, ndaDst, ndaLladdr]
  · simp [dst, lladdr]

end Attribute

section Message

variable (inside : (m.off : Int) + m.len ≤ readSize) (ok : nlmsgs.ok m.ptr m.len = true)

include inside ok

/-- The attributes of a message end with the message. -/
theorem attributes_inside (member : a ∈ attributes m) : (a.off : Int) + a.len ≤ readSize := by
  have short : (nlmsgLen m.ptr : Int) ≤ m.len := (nlmsgs.bounds m.fits ok).2
  rw [Records.walk_end member, rtmRta_len ok]
  simp only [rtmRta]
  omega

theorem routeAccesses_iff : (∀ x ∈ routeAccesses m, x.InBounds readSize) ↔ RouteFits readSize m := by
  have attrs : (∀ x ∈ (attributes m).flatMap (attrAccesses routeCopies), x.InBounds readSize) ↔
      ∀ a ∈ attributes m, rtas.ok a.ptr a.len = true → RouteAttrFits readSize a := by
    rw [List.forall_mem_flatMap]
    refine forall₂_congr fun a member => ?_
    have within := attributes_inside inside ok member
    exact attrAccesses_iff within (routeCopies_iff within)
  rw [routeFits_iff, routeAccesses, List.forall_mem_append, List.forall_mem_append, attrs]
  simp only [List.forall_mem_cons, Access.InBounds]
  constructor
  · rintro ⟨⟨_, all⟩, last, -⟩
    exact ⟨last, all⟩
  · rintro ⟨fields, all⟩
    refine ⟨⟨⟨by omega, by omega, by simp⟩, all⟩, fields, by simp⟩

theorem neighAccesses_iff (thread : UfpdThread) :
    (∀ x ∈ neighAccesses thread m, x.InBounds readSize) ↔ NeighFits thread readSize m := by
  have attrs : (∀ x ∈ (attributes m).flatMap (attrAccesses neighCopies), x.InBounds readSize) ↔
      ∀ a ∈ attributes m, rtas.ok a.ptr a.len = true → NeighAttrFits a := by
    rw [List.forall_mem_flatMap]
    refine forall₂_congr fun a member => ?_
    have within := attributes_inside inside ok member
    exact attrAccesses_iff within (neighCopies_iff within)
  have fields : (∀ x ∈ [Access.read (m.off + nlmsgHdrlen) 1, .read (m.off + nlmsgHdrlen + 4) 4],
      x.InBounds readSize) ↔ ((m.off + nlmsgHdrlen + 8 : Nat) : Int) ≤ readSize := by
    simp only [List.forall_mem_cons, Access.InBounds]
    constructor
    · rintro ⟨_, last, -⟩
      exact last
    · intro last
      exact ⟨by omega, last, by simp⟩
  rw [neighFits_iff, neighAccesses, List.forall_mem_append, fields]
  refine and_congr_right fun _ => ?_
  split
  · rename_i none
    simp [none]
  · rename_i port some
    rw [attrs, some, Option.isSome_some, forall_prop_of_true rfl]

end Message

/-- One round of `netlink_process` stays in bounds exactly if the message fits. -/
theorem messageAccesses_iff (thread : UfpdThread) (inside : (m.off : Int) + m.len ≤ readSize) :
    (∀ x ∈ messageAccesses thread m, x.InBounds readSize) ↔
      (nlmsgs.ok m.ptr m.len = true → MessageFits thread readSize m) := by
  unfold messageAccesses
  split
  · rename_i room
    have header : (Access.read m.off 4).InBounds readSize ∧ (Access.read (m.off + 4) 2).InBounds readSize := by
      simp only [Access.InBounds]
      unfold nlmsgHdrlen at room
      omega
    rw [List.forall_mem_cons, and_iff_right header.1]
    split
    · rename_i ok
      rw [List.forall_mem_cons, and_iff_right header.2, forall_prop_of_true ok, messageFits_iff]
      by_cases route : IsRoute m
      · have other : ¬ IsNeigh m := by
          unfold IsRoute IsNeigh rtmNewroute rtmDelroute rtmNewneigh rtmDelneigh at *
          omega
        rw [if_pos route, routeAccesses_iff inside ok]
        simp [route, other]
      · rw [if_neg route]
        by_cases neigh : IsNeigh m
        · rw [if_pos neigh, neighAccesses_iff inside ok thread]
          simp [route, neigh]
        · rw [if_neg neigh]
          simp [route, neigh]
    · rename_i stop
      simp [stop]
  · rename_i short
    have stop : ¬ nlmsgs.ok m.ptr m.len = true := by
      simp only [nlmsgs, Bool.and_eq_true, decide_eq_true_eq]
      exact fun ok => short ok.1.1
    simp [stop]

end

/-- Every access of `netlink_process` is in bounds exactly if every message fits. -/
theorem netlinkAccesses_iff (thread : UfpdThread) (start : Cursor) (first : start.off = 0) :
    (∀ x ∈ netlinkAccesses thread start, x.InBounds start.len) ↔
      ∀ m ∈ nlmsgs.walk start, nlmsgs.ok m.ptr m.len = true → MessageFits thread start.len m := by
  rw [netlinkAccesses, List.forall_mem_flatMap]
  refine forall₂_congr fun m member => messageAccesses_iff thread ?_
  rw [Records.walk_end member, first]
  simp

/-- The attributes of a message are those the model's loop visits, one for every four
bytes at most. -/
theorem attributes_walk {m : Cursor} (ok : nlmsgs.ok m.ptr m.len = true) :
    (∀ {σ : Type} (f : σ → Nat → List UInt8 → Nat → σ) (s : σ),
      rtaLoop f s ((m.ptr.drop nlmsgHdrlen).drop rtmsgSize) (rtmPayload m.ptr) = (attributes m).dropLast.foldl
        (fun s a => f s (rtaType a.ptr) (a.ptr.drop rtattrSize) (rtaLen a.ptr - rtattrSize)) s) ∧
      rtattrSize * ((attributes m).length - 1) ≤ rtmPayload m.ptr := by
  have payload : (rtmRta m).len.toNat = rtmPayload m.ptr := by
    rw [rtmRta_len ok, rtmPayload]
    omega
  constructor
  · intro σ f s
    rw [← payload]
    exact rtaLoop_walk f s (rtmRta m)
  · rw [← payload]
    exact rtas.walk_length (rtmRta m)

/-- **Netlink parsing ends, and stays in bounds exactly if every message fits.** For
every buffer and every `read_size`: the loop over the messages takes at most one round
for every 16 bytes, and the loops over attributes one for every 4. All bytes read are
among the first `read_size` and all copies stay inside their arrays if and only if
each message the loop comes to is long enough for the fields that are read, each
address attribute is no longer than its array, and each `RTA_OIF` is followed by the
four bytes of an index. -/
theorem netlink_in_bounds_iff (thread : UfpdThread) (buf : List UInt8) (readSize : Int)
    (fits : readSize < 2 ^ 31) :
    let start : Cursor := ⟨0, buf, readSize, fits⟩
    (netlinkProcess thread buf readSize.toNat =
        (nlmsgs.walk start).dropLast.foldl (fun thread m => netlinkMessage thread m.ptr) thread ∧
      nlmsgHdrlen * ((nlmsgs.walk start).length - 1) ≤ readSize.toNat) ∧
    (∀ m ∈ nlmsgs.walk start, nlmsgs.ok m.ptr m.len = true →
      (∀ {σ : Type} (f : σ → Nat → List UInt8 → Nat → σ) (s : σ),
        rtaLoop f s ((m.ptr.drop nlmsgHdrlen).drop rtmsgSize) (rtmPayload m.ptr) = (attributes m).dropLast.foldl
          (fun s a => f s (rtaType a.ptr) (a.ptr.drop rtattrSize) (rtaLen a.ptr - rtattrSize)) s) ∧
        rtattrSize * ((attributes m).length - 1) ≤ rtmPayload m.ptr) ∧
    ((∀ x ∈ netlinkAccesses thread start, x.InBounds readSize) ↔
      ∀ m ∈ nlmsgs.walk start, nlmsgs.ok m.ptr m.len = true → MessageFits thread readSize m) := by
  intro start
  exact ⟨⟨netlinkProcess_walk thread start, nlmsgs.walk_length start⟩, fun m _ ok => attributes_walk ok,
    netlinkAccesses_iff thread start rfl⟩

/-- An `RTM_NEWROUTE` that ends with its `struct nlmsghdr`. -/
def shortMessage : List UInt8 := [16, 0, 0, 0, 24, 0, 0, 0, 0, 0, 0, 0, 0, 0, 0, 0]

/-- An `RTM_NEWROUTE` for IPv4 with an `RTA_DST` of 20 bytes. -/
def longAttribute : List UInt8 :=
  [52, 0, 0, 0, 24, 0, 0, 0, 0, 0, 0, 0, 0, 0, 0, 0] ++ [2, 32, 0, 0, 254, 0, 0, 0, 0, 0, 0, 0] ++
    [24, 0, 1, 0] ++ List.replicate 20 1

/-- An `RTM_NEWROUTE` of 10.1.2.0/24 through interface 3: an `RTA_DST` of 4 bytes and an
`RTA_OIF`. -/
def routeMessage : List UInt8 :=
  [44, 0, 0, 0, 24, 0, 0, 0, 0, 0, 0, 0, 0, 0, 0, 0] ++ [2, 24, 0, 0, 254, 0, 0, 0, 0, 0, 0, 0] ++
    [8, 0, 1, 0, 10, 1, 2, 0] ++ [8, 0, 4, 0, 3, 0, 0, 0]

/-- One message, then two attributes; the destination is copied, the index read, and all
of it is in bounds. -/
theorem netlink_in_bounds_iff_sample :
    let start : Cursor := ⟨0, routeMessage, 44, by decide⟩
    (nlmsgs.walk start).length = 2 ∧ (attributes start).length = 3 ∧
      Access.copy .prefixBytes 32 4 ∈ netlinkAccesses sampleThread start ∧
      Access.read 40 4 ∈ netlinkAccesses sampleThread start ∧
      ∀ x ∈ netlinkAccesses sampleThread start, x.InBounds 44 := by
  intro start
  have messages : nlmsgs.walk start = [start, start.next 44] := by
    rw [Records.walk_cons (by decide +kernel) (show _ = 44 by decide +kernel), Records.walk_stop (by decide +kernel)]
  have attrs : attributes start = [rtmRta start, (rtmRta start).next 8, ((rtmRta start).next 8).next 8] := by
    rw [attributes, Records.walk_cons (by decide +kernel) (show _ = 8 by decide +kernel),
      Records.walk_cons (by decide +kernel) (show _ = 8 by decide +kernel), Records.walk_stop (by decide +kernel)]
  have accesses : netlinkAccesses sampleThread start =
      [.read 0 4, .read 4 2, .read 16 1, .read 17 1, .read 28 2, .read 30 2, .copy .prefixBytes 32 4,
        .read 36 2, .read 38 2, .read 40 4, .read 20 1] := by
    rw [netlinkAccesses, messages]
    simp only [List.flatMap_cons, List.flatMap_nil, messageAccesses, routeAccesses, attrs]
    decide +kernel
  refine ⟨by rw [messages]; rfl, by rw [attrs]; rfl, by rw [accesses]; decide, by rw [accesses]; decide, ?_⟩
  refine (netlink_in_bounds_iff sampleThread routeMessage 44 (by decide)).2.2.mpr ?_
  rw [messages, List.forall_mem_cons, List.forall_mem_singleton]
  refine ⟨fun _ => ⟨fun _ => ⟨by decide, ?_⟩, fun neigh => absurd neigh (by decide +kernel)⟩,
    fun ok => absurd ok (by decide +kernel)⟩
  rw [attrs, List.forall_mem_cons, List.forall_mem_cons, List.forall_mem_singleton]
  simp only [routeAttrFits_iff]
  decide +kernel

/-- Of a route message of 16 bytes, fields behind its end are read; an `RTA_DST` of 20
bytes is copied to the 16 bytes of `prefix`. -/
theorem netlink_out_of_bounds :
    (¬ ∀ x ∈ netlinkAccesses sampleThread ⟨0, shortMessage, 16, by decide⟩, x.InBounds 16) ∧
      ¬ ∀ x ∈ netlinkAccesses sampleThread ⟨0, longAttribute, 52, by decide⟩, x.InBounds 52 := by
  constructor
  · intro all
    have fits := (netlinkAccesses_iff sampleThread _ rfl).mp all _ (Records.mem_walk_self _ _) (by decide)
    exact absurd (fits.route (by decide)).fields (by decide)
  · intro all
    have fits := (netlinkAccesses_iff sampleThread _ rfl).mp all _ (Records.mem_walk_self _ _) (by decide)
    have attr := (fits.route (by decide)).attrs _ (Records.mem_walk_self _ _) (by decide)
    exact absurd (attr.dst (by decide)) (by decide)

end Ufp.Daemon
