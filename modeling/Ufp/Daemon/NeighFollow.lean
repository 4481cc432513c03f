/-
# Ufp.Daemon.NeighFollow — do the neighbour tables follow the kernel?

Runs of reads of well-formed `RTM_NEWNEIGH` and `RTM_DELNEIGH` messages. A table
should hold, for each address, what the last message about it said. It holds what
the *first* `RTM_NEWNEIGH` since the last `RTM_DELNEIGH` said: `neigh_add` refuses
an address that is bound. So it follows the kernel exactly as long as these two
messages carry the same link-layer address (`neigh_follows_netlink_iff`).
-/
import Ufp.Daemon.NetlinkWire
import Mathlib.Data.List.Induction

namespace Ufp.Daemon

open Ufp.Theory

set_option autoImplicit false

/-! ## What a message says -/

/-- A neighbour message: `RTM_NEWNEIGH` with its link-layer address, or
`RTM_DELNEIGH`. -/
structure NeighNews where
  family : Family
  ifindex : Int
  dst : List UInt8
  lladdr : Option (List UInt8)

/-- A well-formed message that says `news`. -/
structure Msg.IsNeigh (m : Msg) (news : NeighNews) : Prop where
  ok : m.Ok
  type : m.type = if news.lladdr.isSome then rtmNewneigh else rtmDelneigh
  body : ∃ (family : UInt8) (pad tail : List UInt8), pad.length = 3 ∧
    m.body = family :: (pad ++ (le32s news.ifindex ++ tail)) ∧ familyOf family.toNat = news.family
  ifindex : -2 ^ 31 ≤ news.ifindex ∧ news.ifindex < 2 ^ 31
  dst : Carries m.attrs ndaDst (some news.dst)
  size : news.family.bytes = some news.dst.length
  lladdr : ∀ mac, news.lladdr = some mac →
    Carries m.attrs ndaLladdr (some mac) ∧ mac.length = ethAlen

/-- What the message asks of its table. -/
def NeighNews.change (news : NeighNews) (neigh : NeighTable) (h : Heap) : NeighTable × Heap :=
  match news.lladdr with
  | some mac => (neighAdd neigh news.family (bytesAt news.dst) (bytesAt mac) h).2
  | none => (neighDelete neigh (bytesAt news.dst) h).2

def UfpdThread.setNeigh (thread : UfpdThread) (port : Nat) (family : Family) (table : NeighTable)
    (heap : Heap) : UfpdThread :=
  match family with
  | .inet => { thread with neighInet := Function.update thread.neighInet port table, heap }
  | .inet6 => { thread with neighInet6 := Function.update thread.neighInet6 port table, heap }
  | .other => thread

/-- The thread once it has handled the message. -/
def UfpdThread.hear (thread : UfpdThread) (news : NeighNews) : UfpdThread :=
  match thread.portOf news.ifindex with
  | none => thread
  | some port =>
      match thread.neigh port news.family with
      | none => thread
      | some neigh =>
          let (table, heap) := news.change neigh thread.heap
          thread.setNeigh port news.family table heap

variable {news : NeighNews} {m : Msg} {thread : UfpdThread} {n : Nat}

theorem neighAttr_fold (formed : m.IsNeigh news) (rest : List UInt8) :
    let attrs := rtaLoop neighAttr {} (m.payload ++ rest) m.payload.length
    attrs.dstAddr = bytesAt news.dst ∧ ∀ mac, news.lladdr = some mac → attrs.dstMac = bytesAt mac := by
  have loop : rtaLoop neighAttr {} (m.payload ++ rest) m.payload.length =
      m.attrs.foldl (fun s a => neighAttr s a.type a.payload a.payload.length) {} := by
    refine rtaLoop_encode neighAttr formed.ok.attrs (fun a _ s tail => ?_) {} rest
    unfold neighAttr
    simp only [memcpy_append]
  simp only [loop]
  refine ⟨?_, fun mac known => ?_⟩
  · rw [foldl_field _ NeighAttrs.dstAddr (fun old data => memcpy old (bytesAt data) data.length)
      (fun s a => neighAttr_dstAddr s _ _ _) formed.dst]
    exact memcpy_zero news.dst
  · rw [foldl_field _ NeighAttrs.dstMac (fun old data => memcpy old (bytesAt data) data.length)
      (fun s a => neighAttr_dstMac s _ _ _) (formed.lladdr mac known).1]
    exact memcpy_zero mac

/-- The fields of the header that `netlink_neigh` reads. -/
theorem Msg.IsNeigh.header (formed : m.IsNeigh news) (rest : List UInt8) :
    familyOf (u8At ((m.encode ++ rest).drop nlmsgHdrlen) 0) = news.family ∧
      s32At ((m.encode ++ rest).drop nlmsgHdrlen) 4 = news.ifindex := by
  obtain ⟨family, pad, tail, three, body, known⟩ := formed.body
  have entry : (m.encode ++ rest).drop nlmsgHdrlen =
      (family :: pad) ++ (le32s news.ifindex ++ (tail ++ (m.payload ++ rest))) := by
    rw [encode_drop_header, body]
    simp only [List.append_assoc, List.cons_append]
  have four : (family :: pad).length + 0 = 4 := by rw [List.length_cons, three]
  refine ⟨by rw [entry]; exact known, ?_⟩
  rw [entry, ← four, s32At_append_right]
  exact s32At_le32s formed.ifindex.1 formed.ifindex.2 _

/-- A neighbour message does what it says. -/
theorem netlinkMessage_neigh (formed : m.IsNeigh news) (rest : List UInt8) (thread : UfpdThread) :
    netlinkMessage thread (m.encode ++ rest) = thread.hear news := by
  have type : nlmsgType (m.encode ++ rest) =
      if news.lladdr.isSome then rtmNewneigh else rtmDelneigh :=
    (nlmsgType_encode formed.ok rest).trans formed.type
  obtain ⟨first, index⟩ := formed.header rest
  obtain ⟨dst, mac⟩ := neighAttr_fold formed rest
  have table : netlinkMessage thread (m.encode ++ rest) = netlinkNeigh thread (m.encode ++ rest) := by
    rw [netlinkMessage, type]
    split_ifs <;> simp_all [rtmNewroute, rtmDelroute, rtmNewneigh, rtmDelneigh]
  rw [table, netlinkNeigh]
  simp only [index, first, encode_drop_body formed.ok, rtmPayload_encode formed.ok, dst, type]
  unfold UfpdThread.hear
  cases thread.portOf news.ifindex with
  | none => rfl
  | some port =>
      have change : ∀ neigh : NeighTable,
          (if (if news.lladdr.isSome then rtmNewneigh else rtmDelneigh) = rtmNewneigh then
            (neighAdd neigh news.family (bytesAt news.dst)
              (rtaLoop neighAttr {} (m.payload ++ rest) m.payload.length).dstMac thread.heap).2
          else if (if news.lladdr.isSome then rtmNewneigh else rtmDelneigh) = rtmDelneigh then
            (neighDelete neigh (bytesAt news.dst) thread.heap).2
          else (neigh, thread.heap)) = news.change neigh thread.heap := by
        intro neigh
        unfold NeighNews.change
        cases told : news.lladdr with
        | none => rfl
        | some lladdr =>
            rw [mac lladdr told]
            rfl
      simp only [change]
      cases news.family <;> rfl

/-! ## Histories -/

section History

variable {α : Type}

/-- The link-layer addresses announced since the last deletion, in order. -/
def sinceDelete (events : List (Option α)) : List α :=
  events.foldl (fun since event => event.elim [] fun lladdr => since ++ [lladdr]) []

theorem sinceDelete_new (events : List (Option α)) (lladdr : α) :
    sinceDelete (events ++ [some lladdr]) = sinceDelete events ++ [lladdr] := by
  rw [sinceDelete, List.foldl_append]
  rfl

theorem sinceDelete_delete (events : List (Option α)) : sinceDelete (events ++ [none]) = [] := by
  rw [sinceDelete, List.foldl_append]
  rfl

/-- What the last message says is the last announcement since the last deletion. -/
theorem getLast?_sinceDelete (events : List (Option α)) :
    (sinceDelete events).getLast? = events.getLast?.join := by
  induction events using List.reverseRecOn with
  | nil => rfl
  | append_singleton events event _ =>
      cases event with
      | none => rw [sinceDelete_delete, List.getLast?_concat]; rfl
      | some lladdr => rw [sinceDelete_new, List.getLast?_concat, List.getLast?_concat]; rfl

theorem mem_sinceDelete {events : List (Option α)} {lladdr : α} (member : lladdr ∈ sinceDelete events) :
    some lladdr ∈ events := by
  induction events using List.reverseRecOn with
  | nil => cases member
  | append_singleton events event ih =>
      cases event with
      | none =>
          rw [sinceDelete_delete] at member
          cases member
      | some last =>
          rw [sinceDelete_new, List.mem_append] at member
          rcases member with old | new
          · exact List.mem_append_left _ (ih old)
          · rw [List.mem_singleton.mp new]
            exact List.mem_append_right _ List.mem_cons_self

end History

/-- The message is about an address at a port. -/
def NeighNews.About (thread : UfpdThread) (port : Nat) (family : Family) (dst : Bytes)
    (news : NeighNews) : Prop :=
  thread.portOf news.ifindex = some port ∧ news.family = family ∧
    AddrSame news.dst.length dst (bytesAt news.dst)

instance (thread : UfpdThread) (port : Nat) (family : Family) (dst : Bytes) :
    DecidablePred (NeighNews.About thread port family dst) :=
  fun _ => inferInstanceAs (Decidable (_ ∧ _ ∧ _))

/-- What the messages about an address at a port say, in order. -/
def neighEvents (thread : UfpdThread) (port : Nat) (family : Family) (dst : Bytes)
    (history : List NeighNews) : List (Option (List UInt8)) :=
  (history.filter fun news => news.About thread port family dst).map NeighNews.lladdr

/-- The tables after `history`: each address has the first link-layer address
announced since its last deletion. -/
structure NeighsHold (start : UfpdThread) (history : List NeighNews) (thread : UfpdThread) : Prop where
  ports : thread.numPorts = start.numPorts
  tuns : thread.tunIndex = start.tunIndex
  tables : ∀ {port family n}, port < start.numPorts → family.bytes = some n →
    ∃ neigh, thread.neigh port family = some neigh ∧ neigh.Ok n ∧
      (thread.heap.pool.refused = false → ∀ dst, neigh.mac dst =
        (sinceDelete (neighEvents start port family dst history)).head?.map
          fun lladdr => memcpy (fun _ => 0) (bytesAt lladdr) ethAlen)

theorem portOf_lt {ifindex : Int} {port : Nat} (found : thread.portOf ifindex = some port) : port < thread.numPorts :=
  List.mem_range.mp (List.mem_of_find?_eq_some found)

theorem UfpdThread.setNeigh_frame (thread : UfpdThread) (port : Nat) {family : Family} (size : family.bytes = some n)
    (table : NeighTable) (heap : Heap) :
    (thread.setNeigh port family table heap).numPorts = thread.numPorts ∧
      (thread.setNeigh port family table heap).tunIndex = thread.tunIndex ∧
      (thread.setNeigh port family table heap).heap = heap := by
  cases family with
  | inet => exact ⟨rfl, rfl, rfl⟩
  | inet6 => exact ⟨rfl, rfl, rfl⟩
  | other => cases size

/-- A message changes one table. -/
theorem UfpdThread.neigh_setNeigh (thread : UfpdThread) {port port' : Nat} {family family' : Family}
    (size : family.bytes = some n) (table : NeighTable) (heap : Heap) :
    (thread.setNeigh port family table heap).neigh port' family' =
      if port' = port ∧ family' = family then some table else thread.neigh port' family' := by
  cases family <;> cases family' <;> simp_all [UfpdThread.setNeigh, UfpdThread.neigh, Function.update_apply,
    Family.bytes, apply_ite]

theorem NeighNews.change_spec {neigh : NeighTable} (h : Heap) (ok : neigh.Ok n) (size : news.family.bytes = some n) :
    (news.change neigh h).1.Ok n ∧ ((news.change neigh h).2.pool.refused = false →
      h.pool.refused = false ∧ ∀ a, (news.change neigh h).1.mac a =
        if AddrSame n a (bytesAt news.dst) then news.lladdr.elim none fun lladdr =>
          (neigh.mac a).or (some (memcpy (fun _ => 0) (bytesAt lladdr) ethAlen))
        else neigh.mac a) := by
  unfold NeighNews.change
  cases news.lladdr with
  | none =>
      obtain ⟨ok', quiet, lookup⟩ := neighDelete_spec ok (bytesAt news.dst)
      exact ⟨ok', fun granted => ⟨quiet.symm.trans granted, lookup⟩⟩
  | some lladdr =>
      obtain ⟨ok', added⟩ := neighAdd_spec ok size (bytesAt news.dst) (bytesAt lladdr)
      refine ⟨ok', fun granted => ⟨(added granted).1, fun a => ?_⟩⟩
      rw [(added granted).2]
      split_ifs with same
      · rw [ok.mac_congr same]
        rfl
      · rfl

theorem neighEvents_append (thread : UfpdThread) (port : Nat) (family : Family) (dst : Bytes)
    (history : List NeighNews) (news : NeighNews) :
    neighEvents thread port family dst (history ++ [news]) =
      if news.About thread port family dst then neighEvents thread port family dst history ++ [news.lladdr]
      else neighEvents thread port family dst history := by
  unfold neighEvents
  rw [List.filter_append, List.map_append, List.filter_singleton]
  split_ifs with about <;> simp [about]

/-- One message. -/
theorem NeighsHold.hear {start : UfpdThread} {history : List NeighNews} (holds : NeighsHold start history thread)
    (size : news.family.bytes = some news.dst.length) : NeighsHold start (history ++ [news]) (thread.hear news) := by
  have resolve : thread.portOf news.ifindex = start.portOf news.ifindex := by
    unfold UfpdThread.portOf
    rw [holds.ports, holds.tuns]
  unfold UfpdThread.hear
  rw [resolve]
  cases found : start.portOf news.ifindex with
  | none =>
      refine ⟨holds.ports, holds.tuns, fun inside known => ?_⟩
      obtain ⟨neigh, here, ok, lookup⟩ := holds.tables inside known
      refine ⟨neigh, here, ok, fun granted dst => ?_⟩
      rw [neighEvents_append, if_neg, lookup granted]
      rintro ⟨port, -⟩
      rw [found] at port
      cases port
  | some port =>
      obtain ⟨neigh, here, ok, lookup⟩ := holds.tables (portOf_lt found) size
      obtain ⟨ok', changed⟩ := NeighNews.change_spec thread.heap ok size
      obtain ⟨ports, tuns, heap⟩ := thread.setNeigh_frame port size
        (news.change neigh thread.heap).1 (news.change neigh thread.heap).2
      simp only [here]
      refine ⟨ports.trans holds.ports, tuns.trans holds.tuns, ?_⟩
      intro port' family' n inside known
      rw [UfpdThread.neigh_setNeigh _ size, heap]
      by_cases same : port' = port ∧ family' = news.family
      · obtain ⟨rfl, rfl⟩ := same
        obtain rfl : news.dst.length = n := Option.some.inj (size.symm.trans known)
        refine ⟨_, if_pos ⟨rfl, rfl⟩, ok', ?_⟩
        intro granted dst
        obtain ⟨before, macs⟩ := changed granted
        rw [macs, neighEvents_append, lookup before]
        by_cases about : AddrSame news.dst.length dst (bytesAt news.dst)
        · rw [if_pos about, if_pos ⟨found, rfl, about⟩]
          cases news.lladdr with
          | none =>
              rw [sinceDelete_delete]
              rfl
          | some lladdr =>
              rw [sinceDelete_new, List.head?_append]
              cases (sinceDelete (neighEvents start port' news.family dst history)).head? <;> rfl
        · rw [if_neg about, if_neg fun all => about all.2.2]
      · obtain ⟨neigh', there, ok'', lookup'⟩ := holds.tables inside known
        refine ⟨neigh', (if_neg same).trans there, ok'', ?_⟩
        intro granted dst
        rw [neighEvents_append, if_neg, lookup' (changed granted).1]
        rintro ⟨other, family, -⟩
        exact same ⟨Option.some.inj (other.symm.trans found), family.symm⟩

/-- The tables a thread starts with are empty. -/
theorem neighsHold_start {numPorts : Nat} {tunIndex : Nat → Int} {macaddr : Nat → Bytes} {heap : Heap}
    (made : threadPrepare numPorts tunIndex macaddr heap = some thread) : NeighsHold thread [] thread := by
  obtain ⟨⟨ports, -⟩, fresh, -⟩ := threadPrepare_spec made
  refine ⟨rfl, rfl, ?_⟩
  intro port family n inside size
  rw [ports] at inside
  obtain ⟨⟨ok, none⟩, ok6, none6⟩ := fresh port inside
  cases family with
  | inet =>
      obtain rfl := Option.some.inj size
      exact ⟨_, rfl, ok, fun _ => none⟩
  | inet6 =>
      obtain rfl := Option.some.inj size
      exact ⟨_, rfl, ok6, fun _ => none6⟩
  | other => cases size

theorem neighsHold_run {start : UfpdThread} (holds : NeighsHold start [] start)
    {history : List NeighNews} (sizes : ∀ news ∈ history, news.family.bytes = some news.dst.length) :
    NeighsHold start history (history.foldl UfpdThread.hear start) := by
  induction history using List.reverseRecOn with
  | nil => exact holds
  | append_singleton history news ih =>
      rw [List.foldl_concat]
      refine NeighsHold.hear (ih fun other member => ?_) ?_
      · exact sizes other (List.mem_append_left _ member)
      · exact sizes news (List.mem_append_right _ List.mem_cons_self)

/-! ## Following the kernel -/

/-- A lookup finds an entry exactly if the last message is `RTM_NEWNEIGH`, and the
entry has the link-layer address of that message. -/
def Follows (found : Option NeighEntry) (events : List (Option (List UInt8))) : Prop :=
  (found.isSome ↔ ∃ lladdr, events.getLast? = some (some lladdr)) ∧
    ∀ entry lladdr, found = some entry → events.getLast? = some (some lladdr) →
      ∀ i < ethAlen, entry.dstMac i = bytesAt lladdr i

/-- A lookup that finds the first announcement follows the kernel if that is also
the last one. -/
theorem follows_iff {found : Option NeighEntry} {events : List (Option (List UInt8))}
    (first : found.map NeighEntry.dstMac = (sinceDelete events).head?.map
      fun lladdr => memcpy (fun _ => 0) (bytesAt lladdr) ethAlen)
    (lengths : ∀ lladdr, some lladdr ∈ events → lladdr.length = ethAlen) :
    Follows found events ↔ (sinceDelete events).head? = (sinceDelete events).getLast? := by
  have said : ∀ lladdr, events.getLast? = some (some lladdr) ↔
      (sinceDelete events).getLast? = some lladdr := by
    intro lladdr
    rw [getLast?_sinceDelete, Option.join_eq_some_iff]
  unfold Follows
  simp only [said]
  cases since : sinceDelete events with
  | nil =>
      rw [since] at first
      obtain rfl : found = none := Option.map_eq_none_iff.mp first
      simp
  | cons earliest later =>
      rw [since] at first
      obtain ⟨entry, rfl, mac⟩ := Option.map_eq_some_iff.mp first
      obtain ⟨latest, last⟩ : ∃ latest, (earliest :: later).getLast? = some latest :=
        ⟨_, List.getLast?_eq_some_getLast (List.cons_ne_nil _ _)⟩
      have six : ∀ lladdr ∈ earliest :: later, lladdr.length = ethAlen := by
        intro lladdr member
        exact lengths lladdr (mem_sinceDelete (since ▸ member))
      have copied : ∀ i < ethAlen, entry.dstMac i = bytesAt earliest i := by
        intro i small
        rw [mac]
        exact if_pos small
      rw [last]
      constructor
      · rintro ⟨-, bytes⟩
        have same := bytes entry latest rfl rfl
        refine congrArg some (List.ext_getElem ?_ fun i inside inside' => ?_)
        · rw [six earliest List.mem_cons_self, six latest (List.mem_of_getLast? last)]
        · have small : i < ethAlen := six earliest List.mem_cons_self ▸ inside
          have equal := (copied i small).symm.trans (same i small)
          rwa [bytesAt, bytesAt, List.getD_eq_getElem _ _ inside,
            List.getD_eq_getElem _ _ inside'] at equal
      · intro equal
        obtain rfl : earliest = latest := Option.some.inj equal
        refine ⟨by simp, ?_⟩
        intro other lladdr hit here i small
        obtain rfl := Option.some.inj hit
        obtain rfl := Option.some.inj here
        exact copied i small

section Follow

variable {numPorts : Nat} {tunIndex : Nat → Int} {macaddr : Nat → Bytes} {heap : Heap}
  {thread : UfpdThread} {reads : List (List Msg)} {history : List NeighNews} {port : Nat}
  {family : Family}

theorem formed_of_heard {msgs : List Msg} (heard : List.Forall₂ Msg.IsNeigh msgs history) (member : news ∈ history) :
    ∃ m : Msg, m.IsNeigh news := by
  obtain ⟨i, small, rfl⟩ := List.getElem_of_mem member
  exact ⟨_, heard.get (heard.length_eq ▸ small) small⟩

theorem listen_hear (heard : List.Forall₂ Msg.IsNeigh reads.flatten history) :
    thread.listen reads = history.foldl UfpdThread.hear thread :=
  UfpdThread.listen_eq (fun _ _ formed => formed.ok)
    (fun _ _ formed => netlinkMessage_neigh formed) heard thread

/-- After a run of reads a lookup finds the first announcement since the last
deletion. -/
theorem neighLookup_listen (made : threadPrepare numPorts tunIndex macaddr heap = some thread)
    (heard : List.Forall₂ Msg.IsNeigh reads.flatten history)
    (granted : (thread.listen reads).heap.pool.refused = false)
    (inside : port < numPorts) (known : family ≠ .other) (dst : Bytes) :
    ∃ neigh, (thread.listen reads).neigh port family = some neigh ∧
      (neighLookup neigh dst).map NeighEntry.dstMac =
        (sinceDelete (neighEvents thread port family dst history)).head?.map
          fun lladdr => memcpy (fun _ => 0) (bytesAt lladdr) ethAlen := by
  obtain ⟨n, size⟩ : ∃ n, family.bytes = some n := by
    cases family with
    | inet => exact ⟨4, rfl⟩
    | inet6 => exact ⟨16, rfl⟩
    | other => exact absurd rfl known
  have holds := neighsHold_run (neighsHold_start made) fun news member =>
    (formed_of_heard heard member).elim fun _ formed => formed.size
  rw [listen_hear heard] at granted ⊢
  obtain ⟨neigh, here, -, lookup⟩ := holds.tables ((threadPrepare_spec made).1.1 ▸ inside) size
  exact ⟨neigh, here, lookup granted dst⟩

/-- **The neighbour tables follow the kernel** as far as the first and the last
announcement since the last deletion of an address agree, and no further. -/
theorem neigh_follows_netlink_iff (made : threadPrepare numPorts tunIndex macaddr heap = some thread)
    (heard : List.Forall₂ Msg.IsNeigh reads.flatten history)
    (granted : (thread.listen reads).heap.pool.refused = false)
    (inside : port < numPorts) (known : family ≠ .other) (dst : Bytes) :
    ∃ neigh, (thread.listen reads).neigh port family = some neigh ∧
      (Follows (neighLookup neigh dst) (neighEvents thread port family dst history) ↔
        (sinceDelete (neighEvents thread port family dst history)).head? =
          (sinceDelete (neighEvents thread port family dst history)).getLast?) := by
  obtain ⟨neigh, here, first⟩ := neighLookup_listen made heard granted inside known dst
  refine ⟨neigh, here, follows_iff first ?_⟩
  intro lladdr member
  obtain ⟨news, about, told⟩ := List.mem_map.mp member
  obtain ⟨m, formed⟩ := formed_of_heard heard (List.mem_filter.mp about).1
  exact (formed.lladdr lladdr told).2

end Follow

/-! ## A neighbour that changes its address -/

/-- What the kernel says about `10.0.0.1` on interface 5. -/
def sampleNeigh (lladdr : Option (List UInt8)) : NeighNews := ⟨.inet, 5, [10, 0, 0, 1], lladdr⟩

def sampleNeighMsg (lladdr : Option (List UInt8)) : Msg where
  type := if lladdr.isSome then rtmNewneigh else rtmDelneigh
  flags := 0
  seq := 0
  pid := 0
  body := 2 :: ([0, 0, 0] ++ (le32s 5 ++ [2, 0, 0, 1]))
  attrs := ⟨ndaDst, [10, 0, 0, 1]⟩ :: (lladdr.map (Attr.mk ndaLladdr)).toList

theorem sampleNeighMsg_formed {lladdr : Option (List UInt8)}
    (six : ∀ mac, lladdr = some mac → mac.length = ethAlen) :
    (sampleNeighMsg lladdr).IsNeigh (sampleNeigh lladdr) where
  ok := by
    cases lladdr with
    | none => exact ⟨by decide, rfl, by decide, by simp [sampleNeighMsg, Attr.Ok, ndaDst, rtattrSize]⟩
    | some mac =>
        have long := six mac rfl
        refine ⟨?_, rfl, ?_, ?_⟩
        · show rtmNewneigh < 2 ^ 16
          decide
        · simp [sampleNeighMsg, Msg.len, Msg.payload, Attr.encode_length, long]
          decide
        · simp [sampleNeighMsg, Attr.Ok, ndaDst, ndaLladdr, rtattrSize, long, ethAlen]
  type := rfl
  body := ⟨2, [0, 0, 0], [2, 0, 0, 1], rfl, rfl, rfl⟩
  ifindex := by
    show -2 ^ 31 ≤ (5 : Int) ∧ (5 : Int) < 2 ^ 31
    decide
  dst := by cases lladdr <;> rfl
  size := rfl
  lladdr := by
    rintro mac rfl
    exact ⟨rfl, six mac rfl⟩

/-- Announced, deleted and announced anew: the table has the new address. -/
theorem neigh_follows_netlink_sample :
    ∃ neigh, (sampleThread.listen
        [[sampleNeighMsg (some [1, 1, 1, 1, 1, 1]), sampleNeighMsg none],
          [sampleNeighMsg (some [2, 2, 2, 2, 2, 2])]]).neigh 0 .inet = some neigh ∧
      Follows (neighLookup neigh (bytesAt [10, 0, 0, 1]))
        [some [1, 1, 1, 1, 1, 1], none, some [2, 2, 2, 2, 2, 2]] := by
  have heard : List.Forall₂ Msg.IsNeigh
      [[sampleNeighMsg (some [1, 1, 1, 1, 1, 1]), sampleNeighMsg none],
        [sampleNeighMsg (some [2, 2, 2, 2, 2, 2])]].flatten
      [sampleNeigh (some [1, 1, 1, 1, 1, 1]), sampleNeigh none,
        sampleNeigh (some [2, 2, 2, 2, 2, 2])] :=
    .cons (sampleNeighMsg_formed (by rintro _ ⟨⟩; rfl))
      (.cons (sampleNeighMsg_formed (by rintro _ ⟨⟩))
        (.cons (sampleNeighMsg_formed (by rintro _ ⟨⟩; rfl)) .nil))
  have known : Family.inet ≠ .other := by decide
  obtain ⟨neigh, here, follows⟩ := neigh_follows_netlink_iff sampleThread_made heard
    (by rw [listen_hear heard]; decide +kernel) Nat.zero_lt_one known (bytesAt [10, 0, 0, 1])
  exact ⟨neigh, here, follows.mpr (by decide +kernel)⟩

/-- Announced twice with different addresses: the table keeps the first one. -/
theorem neigh_change_ignored :
    (sampleNeighMsg (some [1, 1, 1, 1, 1, 1])).IsNeigh (sampleNeigh (some [1, 1, 1, 1, 1, 1])) ∧
      (sampleNeighMsg (some [2, 2, 2, 2, 2, 2])).IsNeigh (sampleNeigh (some [2, 2, 2, 2, 2, 2])) ∧
      ∃ neigh, (sampleThread.listen [[sampleNeighMsg (some [1, 1, 1, 1, 1, 1])],
          [sampleNeighMsg (some [2, 2, 2, 2, 2, 2])]]).neigh 0 .inet = some neigh ∧
        ¬ Follows (neighLookup neigh (bytesAt [10, 0, 0, 1]))
          (neighEvents sampleThread 0 .inet (bytesAt [10, 0, 0, 1])
            [sampleNeigh (some [1, 1, 1, 1, 1, 1]), sampleNeigh (some [2, 2, 2, 2, 2, 2])]) := by
  have old : (sampleNeighMsg (some [1, 1, 1, 1, 1, 1])).IsNeigh _ :=
    sampleNeighMsg_formed (by rintro _ ⟨⟩; rfl)
  have new : (sampleNeighMsg (some [2, 2, 2, 2, 2, 2])).IsNeigh _ :=
    sampleNeighMsg_formed (by rintro _ ⟨⟩; rfl)
  have heard : List.Forall₂ Msg.IsNeigh [[sampleNeighMsg (some [1, 1, 1, 1, 1, 1])],
      [sampleNeighMsg (some [2, 2, 2, 2, 2, 2])]].flatten _ := .cons old (.cons new .nil)
  have known : Family.inet ≠ .other := by decide
  obtain ⟨neigh, here, first⟩ := neighLookup_listen sampleThread_made heard
    (by rw [listen_hear heard]; decide +kernel) Nat.zero_lt_one known (bytesAt [10, 0, 0, 1])
  have events : neighEvents sampleThread 0 .inet (bytesAt [10, 0, 0, 1])
      [sampleNeigh (some [1, 1, 1, 1, 1, 1]), sampleNeigh (some [2, 2, 2, 2, 2, 2])] =
        [some [1, 1, 1, 1, 1, 1], some [2, 2, 2, 2, 2, 2]] := by
    decide +kernel
  rw [events] at first
  obtain ⟨entry, found, mac⟩ := Option.map_eq_some_iff.mp first
  refine ⟨old, new, neigh, here, ?_⟩
  rw [events]
  rintro ⟨-, bytes⟩
  have second := bytes entry [2, 2, 2, 2, 2, 2] found rfl 0 (by decide)
  rw [mac] at second
  exact absurd second (by decide)

end Ufp.Daemon
