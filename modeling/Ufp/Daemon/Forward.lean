/-
# Ufp.Daemon.Forward — forwarding one packet, `src/forward.c`

A packet is the bytes of its slot: an Ethernet header of 14 bytes and the IP
header. `forward_ip_process` and `forward_ip6_process` look the destination up,
and either rewrite the packet and return a port, or return -1, after a copy to the
TAP device of the receiving port or without.

The hop count should go down by one with each forwarder and never reach 0. The
guard only knows the value 1, so a packet received with 0 is sent on with 255
(`hop_count_iff`).
-/
import Ufp.Daemon.Thread

namespace Ufp.Daemon

set_option autoImplicit false

/-! ## Looking the destination up -/

/-- Where the lookup of a destination leads: `packet_drop`, `packet_local`, or a
port and a neighbour. -/
inductive NextHop where
  | drop
  | tap
  | via (port : Nat) (entry : NeighEntry)

/-- The part that both families share, from `fib_lookup` on. -/
def nextHop (fib : Fib) (neigh : Nat → NeighTable) (heap : Heap) (dst : Bytes) : NextHop :=
  match fibLookup fib dst with
  | none => .drop
  | some ptr =>
      let fibEntry := heap.fibEntry ptr
      if fibEntry.portIndex < 0 then .tap
      else
        let port := fibEntry.portIndex.toNat
        let neighEntry := match fibEntry.type with
          | .localhost => none
          | .link => neighLookup (neigh port) dst
          | .forward => neighLookup (neigh port) fibEntry.nexthop
        match neighEntry with
        | none => .tap
        | some entry => .via port entry

/-! ## Headers -/

/-- `sizeof(struct ethhdr)`. -/
def ethHlen : Nat := 14

/-- `ip->ttl`. -/
def ipTtl (buf : Bytes) : Nat := (buf (ethHlen + 8)).toNat

/-- `ip->daddr`. -/
def ipDaddr (buf : Bytes) : Bytes := fun i => buf (ethHlen + 16 + i)

/-- `ip6->ip6_hlim`. -/
def ip6Hlim (buf : Bytes) : Nat := (buf (ethHlen + 7)).toNat

/-- `ip6->ip6_dst`. -/
def ip6Dst (buf : Bytes) : Bytes := fun i => buf (ethHlen + 24 + i)

/-- `IN6_IS_ADDR_LINKLOCAL`. -/
def isLinklocal (dst : Bytes) : Bool := dst 0 == 0xfe && dst 1 &&& 0xc0 == 0x80

/-- `htons` on a little-endian host. -/
def htons (n : Nat) : Nat := n % 2 ^ 8 * 2 ^ 8 + n / 2 ^ 8 % 2 ^ 8

/-- A 16-bit field in the order of the host. -/
def field16 (buf : Bytes) (i : Nat) : Nat := (buf i).toNat + (buf (i + 1)).toNat * 2 ^ 8

def setField16 (buf : Bytes) (i n : Nat) : Bytes :=
  Function.update (Function.update buf i (UInt8.ofNat n)) (i + 1) (UInt8.ofNat (n / 2 ^ 8))

/-- `memcpy` of `n` bytes to position `start`. -/
def copyTo (buf : Bytes) (start : Nat) (src : Bytes) (n : Nat) : Bytes :=
  fun i => if start ≤ i ∧ i < start + n then src (i - start) else buf i

/-- The new `ip->check`. -/
def checkUpdate (check : Nat) : Nat :=
  let check := check + htons 0x0100
  (check + if check ≥ 0xFFFF then 1 else 0) % 2 ^ 16

/-- `eth->h_dest` and `eth->h_source` of a packet that goes out. -/
def setMacs (buf dstMac srcMac : Bytes) : Bytes :=
  copyTo (copyTo buf 0 dstMac ethAlen) ethAlen srcMac ethAlen

/-! ## Forwarding -/

/-- What a forwarding function does: its return value, the packet, and whether it
wrote the packet to the TAP device. -/
structure Forwarded where
  ret : Int
  buf : Bytes
  toTap : Bool

/-- `forward_arp_process`. -/
def forwardArpProcess (buf : Bytes) : Forwarded := ⟨-1, buf, true⟩

/-- `forward_ip_process`. -/
def forwardIpProcess (thread : UfpdThread) (buf : Bytes) : Forwarded :=
  match nextHop thread.fibInet thread.neighInet thread.heap (ipDaddr buf) with
  | .drop => ⟨-1, buf, false⟩
  | .tap => ⟨-1, buf, true⟩
  | .via port entry =>
      if ipTtl buf = 1 then ⟨-1, buf, true⟩
      else
        let buf := Function.update buf (ethHlen + 8) (buf (ethHlen + 8) - 1)
        let buf := setField16 buf (ethHlen + 10) (checkUpdate (field16 buf (ethHlen + 10)))
        ⟨port, setMacs buf entry.dstMac (thread.macaddr port), false⟩

/-- `forward_ip6_process`. -/
def forwardIp6Process (thread : UfpdThread) (buf : Bytes) : Forwarded :=
  if isLinklocal (ip6Dst buf) then ⟨-1, buf, true⟩
  else
    match nextHop thread.fibInet6 thread.neighInet6 thread.heap (ip6Dst buf) with
    | .drop => ⟨-1, buf, false⟩
    | .tap => ⟨-1, buf, true⟩
    | .via port entry =>
        if ip6Hlim buf = 1 then ⟨-1, buf, true⟩
        else
          let buf := Function.update buf (ethHlen + 7) (buf (ethHlen + 7) - 1)
          ⟨port, setMacs buf entry.dstMac (thread.macaddr port), false⟩

/-! ## The outcomes -/

/-- The IPv4 packet that goes out. -/
def ipSent (buf dstMac srcMac : Bytes) : Bytes :=
  let buf := Function.update buf (ethHlen + 8) (buf (ethHlen + 8) - 1)
  let buf := setField16 buf (ethHlen + 10) (checkUpdate (field16 buf (ethHlen + 10)))
  setMacs buf dstMac srcMac

/-- The IPv6 packet that goes out. -/
def ip6Sent (buf dstMac srcMac : Bytes) : Bytes :=
  setMacs (Function.update buf (ethHlen + 7) (buf (ethHlen + 7) - 1)) dstMac srcMac

/-- The lookup leads to a port and a neighbour. -/
def NextHop.Forwards : NextHop → Prop
  | .via _ _ => True
  | _ => False

/-- Drop, TAP or a port: when each happens, and what is returned. -/
theorem forwardIpProcess_cases (thread : UfpdThread) (buf : Bytes) :
    let hop := nextHop thread.fibInet thread.neighInet thread.heap (ipDaddr buf)
    (hop = .drop ∧ forwardIpProcess thread buf = ⟨-1, buf, false⟩) ∨
    ((hop = .tap ∨ hop.Forwards ∧ ipTtl buf = 1) ∧ forwardIpProcess thread buf = ⟨-1, buf, true⟩) ∨
    ∃ port entry, hop = .via port entry ∧ ipTtl buf ≠ 1 ∧
      forwardIpProcess thread buf = ⟨port, ipSent buf entry.dstMac (thread.macaddr port), false⟩ := by
  dsimp only
  unfold forwardIpProcess
  cases nextHop thread.fibInet thread.neighInet thread.heap (ipDaddr buf) with
  | drop => exact .inl ⟨rfl, rfl⟩
  | tap => exact .inr (.inl ⟨.inl rfl, rfl⟩)
  | via port entry =>
      by_cases last : ipTtl buf = 1
      · exact .inr (.inl ⟨.inr ⟨trivial, last⟩, if_pos last⟩)
      · exact .inr (.inr ⟨port, entry, rfl, last, if_neg last⟩)

theorem forwardIp6Process_cases (thread : UfpdThread) (buf : Bytes) :
    let hop := nextHop thread.fibInet6 thread.neighInet6 thread.heap (ip6Dst buf)
    (isLinklocal (ip6Dst buf) = false ∧ hop = .drop ∧
      forwardIp6Process thread buf = ⟨-1, buf, false⟩) ∨
    ((isLinklocal (ip6Dst buf) = true ∨ hop = .tap ∨ hop.Forwards ∧ ip6Hlim buf = 1) ∧
      forwardIp6Process thread buf = ⟨-1, buf, true⟩) ∨
    ∃ port entry, isLinklocal (ip6Dst buf) = false ∧ hop = .via port entry ∧ ip6Hlim buf ≠ 1 ∧
      forwardIp6Process thread buf = ⟨port, ip6Sent buf entry.dstMac (thread.macaddr port), false⟩ := by
  dsimp only
  unfold forwardIp6Process
  cases isLinklocal (ip6Dst buf) with
  | true => exact .inr (.inl ⟨.inl rfl, rfl⟩)
  | false =>
      cases nextHop thread.fibInet6 thread.neighInet6 thread.heap (ip6Dst buf) with
      | drop => exact .inl ⟨rfl, rfl, rfl⟩
      | tap => exact .inr (.inl ⟨.inr (.inl rfl), rfl⟩)
      | via port entry =>
          by_cases last : ip6Hlim buf = 1
          · exact .inr (.inl ⟨.inr (.inr ⟨trivial, last⟩), if_pos last⟩)
          · exact .inr (.inr ⟨port, entry, rfl, rfl, last, if_neg last⟩)

/-! ## The hop count -/

/-- A packet sent on has one hop less to go, and at least one. -/
def HopLaw (hops : Bytes → Nat) (buf : Bytes) (done : Forwarded) : Prop :=
  0 ≤ done.ret → hops done.buf + 1 = hops buf ∧ 1 ≤ hops done.buf

theorem setMacs_apply {i : Nat} (buf dstMac srcMac : Bytes) (beyond : 2 * ethAlen ≤ i) :
    setMacs buf dstMac srcMac i = buf i := by
  unfold setMacs copyTo ethAlen at *
  rw [if_neg (by omega), if_neg (by omega)]

theorem setField16_apply {i j : Nat} (buf : Bytes) (n : Nat) (low : j ≠ i) (high : j ≠ i + 1) :
    setField16 buf i n j = buf j := by
  unfold setField16
  rw [Function.update_of_ne high, Function.update_of_ne low]

theorem ipSent_ttl (buf dstMac srcMac : Bytes) :
    ipTtl (ipSent buf dstMac srcMac) = (buf (ethHlen + 8) - 1).toNat := by
  show (setMacs _ _ _ _).toNat = _
  rw [setMacs_apply _ _ _ (by decide), setField16_apply _ _ (by decide) (by decide),
    Function.update_self]

theorem ip6Sent_hlim (buf dstMac srcMac : Bytes) :
    ip6Hlim (ip6Sent buf dstMac srcMac) = (buf (ethHlen + 7) - 1).toNat := by
  show (setMacs _ _ _ _).toNat = _
  rw [setMacs_apply _ _ _ (by decide), Function.update_self]

/-- The decrement of an 8-bit counter other than 1 is right unless it is 0. -/
theorem decrement_iff {b : UInt8} (guard : b.toNat ≠ 1) :
    ((b - 1).toNat + 1 = b.toNat ∧ 1 ≤ (b - 1).toNat) ↔ b.toNat ≠ 0 := by
  have small := b.toNat_lt
  have value : (b - 1).toNat = (b.toNat + 255) % 256 := by
    rw [UInt8.toNat_sub]
    simp only [UInt8.toNat_one]
    omega
  rw [value]
  omega

/-- A packet that is kept obeys the law. -/
theorem hopLaw_kept (hops : Bytes → Nat) (buf : Bytes) (toTap : Bool) :
    HopLaw hops buf ⟨-1, buf, toTap⟩ := by
  intro sent
  have negative : ¬ (0 : Int) ≤ -1 := by decide
  exact absurd sent negative

theorem forwardIpProcess_law (thread : UfpdThread) (buf : Bytes) :
    HopLaw ipTtl buf (forwardIpProcess thread buf) ↔ ipTtl buf ≠ 0 ∨
      ¬ (nextHop thread.fibInet thread.neighInet thread.heap (ipDaddr buf)).Forwards := by
  rcases forwardIpProcess_cases thread buf with ⟨hop, done⟩ | ⟨why, done⟩ | ⟨port, entry, hop, guard, done⟩
  · rw [done, hop]
    exact iff_of_true (hopLaw_kept _ _ _) (.inr id)
  · rw [done]
    refine iff_of_true (hopLaw_kept _ _ _) ?_
    rcases why with hop | ⟨-, last⟩
    · rw [hop]
      exact .inr id
    · exact .inl (by omega)
  · have natural : (0 : Int) ≤ port := Int.natCast_nonneg port
    rw [done, hop, HopLaw, forall_prop_of_true natural, ipSent_ttl, ipTtl, decrement_iff guard]
    simp [NextHop.Forwards]

theorem forwardIp6Process_law (thread : UfpdThread) (buf : Bytes) :
    HopLaw ip6Hlim buf (forwardIp6Process thread buf) ↔ ip6Hlim buf ≠ 0 ∨
      isLinklocal (ip6Dst buf) = true ∨
      ¬ (nextHop thread.fibInet6 thread.neighInet6 thread.heap (ip6Dst buf)).Forwards := by
  rcases forwardIp6Process_cases thread buf with
    ⟨wide, hop, done⟩ | ⟨why, done⟩ | ⟨port, entry, wide, hop, guard, done⟩
  · rw [done, hop]
    exact iff_of_true (hopLaw_kept _ _ _) (.inr (.inr id))
  · rw [done]
    refine iff_of_true (hopLaw_kept _ _ _) ?_
    rcases why with scope | hop | ⟨-, last⟩
    · exact .inr (.inl scope)
    · rw [hop]
      exact .inr (.inr id)
    · exact .inl (by omega)
  · have natural : (0 : Int) ≤ port := Int.natCast_nonneg port
    rw [done, hop, wide, HopLaw, forall_prop_of_true natural, ip6Sent_hlim, ip6Hlim, decrement_iff guard]
    simp [NextHop.Forwards]

/-! ## Chains of forwarders -/

/-- A packet is forwarded `n` times. Each forwarder has its own tables; between two
of them the hop count stays. -/
inductive Chain (process : UfpdThread → Bytes → Forwarded) (hops : Bytes → Nat) : Bytes → Nat → Prop
  | rest (buf : Bytes) : Chain process hops buf 0
  | hop {buf next : Bytes} {n : Nat} (thread : UfpdThread) (sent : 0 ≤ (process thread buf).ret)
      (same : hops next = hops (process thread buf).buf) (later : Chain process hops next n) :
      Chain process hops buf (n + 1)

/-- Each hop takes one off the count, which stays positive. -/
theorem Chain.bound {process : UfpdThread → Bytes → Forwarded} {hops : Bytes → Nat}
    (law : ∀ thread buf, hops buf ≠ 0 → HopLaw hops buf (process thread buf)) {buf : Bytes} {n : Nat}
    (chain : Chain process hops buf n) (start : hops buf ≠ 0) : n < hops buf := by
  induction chain with
  | rest buf => exact Nat.pos_of_ne_zero start
  | hop thread sent same _ ih =>
      obtain ⟨less, more⟩ := law thread _ start sent
      have later := ih (by omega)
      omega

/-- **The hop count goes down.** A packet that is sent on has one hop less to go,
and at least one, unless it came with none; so a packet that starts with a hop
count other than 0 is forwarded at most 254 times. -/
theorem hop_count_iff (thread : UfpdThread) (buf : Bytes) :
    (HopLaw ipTtl buf (forwardIpProcess thread buf) ↔ ipTtl buf ≠ 0 ∨
      ¬ (nextHop thread.fibInet thread.neighInet thread.heap (ipDaddr buf)).Forwards) ∧
    (HopLaw ip6Hlim buf (forwardIp6Process thread buf) ↔ ip6Hlim buf ≠ 0 ∨
      isLinklocal (ip6Dst buf) = true ∨
      ¬ (nextHop thread.fibInet6 thread.neighInet6 thread.heap (ip6Dst buf)).Forwards) ∧
    (∀ n, ipTtl buf ≠ 0 → Chain forwardIpProcess ipTtl buf n → n ≤ 254) ∧
    ∀ n, ip6Hlim buf ≠ 0 → Chain forwardIp6Process ip6Hlim buf n → n ≤ 254 := by
  refine ⟨forwardIpProcess_law thread buf, forwardIp6Process_law thread buf, ?_, ?_⟩
  · intro n start chain
    have bound := chain.bound (fun thread buf alive => (forwardIpProcess_law thread buf).mpr (.inl alive))
      start
    have byte : ipTtl buf < 256 := (buf (ethHlen + 8)).toNat_lt
    omega
  · intro n start chain
    have bound := chain.bound (fun thread buf alive => (forwardIp6Process_law thread buf).mpr (.inl alive))
      start
    have byte : ip6Hlim buf < 256 := (buf (ethHlen + 7)).toNat_lt
    omega

/-- A thread that has a route for `10.1.2.0/24` and the address of its gateway
`7.7.7.7`. -/
def sampleForwarder : UfpdThread :=
  let (_, fibInet, heap) := updateRoute sampleThread.fibInet
    { bytes := fun i => [10, 1, 2].getD i 0, len := 24, id := 5, family := .inet
      nexthop := fun _ => 7, portIndex := 0, type := .forward } sampleThread.heap
  let (_, table, heap) := neighAdd (sampleThread.neighInet 0) .inet (fun _ => 7) (fun _ => 3) heap
  { sampleThread with fibInet, neighInet := fun _ => table, heap }

/-- A packet to `10.1.2.3`. -/
def samplePacket (ttl : UInt8) : Bytes := fun i =>
  if i = ethHlen + 8 then ttl
  else if i < ethHlen + 16 then 0
  else [10, 1, 2, 3].getD (i - (ethHlen + 16)) 0

theorem hop_count_sample :
    HopLaw ipTtl (samplePacket 64) (forwardIpProcess sampleForwarder (samplePacket 64)) ∧
      Chain forwardIpProcess ipTtl (samplePacket 64) 1 ∧ 1 ≤ 254 := by
  have chain : Chain forwardIpProcess ipTtl (samplePacket 64) 1 :=
    .hop sampleForwarder (by decide +kernel) rfl (.rest _)
  obtain ⟨law, -, bound, -⟩ := hop_count_iff sampleForwarder (samplePacket 64)
  exact ⟨law.mpr (.inl (by decide)), chain, bound 1 (by decide) chain⟩

/-- A packet received with the hop count 0 is sent on with 255. -/
theorem hop_count_wraps :
    (forwardIpProcess sampleForwarder (samplePacket 0)).ret = 0 ∧
      ipTtl (forwardIpProcess sampleForwarder (samplePacket 0)).buf = 255 ∧
      ¬ HopLaw ipTtl (samplePacket 0) (forwardIpProcess sampleForwarder (samplePacket 0)) := by
  have sent : (forwardIpProcess sampleForwarder (samplePacket 0)).ret = 0 := by decide +kernel
  have ttl : ipTtl (forwardIpProcess sampleForwarder (samplePacket 0)).buf = 255 := by decide +kernel
  refine ⟨sent, ttl, fun law => ?_⟩
  have less := (law (le_of_eq sent.symm)).1
  rw [ttl] at less
  exact absurd less (by decide)

end Ufp.Daemon
