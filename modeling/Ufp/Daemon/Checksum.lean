/-
# Ufp.Daemon.Checksum — the header checksum of a forwarded packet

`forward_ip_process` does not compute the checksum of the changed header. It adds
`htons(0x0100)` to the field as the host reads it, with a carry from 0xFFFF on.
The header is read here as RFC 1071 does, as big-endian words over the whole of
its `ihl`, options included; on those the update is the word 0x0100, one unit of
TTL. `checksum_incremental_iff` says that the field then is the checksum of the new
header, if it was right before, and that a wrong one stays as wrong as it was unless
the packet came in with a TTL of 0. That TTL goes out as 255, and the residue moves
by one (`ipSent_residue_wrapped`).
-/
import Ufp.Daemon.Forward
import Ufp.Theory.OnesComplement

namespace Ufp.Daemon

open Ufp.Theory

set_option autoImplicit false

/-! ## The header as words -/

/-- `ip->ihl`, the length of the header in units of four bytes. -/
def ipIhl (buf : Bytes) : Nat := (buf ethHlen).toNat % 2 ^ 4

/-- The 16-bit word at position `i`, in network order. -/
def beWord (buf : Bytes) (i : Nat) : Nat := (buf i).toNat * 2 ^ 8 + (buf (i + 1)).toNat

/-- Word `k` of the IP header. -/
def ipWord (buf : Bytes) (k : Nat) : Nat := beWord buf (ethHlen + 2 * k)

/-- The words of the IP header. -/
def ipHeader (buf : Bytes) : List Nat := (List.range (2 * ipIhl buf)).map (ipWord buf)

/-- The TTL is the high byte of this word. -/
def ttlWord : Nat := 4

/-- The checksum is this word. -/
def checkWord : Nat := 5

/-- The header with its checksum field set to 0. -/
def ipUnchecked (buf : Bytes) : List Nat :=
  (List.range (2 * ipIhl buf)).map (Function.update (ipWord buf) checkWord 0)

/-- The RFC 1071 checksum of the header, from scratch. -/
def ipChecksum (buf : Bytes) : Nat := OnesComplement.checksum 16 (ipUnchecked buf)

/-- The one's-complement sum of the header is 0xFFFF. -/
def ChecksumValid (buf : Bytes) : Prop := OnesComplement.sum 16 (ipHeader buf) = 0xFFFF

instance (buf : Bytes) : Decidable (ChecksumValid buf) :=
  inferInstanceAs (Decidable (OnesComplement.sum 16 (ipHeader buf) = 0xFFFF))

/-- The residue of the header. -/
def ipResidue (buf : Bytes) : Nat := (ipHeader buf).sum % 0xFFFF

/-! ## Byte order -/

theorem beWord_lt (buf : Bytes) (i : Nat) : beWord buf i < 2 ^ 16 := by
  have high := (buf i).toNat_lt
  have low := (buf (i + 1)).toNat_lt
  unfold beWord
  omega

/-- A field in network order is the field of the host with its bytes swapped. -/
theorem beWord_eq_htons (buf : Bytes) (i : Nat) : beWord buf i = htons (field16 buf i) := by
  have high := (buf i).toNat_lt
  have low := (buf (i + 1)).toNat_lt
  unfold beWord htons field16
  omega

theorem field16_setField16 (buf : Bytes) (i : Nat) {n : Nat} (short : n < 2 ^ 16) :
    field16 (setField16 buf i n) i = n := by
  have ne : i ≠ i + 1 := (Nat.succ_ne_self i).symm
  unfold field16 setField16
  rw [Function.update_of_ne ne, Function.update_self, Function.update_self, UInt8.toNat_ofNat',
    UInt8.toNat_ofNat']
  omega

/-- Swapping bytes is a multiplication by 256, up to the modulus. -/
theorem htons_modEq {n : Nat} (short : n < 2 ^ 16) : htons n ≡ 2 ^ 8 * n [MOD 0xFFFF] := by
  have split : htons n + 0xFFFF * (n / 2 ^ 8) = 2 ^ 8 * n := by
    unfold htons
    omega
  rw [← split]
  exact (Nat.add_mul_mod_self_left _ _ _).symm

theorem htons_lt {n : Nat} (less : n < 0xFFFF) : htons n < 0xFFFF := by
  unfold htons
  omega

/-- The update adds 1 in one's-complement arithmetic, and never yields 0xFFFF. -/
theorem checkUpdate_spec {check : Nat} (short : check < 2 ^ 16) :
    checkUpdate check < 0xFFFF ∧ checkUpdate check ≡ check + 1 [MOD 0xFFFF] := by
  have one : htons 0x0100 = 1 := rfl
  unfold checkUpdate
  rw [one]
  dsimp only
  rcases Nat.lt_or_ge (check + 1) 0xFFFF with small | large
  · rw [if_neg (Nat.not_le.mpr small), Nat.add_zero, Nat.mod_eq_of_lt (by omega)]
    exact ⟨small, Nat.ModEq.refl _⟩
  · rw [if_pos large]
    unfold Nat.ModEq
    omega

/-! ## The header that goes out -/

section Sent

variable {buf dstMac srcMac : Bytes}

theorem ipSent_ihl : ipIhl (ipSent buf dstMac srcMac) = ipIhl buf := by
  show (setMacs _ _ _ _).toNat % 2 ^ 4 = _
  rw [setMacs_apply _ _ _ (by decide), setField16_apply _ _ (by decide) (by decide),
    Function.update_of_ne (by decide)]
  rfl

/-- Other words stay. -/
theorem ipSent_word {k : Nat} (ttl : k ≠ ttlWord) (check : k ≠ checkWord) :
    ipWord (ipSent buf dstMac srcMac) k = ipWord buf k := by
  unfold ttlWord at ttl
  unfold checkWord at check
  have kept : ∀ i, i = ethHlen + 2 * k ∨ i = ethHlen + 2 * k + 1 →
      ipSent buf dstMac srcMac i = buf i := by
    intro i here
    unfold ipSent ethHlen at *
    rw [setMacs_apply _ _ _ (by unfold ethAlen; omega), setField16_apply _ _ (by omega) (by omega),
      Function.update_of_ne (by omega)]
  unfold ipWord beWord
  rw [kept _ (.inl rfl), kept _ (.inr rfl)]

/-- The word with the TTL, whose other byte is the protocol. -/
theorem ipSent_ttlWord : ipWord (ipSent buf dstMac srcMac) ttlWord =
    (buf (ethHlen + 8) - 1).toNat * 2 ^ 8 + (buf (ethHlen + 9)).toNat := by
  have protocol : ipSent buf dstMac srcMac (ethHlen + 9) = buf (ethHlen + 9) := by
    show setMacs _ _ _ _ = _
    rw [setMacs_apply _ _ _ (by decide), setField16_apply _ _ (by decide) (by decide),
      Function.update_of_ne (by decide)]
  show ipTtl (ipSent buf dstMac srcMac) * 2 ^ 8 + (ipSent buf dstMac srcMac (ethHlen + 9)).toNat = _
  rw [ipSent_ttl, protocol]

/-- The word with the TTL goes down by 0x0100. -/
theorem ipSent_ttlWord_alive (alive : ipTtl buf ≠ 0) :
    ipWord (ipSent buf dstMac srcMac) ttlWord + 2 ^ 8 = ipWord buf ttlWord := by
  have less : (buf (ethHlen + 8) - 1).toNat + 1 = ipTtl buf := by
    have small := (buf (ethHlen + 8)).toNat_lt
    unfold ipTtl at alive ⊢
    rw [UInt8.toNat_sub, UInt8.toNat_one]
    omega
  show _ = ipTtl buf * 2 ^ 8 + (buf (ethHlen + 9)).toNat
  rw [ipSent_ttlWord]
  omega

/-- A TTL of 0 goes up to 255. -/
theorem ipSent_ttlWord_wrapped (dead : ipTtl buf = 0) :
    ipWord (ipSent buf dstMac srcMac) ttlWord = ipWord buf ttlWord + 0xFF00 := by
  have wraps : (buf (ethHlen + 8) - 1).toNat = 255 := by
    unfold ipTtl at dead
    rw [UInt8.toNat_sub, UInt8.toNat_one, dead]
  show _ = ipTtl buf * 2 ^ 8 + (buf (ethHlen + 9)).toNat + 0xFF00
  rw [ipSent_ttlWord, wraps, dead]
  omega

/-- The checksum goes up by 0x0100 in one's-complement arithmetic. -/
theorem ipSent_checkWord :
    ipWord (ipSent buf dstMac srcMac) checkWord < 0xFFFF ∧
      ipWord (ipSent buf dstMac srcMac) checkWord ≡ ipWord buf checkWord + 2 ^ 8 [MOD 0xFFFF] := by
  have old : field16 buf (ethHlen + 10) < 2 ^ 16 := by
    have low := (buf (ethHlen + 10)).toNat_lt
    have high := (buf (ethHlen + 10 + 1)).toNat_lt
    unfold field16
    omega
  obtain ⟨below, same⟩ := checkUpdate_spec old
  have field : field16 (ipSent buf dstMac srcMac) (ethHlen + 10) =
      checkUpdate (field16 buf (ethHlen + 10)) := by
    have low : ipSent buf dstMac srcMac (ethHlen + 10) = setField16 _ _ _ (ethHlen + 10) :=
      setMacs_apply _ _ _ (by decide)
    have high : ipSent buf dstMac srcMac (ethHlen + 10 + 1) = setField16 _ _ _ (ethHlen + 10 + 1) :=
      setMacs_apply _ _ _ (by decide)
    rw [field16, low, high, ← field16, field16_setField16]
    · rfl
    · exact Nat.lt_trans below (by decide)
  have before : ipWord buf checkWord = htons (field16 buf (ethHlen + 10)) := beWord_eq_htons _ _
  have after : ipWord (ipSent buf dstMac srcMac) checkWord = htons (checkUpdate (field16 buf (ethHlen + 10))) := by
    rw [← field]
    exact beWord_eq_htons _ _
  rw [before, after]
  refine ⟨htons_lt below, ?_⟩
  calc htons (checkUpdate (field16 buf (ethHlen + 10)))
      ≡ 2 ^ 8 * checkUpdate (field16 buf (ethHlen + 10)) [MOD 0xFFFF] := htons_modEq (by omega)
    _ ≡ 2 ^ 8 * (field16 buf (ethHlen + 10) + 1) [MOD 0xFFFF] := same.mul_left _
    _ = 2 ^ 8 * field16 buf (ethHlen + 10) + 2 ^ 8 := by rw [Nat.mul_succ]
    _ ≡ htons (field16 buf (ethHlen + 10)) + 2 ^ 8 [MOD 0xFFFF] := (htons_modEq old).symm.add_right _

end Sent

/-! ## Sums -/

section Sums

variable {buf : Bytes}

theorem top_sixteen : OnesComplement.top 16 = 0xFFFF := by decide

theorem ipHeader_fits (buf : Bytes) : ∀ word ∈ ipHeader buf, word ≤ OnesComplement.top 16 := by
  intro word member
  obtain ⟨k, -, rfl⟩ := List.mem_map.mp member
  exact Nat.le_pred_of_lt (beWord_lt _ _)

theorem ipUnchecked_fits (buf : Bytes) : ∀ word ∈ ipUnchecked buf, word ≤ OnesComplement.top 16 := by
  intro word member
  obtain ⟨k, -, rfl⟩ := List.mem_map.mp member
  by_cases check : k = checkWord
  · rw [check, Function.update_self]
    exact Nat.zero_le _
  · rw [Function.update_of_ne check]
    exact Nat.le_pred_of_lt (beWord_lt _ _)

/-- The words other than those of TTL and checksum. -/
def ipOthers (buf : Bytes) : Nat :=
  ((List.range (2 * ipIhl buf)).map
    (Function.update (Function.update (ipWord buf) checkWord 0) ttlWord 0)).sum

variable (legal : 5 ≤ ipIhl buf)

include legal

theorem ipUnchecked_sum : (ipUnchecked buf).sum = ipWord buf ttlWord + ipOthers buf := by
  have inside : ttlWord < 2 * ipIhl buf := by unfold ttlWord; omega
  exact (OnesComplement.sum_pick _ inside).trans (congrArg (· + ipOthers buf) (Function.update_of_ne (by decide) _ _))

theorem ipHeader_sum : (ipHeader buf).sum = ipWord buf checkWord + (ipUnchecked buf).sum :=
  OnesComplement.sum_pick _ (by unfold checkWord; omega)

/-- The checksum is right exactly if the residue is 0, since a header has a length. -/
theorem checksumValid_iff (alive : ipTtl buf ≠ 0) : ChecksumValid buf ↔ ipResidue buf = 0 := by
  have some : 0 < (ipHeader buf).sum := by
    have ttl : ipTtl buf * 2 ^ 8 ≤ ipWord buf ttlWord := Nat.le_add_right _ _
    rw [ipHeader_sum legal, ipUnchecked_sum legal]
    omega
  have whole := OnesComplement.sum_eq_top (ipHeader_fits buf) some
  rwa [top_sixteen, Nat.ModEq, Nat.zero_mod] at whole

end Sums

theorem ipSent_others {buf dstMac srcMac : Bytes} : ipOthers (ipSent buf dstMac srcMac) = ipOthers buf := by
  unfold ipOthers
  rw [ipSent_ihl]
  refine congrArg List.sum ?_
  apply List.map_congr_left
  intro k _
  by_cases ttl : k = ttlWord
  · rw [ttl, Function.update_self, Function.update_self]
  · rw [Function.update_of_ne ttl, Function.update_of_ne ttl]
    by_cases check : k = checkWord
    · rw [check, Function.update_self, Function.update_self]
    · rw [Function.update_of_ne check, Function.update_of_ne check, ipSent_word ttl check]

section Residue

variable {buf dstMac srcMac : Bytes} (legal : 5 ≤ ipIhl buf)

include legal

/-- The sum of the header that goes out, up to its checksum that of the old one with the
new TTL. -/
theorem ipSent_sum : (ipHeader (ipSent buf dstMac srcMac)).sum ≡
    ipWord buf checkWord + 2 ^ 8 + (ipWord (ipSent buf dstMac srcMac) ttlWord + ipOthers buf) [MOD 0xFFFF] := by
  have legal' : 5 ≤ ipIhl (ipSent buf dstMac srcMac) := ipSent_ihl.symm ▸ legal
  rw [ipHeader_sum legal', ipUnchecked_sum legal', ipSent_others]
  exact ipSent_checkWord.2.add_right _

/-- What the TTL loses, the checksum gains. -/
theorem ipSent_residue (alive : ipTtl buf ≠ 0) : ipResidue (ipSent buf dstMac srcMac) = ipResidue buf := by
  have ttl := @ipSent_ttlWord_alive buf dstMac srcMac alive
  show (ipHeader _).sum ≡ (ipHeader buf).sum [MOD 0xFFFF]
  rw [ipHeader_sum legal, ipUnchecked_sum legal, ← ttl]
  calc (ipHeader (ipSent buf dstMac srcMac)).sum
      ≡ ipWord buf checkWord + 2 ^ 8 + (ipWord (ipSent buf dstMac srcMac) ttlWord + ipOthers buf)
        [MOD 0xFFFF] := ipSent_sum legal
    _ = ipWord buf checkWord + (ipWord (ipSent buf dstMac srcMac) ttlWord + 2 ^ 8 + ipOthers buf) := by
        omega

/-- When the TTL wraps around, both gain: 0xFF00 and 0x0100, which is 1 up to the modulus. -/
theorem ipSent_residue_wrapped (dead : ipTtl buf = 0) :
    ipResidue (ipSent buf dstMac srcMac) = (ipResidue buf + 1) % 0xFFFF := by
  have sum := @ipSent_sum buf dstMac srcMac legal
  have before : (ipHeader buf).sum = ipWord buf checkWord + (ipWord buf ttlWord + ipOthers buf) := by
    rw [ipHeader_sum legal, ipUnchecked_sum legal]
  rw [ipSent_ttlWord_wrapped dead] at sum
  unfold ipResidue Nat.ModEq at *
  omega

end Residue

/-- The header that goes out still has a TTL. -/
theorem ipSent_ttl_ne {buf : Bytes} (dstMac srcMac : Bytes) (alive : 2 ≤ ipTtl buf) :
    ipTtl (ipSent buf dstMac srcMac) ≠ 0 := by
  have small := (buf (ethHlen + 8)).toNat_lt
  rw [ipSent_ttl, UInt8.toNat_sub, UInt8.toNat_one]
  unfold ipTtl at alive
  omega

/-- A checksum that was right is the checksum of the new header. -/
theorem ipSent_checksum {buf dstMac srcMac : Bytes} (legal : 5 ≤ ipIhl buf) (alive : 2 ≤ ipTtl buf)
    (valid : ChecksumValid buf) :
    ipWord (ipSent buf dstMac srcMac) checkWord = ipChecksum (ipSent buf dstMac srcMac) := by
  have legal' : 5 ≤ ipIhl (ipSent buf dstMac srcMac) := ipSent_ihl.symm ▸ legal
  have alive' := ipSent_ttl_ne dstMac srcMac alive
  have zero : ipResidue (ipSent buf dstMac srcMac) = 0 := by
    rw [ipSent_residue legal (by omega)]
    exact (checksumValid_iff legal (by omega)).mp valid
  have positive : 0 < (ipUnchecked (ipSent buf dstMac srcMac)).sum := by
    have ttl : ipTtl (ipSent buf dstMac srcMac) * 2 ^ 8 ≤ ipWord (ipSent buf dstMac srcMac) ttlWord :=
      Nat.le_add_right _ _
    rw [ipUnchecked_sum legal']
    omega
  apply OnesComplement.checksum_eq (ipUnchecked_fits _) positive
  · rw [top_sixteen]
    exact ipSent_checkWord.1
  · rw [top_sixteen, ← ipHeader_sum legal']
    exact zero

/-- **The incremental checksum is the recomputed one.** For a header of any legal length that
is sent on: if the checksum was right and the TTL is 2 or more, the new field is the checksum
of the new header; if it was wrong, the residue stays, and so does the error, exactly if the
TTL was not 0. -/
theorem checksum_incremental_iff (thread : UfpdThread) (buf : Bytes) (legal : 5 ≤ ipIhl buf)
    (sent : 0 ≤ (forwardIpProcess thread buf).ret) :
    let out := (forwardIpProcess thread buf).buf
    (2 ≤ ipTtl buf → ChecksumValid buf → ipWord out checkWord = ipChecksum out) ∧
      (¬ ChecksumValid buf → ((ipResidue out = ipResidue buf ∧ ¬ ChecksumValid out) ↔ ipTtl buf ≠ 0)) := by
  rcases forwardIpProcess_cases thread buf with ⟨-, done⟩ | ⟨-, done⟩ | ⟨port, entry, -, many, done⟩
  · rw [done] at sent
    cases sent
  · rw [done] at sent
    cases sent
  · rw [done]
    dsimp only
    refine ⟨ipSent_checksum legal, fun wrong => ⟨?_, fun alive => ?_⟩⟩
    · rintro ⟨same, -⟩ dead
      rw [ipSent_residue_wrapped legal dead] at same
      have small : ipResidue buf < 0xFFFF := Nat.mod_lt _ (by decide)
      omega
    · have residue := @ipSent_residue buf entry.dstMac (thread.macaddr port) legal alive
      have legal' : 5 ≤ ipIhl (ipSent buf entry.dstMac (thread.macaddr port)) := ipSent_ihl.symm ▸ legal
      refine ⟨residue, ?_⟩
      rwa [checksumValid_iff legal' (ipSent_ttl_ne _ _ (by omega)), residue, ← checksumValid_iff legal alive]

/-- A packet to `10.1.2.3` with a header of 24 bytes; for a TTL of 64 the checksum is 0x62F7. -/
def sampleOptions (ttl high low : UInt8) : Bytes := fun i =>
  if i < ethHlen then 0
  else [0x46, 0, 0, 0, 0, 0, 0, 0, ttl, 0, high, low, 0, 0, 0, 0, 10, 1, 2, 3, 7, 4, 4, 0].getD (i - ethHlen) 0

theorem checksum_incremental_iff_sample :
    let out := fun low => (forwardIpProcess sampleForwarder (sampleOptions 64 0x62 low)).buf
    ChecksumValid (sampleOptions 64 0x62 0xF7) ∧ ipWord (out 0xF7) checkWord = ipChecksum (out 0xF7) ∧
      ¬ ChecksumValid (sampleOptions 64 0x62 0) ∧ ipResidue (out 0) = ipResidue (sampleOptions 64 0x62 0) := by
  have valid : ChecksumValid (sampleOptions 64 0x62 0xF7) := by decide +kernel
  have wrong : ¬ ChecksumValid (sampleOptions 64 0x62 0) := by decide +kernel
  have right := checksum_incremental_iff sampleForwarder (sampleOptions 64 0x62 0xF7) (by decide)
    (by decide +kernel)
  have kept := checksum_incremental_iff sampleForwarder (sampleOptions 64 0x62 0) (by decide)
    (by decide +kernel)
  exact ⟨valid, right.1 (by decide) valid, wrong, ((kept.2 wrong).mpr (by decide)).1⟩

/-- With a TTL of 0 a wrong checksum, 0xA2F6, becomes a right one. -/
theorem checksum_repaired :
    let out := (forwardIpProcess sampleForwarder (sampleOptions 0 0xA2 0xF6)).buf
    5 ≤ ipIhl (sampleOptions 0 0xA2 0xF6) ∧
      0 ≤ (forwardIpProcess sampleForwarder (sampleOptions 0 0xA2 0xF6)).ret ∧
      ¬ ChecksumValid (sampleOptions 0 0xA2 0xF6) ∧ ChecksumValid out ∧
      ipResidue (sampleOptions 0 0xA2 0xF6) = 0xFFFE ∧ ipResidue out = 0 := by
  decide +kernel

end Ufp.Daemon
