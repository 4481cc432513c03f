/-
# Ufp.Daemon.Neigh — neighbour tables, `src/hash.c` and `src/neigh.c`

A neighbour table is a hash table of 65536 chains from addresses to link-layer
addresses, one table per port and family. The hash table is generic: it calls its
key and delete functions through pointers that `neigh_alloc` sets by family.

An entry is a pool block; what the block holds is kept with the entry in its
chain. `neighAdd_spec` and `neighDelete_spec` say what each call does to every
lookup, by the rules of `Theory.Buckets`.
-/
import Ufp.Daemon.Fib
import Ufp.Daemon.HeapInv
import Ufp.Theory.Buckets
import Mathlib.Data.Nat.Bitwise

namespace Ufp.Daemon

open Ufp.Theory

set_option autoImplicit false

/-! ## `hash.c` -/

/-- `struct hash_entry`, with the structure it is embedded in. -/
structure HashEntry (ε : Type) where
  key : Bytes
  owner : ε

/-- `struct hash_table`; a comparison's return value 0 is `true`, and `σ` is the
memory that deleting an entry works on. -/
structure HashTable (ε σ : Type) where
  head : Nat → List (HashEntry ε)
  hashEntryDelete : ε → σ → σ
  hashKeyGenerate : Bytes → Nat → Nat
  hashKeyCompare : Bytes → Bytes → Bool

/-- `HASH_BIT`. -/
def hashBit : Nat := 16

section Hash

variable {ε σ : Type} (table : HashTable ε σ)

/-- `hash_add`; `none` is -1. -/
def hashAdd (key : Bytes) (entryNew : ε) : Option (HashTable ε σ) :=
  let hashKey := table.hashKeyGenerate key hashBit
  let head := table.head hashKey
  if head.any fun entry => table.hashKeyCompare key entry.key then none
  else some { table with head := Function.update table.head hashKey (⟨key, entryNew⟩ :: head) }

/-- `hash_delete`: the first entry of the key is unlinked and deleted. -/
def hashDelete (key : Bytes) (s : σ) : Bool × HashTable ε σ × σ :=
  let hashKey := table.hashKeyGenerate key hashBit
  let head := table.head hashKey
  match head.find? fun entry => table.hashKeyCompare key entry.key with
  | none => (false, table, s)
  | some target =>
      let rest := head.eraseP fun entry => table.hashKeyCompare key entry.key
      (true, { table with head := Function.update table.head hashKey rest },
        table.hashEntryDelete target.owner s)

/-- `hash_lookup`. -/
def hashLookup (key : Bytes) : Option ε :=
  let head := table.head (table.hashKeyGenerate key hashBit)
  (head.find? fun entry => table.hashKeyCompare key entry.key).map HashEntry.owner

end Hash

/-! ## `neigh.c` -/

/-- `struct neigh_entry`, in its block. -/
structure NeighEntry where
  blk : Nat
  dstMac : Bytes
  dstAddr : Bytes

/-- `struct neigh_table`, in its block. -/
structure NeighTable where
  blk : Nat
  table : HashTable NeighEntry Heap

/-- `ETH_ALEN`. -/
def ethAlen : Nat := 6

/-- A 32-bit word of an address, on a little-endian host. -/
def word32 (bytes : Bytes) (i : Nat) : Nat :=
  (bytes (4 * i)).toNat + (bytes (4 * i + 1)).toNat * 2 ^ 8 + (bytes (4 * i + 2)).toNat * 2 ^ 16 +
    (bytes (4 * i + 3)).toNat * 2 ^ 24

/-- A 64-bit word of an address. -/
def word64 (bytes : Bytes) (i : Nat) : Nat := word32 bytes (2 * i) + word32 bytes (2 * i + 1) * 2 ^ 32

/-- `neigh_key_generate_v4`, with `GOLDEN_RATIO_PRIME_32`. -/
def neighKeyGenerateV4 (key : Bytes) (bitLen : Nat) : Nat :=
  (word32 key 0 * 0x9e370001 % 2 ^ 32) >>> (32 - bitLen)

/-- `neigh_key_generate_v6`, with `GOLDEN_RATIO_PRIME_64`. -/
def neighKeyGenerateV6 (key : Bytes) (bitLen : Nat) : Nat :=
  (word64 key 0 * word64 key 1 % 2 ^ 64 * 0x9e37fffffffc0001 % 2 ^ 64) >>> (64 - bitLen)

/-- `neigh_key_compare_v4`. -/
def neighKeyCompareV4 (keyTgt keyEnt : Bytes) : Bool := word32 keyTgt 0 ^^^ word32 keyEnt 0 == 0

/-- `neigh_key_compare_v6`. -/
def neighKeyCompareV6 (keyTgt keyEnt : Bytes) : Bool :=
  if word64 keyTgt 0 ^^^ word64 keyEnt 0 == 0 then word64 keyTgt 1 ^^^ word64 keyEnt 1 == 0 else false

/-- `neigh_entry_delete`. -/
def neighEntryDelete (entry : NeighEntry) (h : Heap) : Heap := h.free entry.blk

/-- `neigh_alloc`. -/
def neighAlloc (family : Family) (h : Heap) : Option NeighTable × Heap :=
  match h.alloc with
  | (none, h) => (none, h)
  | (some blk, h) =>
      match family with
      | .inet => (some ⟨blk, fun _ => [], neighEntryDelete, neighKeyGenerateV4, neighKeyCompareV4⟩, h)
      | .inet6 => (some ⟨blk, fun _ => [], neighEntryDelete, neighKeyGenerateV6, neighKeyCompareV6⟩, h)
      | .other => (none, h.free blk)

/-- `neigh_add`. The bytes of the block that it does not write are taken as 0; no
function reads them. -/
def neighAdd (neigh : NeighTable) (family : Family) (dstAddr macAddr : Bytes) (h : Heap) :
    Bool × NeighTable × Heap :=
  match h.alloc with
  | (none, h) => (false, neigh, h)
  | (some blk, h) =>
      match family.bytes with
      | none => (false, neigh, h.free blk)
      | some size =>
          let entry : NeighEntry :=
            { blk
              dstMac := memcpy (fun _ => 0) macAddr ethAlen
              dstAddr := memcpy (fun _ => 0) dstAddr size }
          match hashAdd neigh.table entry.dstAddr entry with
          | none => (false, neigh, h.free blk)
          | some table => (true, { neigh with table }, h)

/-- `neigh_delete`; the family is only printed. -/
def neighDelete (neigh : NeighTable) (dstAddr : Bytes) (h : Heap) : Bool × NeighTable × Heap :=
  let (ret, table, h) := hashDelete neigh.table dstAddr h
  (ret, { neigh with table }, h)

/-- `neigh_lookup`. -/
def neighLookup (neigh : NeighTable) (dstAddr : Bytes) : Option NeighEntry :=
  hashLookup neigh.table dstAddr

/-! ## Keys -/

/-- Two addresses agree on their first `n` bytes. -/
def AddrSame (n : Nat) (a b : Bytes) : Prop := ∀ i < n, a i = b i

instance (n : Nat) (a b : Bytes) : Decidable (AddrSame n a b) := inferInstanceAs (Decidable (∀ _ < _, _))

variable {a b : Bytes}

theorem AddrSame.symm {n : Nat} (same : AddrSame n a b) : AddrSame n b a :=
  fun i inside => (same i inside).symm

theorem AddrSame.trans {n : Nat} {c : Bytes} (first : AddrSame n a b) (second : AddrSame n b c) :
    AddrSame n a c := fun i inside => (first i inside).trans (second i inside)

theorem addrSame_memcpy (old a : Bytes) (n : Nat) : AddrSame n (memcpy old a n) a :=
  fun _ inside => if_pos inside

theorem word32_inj {i : Nat} : word32 a i = word32 b i ↔ ∀ j < 4, a (4 * i + j) = b (4 * i + j) := by
  have small : ∀ (c : Bytes) (k : Nat), (c k).toNat < 256 := fun c k => (c k).toNat_lt
  have := small a (4 * i); have := small a (4 * i + 1); have := small a (4 * i + 2)
  have := small a (4 * i + 3); have := small b (4 * i); have := small b (4 * i + 1)
  have := small b (4 * i + 2); have := small b (4 * i + 3)
  unfold word32
  constructor
  · intro equal j inside
    apply UInt8.toNat_inj.mp
    obtain rfl | rfl | rfl | rfl : j = 0 ∨ j = 1 ∨ j = 2 ∨ j = 3 := by omega
    · show (a (4 * i)).toNat = (b (4 * i)).toNat
      omega
    all_goals omega
  · intro same
    have first := same 0 (by omega)
    rw [Nat.add_zero] at first
    rw [first, same 1 (by omega), same 2 (by omega), same 3 (by omega)]

theorem word32_lt (a : Bytes) (i : Nat) : word32 a i < 2 ^ 32 := by
  have small : ∀ k, (a k).toNat < 256 := fun k => (a k).toNat_lt
  have := small (4 * i); have := small (4 * i + 1); have := small (4 * i + 2)
  have := small (4 * i + 3)
  unfold word32
  omega

theorem word64_inj {i : Nat} : word64 a i = word64 b i ↔ ∀ j < 8, a (8 * i + j) = b (8 * i + j) := by
  have := word32_lt a (2 * i); have := word32_lt a (2 * i + 1)
  have := word32_lt b (2 * i); have := word32_lt b (2 * i + 1)
  have split : word64 a i = word64 b i ↔
      word32 a (2 * i) = word32 b (2 * i) ∧ word32 a (2 * i + 1) = word32 b (2 * i + 1) := by
    unfold word64
    omega
  rw [split, word32_inj, word32_inj]
  constructor
  · rintro ⟨low, high⟩ j inside
    by_cases half : j < 4
    · have := low j half
      rwa [show 4 * (2 * i) + j = 8 * i + j by omega] at this
    · have := high (j - 4) (by omega)
      rwa [show 4 * (2 * i + 1) + (j - 4) = 8 * i + j by omega] at this
  · intro all
    refine ⟨fun j inside => ?_, fun j inside => ?_⟩
    · rw [show 4 * (2 * i) + j = 8 * i + j by omega]
      exact all j (by omega)
    · rw [show 4 * (2 * i + 1) + j = 8 * i + (4 + j) by omega]
      exact all (4 + j) (by omega)

theorem neighKeyCompareV4_eq (a b : Bytes) : neighKeyCompareV4 a b = decide (AddrSame 4 a b) := by
  rw [Bool.eq_iff_iff, neighKeyCompareV4, beq_iff_eq, Nat.xor_eq_zero_iff, word32_inj,
    decide_eq_true_iff]
  simp only [Nat.mul_zero, Nat.zero_add]
  rfl

theorem addrSame_16 : AddrSame 16 a b ↔ word64 a 0 = word64 b 0 ∧ word64 a 1 = word64 b 1 := by
  rw [word64_inj, word64_inj]
  constructor
  · intro same
    exact ⟨fun j inside => same _ (by omega), fun j inside => same _ (by omega)⟩
  · rintro ⟨low, high⟩ i inside
    by_cases half : i < 8
    · simpa using low i half
    · have := high (i - 8) (by omega)
      rwa [show 8 * 1 + (i - 8) = i by omega] at this

theorem neighKeyCompareV6_eq (a b : Bytes) : neighKeyCompareV6 a b = decide (AddrSame 16 a b) := by
  rw [Bool.eq_iff_iff, decide_eq_true_iff, addrSame_16, neighKeyCompareV6]
  simp

/-! ## A table is a map -/

/-- A table whose keys are addresses of `n` bytes, with no address twice. -/
structure NeighTable.Ok (n : Nat) (neigh : NeighTable) : Prop where
  compare : ∀ a b, neigh.table.hashKeyCompare a b = decide (AddrSame n a b)
  generate : ∀ {a b}, AddrSame n a b →
    neigh.table.hashKeyGenerate a hashBit = neigh.table.hashKeyGenerate b hashBit
  delete : neigh.table.hashEntryDelete = neighEntryDelete
  chains : ∀ i, (neigh.table.head i).Pairwise fun e e' =>
    neigh.table.hashKeyCompare e.key e'.key = false

/-- The link-layer address that `neigh_lookup` finds. -/
def NeighTable.mac (neigh : NeighTable) (dstAddr : Bytes) : Option Bytes :=
  (neighLookup neigh dstAddr).map NeighEntry.dstMac

section Specs

variable {n : Nat} {neigh : NeighTable} {family : Family} {h : Heap}

/-- The keys of a neighbour table. -/
def NeighTable.Ok.keyed (ok : neigh.Ok n) : Buckets.Keyed Bytes (HashEntry NeighEntry) where
  key := HashEntry.key
  same := neigh.table.hashKeyCompare
  index := fun k => neigh.table.hashKeyGenerate k hashBit
  refl := fun a => by
    rw [ok.compare, decide_eq_true_iff]
    exact fun _ _ => rfl
  symm := fun same => by
    rw [ok.compare, decide_eq_true_iff] at same ⊢
    exact same.symm
  trans := fun first second => by
    rw [ok.compare, decide_eq_true_iff] at first second ⊢
    exact first.trans second
  index_eq := fun same => ok.generate (by rwa [ok.compare, decide_eq_true_iff] at same)

theorem NeighTable.Ok.keyed_key (ok : neigh.Ok n) (entry : HashEntry NeighEntry) :
    ok.keyed.key entry = entry.key := rfl

theorem NeighTable.Ok.same_iff (ok : neigh.Ok n) : ok.keyed.same a b = true ↔ AddrSame n a b := by
  show neigh.table.hashKeyCompare a b = true ↔ AddrSame n a b
  rw [ok.compare, decide_eq_true_iff]

theorem NeighTable.Ok.mac_eq (ok : neigh.Ok n) (a : Bytes) :
    neigh.mac a =
      (Buckets.find ok.keyed neigh.table.head a).map fun entry => entry.owner.dstMac := by
  show Option.map _ (Option.map _ _) = _
  rw [Option.map_map]
  rfl

theorem NeighTable.Ok.buckets (ok : neigh.Ok n) : Buckets.Ok ok.keyed neigh.table.head := ok.chains

/-- The table with other chains. -/
def NeighTable.withHead (neigh : NeighTable) (head : Nat → List (HashEntry NeighEntry)) : NeighTable :=
  { neigh with table := { neigh.table with head } }

theorem NeighTable.Ok.withHead (ok : neigh.Ok n) {head : Nat → List (HashEntry NeighEntry)}
    (distinct : Buckets.Ok ok.keyed head) : (neigh.withHead head).Ok n :=
  ⟨ok.compare, ok.generate, ok.delete, distinct⟩

theorem NeighTable.Ok.mac_withHead (ok : neigh.Ok n) {head : Nat → List (HashEntry NeighEntry)}
    (distinct : Buckets.Ok ok.keyed head) (a : Bytes) :
    (neigh.withHead head).mac a =
      (Buckets.find ok.keyed head a).map fun entry => entry.owner.dstMac :=
  (ok.withHead distinct).mac_eq a

theorem NeighTable.Ok.mac_congr (ok : neigh.Ok n) (same : AddrSame n a b) : neigh.mac a = neigh.mac b := by
  rw [ok.mac_eq, ok.mac_eq, Buckets.find_congr (ok.same_iff.mpr same)]

/-- The ways to a new table: one block, and the functions of the family. -/
theorem neighAlloc_cases {h' : Heap} (made : neighAlloc family h = (some neigh, h')) :
    ∃ blk, h.alloc = (some blk, h') ∧
      (family = .inet ∧ neigh = ⟨blk, fun _ => [], neighEntryDelete, neighKeyGenerateV4, neighKeyCompareV4⟩ ∨
        family = .inet6 ∧ neigh = ⟨blk, fun _ => [], neighEntryDelete, neighKeyGenerateV6, neighKeyCompareV6⟩) := by
  rcases answer : h.alloc with ⟨_ | blk, h₁⟩
  · rw [neighAlloc, answer] at made
    cases made
  · rw [neighAlloc, answer] at made
    cases family with
    | inet =>
        obtain ⟨rfl, rfl⟩ := made
        exact ⟨blk, rfl, .inl ⟨rfl, rfl⟩⟩
    | inet6 =>
        obtain ⟨rfl, rfl⟩ := made
        exact ⟨blk, rfl, .inr ⟨rfl, rfl⟩⟩
    | other => cases made

theorem neighAlloc_spec {h' : Heap} (size : family.bytes = some n)
    (made : neighAlloc family h = (some neigh, h')) : neigh.Ok n ∧ ∀ a, neigh.mac a = none := by
  obtain ⟨blk, -, ⟨rfl, rfl⟩ | ⟨rfl, rfl⟩⟩ := neighAlloc_cases made
  · obtain rfl := Option.some.inj size
    refine ⟨⟨neighKeyCompareV4_eq, fun same => ?_, rfl, fun _ => List.Pairwise.nil⟩, fun _ => rfl⟩
    have word : word32 _ 0 = word32 _ 0 := word32_inj.mpr fun j inside => same _ (by omega)
    show neighKeyGenerateV4 _ _ = neighKeyGenerateV4 _ _
    rw [neighKeyGenerateV4, neighKeyGenerateV4, word]
  · obtain rfl := Option.some.inj size
    refine ⟨⟨neighKeyCompareV6_eq, fun same => ?_, rfl, fun _ => List.Pairwise.nil⟩, fun _ => rfl⟩
    obtain ⟨low, high⟩ := addrSame_16.mp same
    show neighKeyGenerateV6 _ _ = neighKeyGenerateV6 _ _
    rw [neighKeyGenerateV6, neighKeyGenerateV6, low, high]

theorem NeighTable.Ok.mac_none (ok : neigh.Ok n) :
    neigh.mac a = none ↔ Buckets.find ok.keyed neigh.table.head a = none := by
  rw [ok.mac_eq, Option.map_eq_none_iff]

/-- What `neigh_add` links: a filled entry, under the copy of the address in its own block. -/
def neighFilled (n blk : Nat) (dst mac : Bytes) : HashEntry NeighEntry where
  key := memcpy (fun _ => 0) dst n
  owner := ⟨blk, memcpy (fun _ => 0) mac ethAlen, memcpy (fun _ => 0) dst n⟩

/-- The ways through `neigh_add`: no block, an address that is bound, or a new entry. -/
theorem neighAdd_cases (ok : neigh.Ok n) (size : family.bytes = some n) (dst mac : Bytes) (h : Heap) :
    (∃ h', h.alloc = (none, h') ∧ neighAdd neigh family dst mac h = (false, neigh, h')) ∨
      ∃ blk h', h.alloc = (some blk, h') ∧
        (neigh.mac dst ≠ none ∧ neighAdd neigh family dst mac h = (false, neigh, h'.free blk) ∨
          neigh.mac dst = none ∧ neighAdd neigh family dst mac h =
            (true, neigh.withHead (Buckets.insert ok.keyed neigh.table.head (neighFilled n blk dst mac)), h')) := by
  rcases answer : h.alloc with ⟨_ | blk, h'⟩
  · exact .inl ⟨h', rfl, by rw [neighAdd, answer]⟩
  · refine .inr ⟨blk, h', rfl, ?_⟩
    have copy : neigh.mac dst = neigh.mac (neighFilled n blk dst mac).key :=
      ok.mac_congr (addrSame_memcpy _ _ _).symm
    rw [copy, Ne, ok.mac_none, neighAdd, answer]
    simp only [size]
    by_cases bound : (neigh.table.head (neigh.table.hashKeyGenerate (memcpy (fun _ => 0) dst n) hashBit)).any
        fun e => neigh.table.hashKeyCompare (memcpy (fun _ => 0) dst n) e.key
    · refine .inl ⟨?_, by simp only [hashAdd, if_pos bound]⟩
      obtain ⟨e, member, hit⟩ := List.any_eq_true.mp bound
      exact fun absent => List.find?_eq_none.mp absent e member hit
    · refine .inr ⟨?_, by simp only [hashAdd, if_neg bound]; rfl⟩
      exact List.find?_eq_none.mpr fun e member hit => bound (List.any_eq_true.mpr ⟨e, member, hit⟩)

/-- A new entry binds its address. -/
theorem NeighTable.Ok.insert (ok : neigh.Ok n) (blk : Nat) {dst : Bytes} (free : neigh.mac dst = none)
    (mac : Bytes) :
    Buckets.Ok ok.keyed (Buckets.insert ok.keyed neigh.table.head (neighFilled n blk dst mac)) ∧
      ∀ a, (neigh.withHead (Buckets.insert ok.keyed neigh.table.head (neighFilled n blk dst mac))).mac a =
        if AddrSame n a dst then some (memcpy (fun _ => 0) mac ethAlen) else neigh.mac a := by
  have key : AddrSame n (neighFilled n blk dst mac).key dst := addrSame_memcpy _ _ _
  have distinct : Buckets.Ok ok.keyed
      (Buckets.insert ok.keyed neigh.table.head (neighFilled n blk dst mac)) :=
    Buckets.Ok.insert ok.buckets (ok.mac_none.mp ((ok.mac_congr key).trans free))
  refine ⟨distinct, fun a => ?_⟩
  rw [ok.mac_withHead distinct, Buckets.find_insert, ok.keyed_key]
  by_cases same : AddrSame n a dst
  · rw [if_pos (ok.same_iff.mpr (same.trans key.symm)), if_pos same]
    rfl
  · rw [if_neg fun hit => same ((ok.same_iff.mp hit).trans key), if_neg same, ok.mac_eq]

/-- **`neigh_add`** binds an address that is not bound, and changes nothing else. -/
theorem neighAdd_spec (ok : neigh.Ok n) (size : family.bytes = some n) (dst mac : Bytes) :
    (neighAdd neigh family dst mac h).2.1.Ok n ∧
      ((neighAdd neigh family dst mac h).2.2.pool.refused = false →
        h.pool.refused = false ∧ ∀ a, (neighAdd neigh family dst mac h).2.1.mac a =
          if AddrSame n a dst then (neigh.mac dst).or (some (memcpy (fun _ => 0) mac ethAlen))
          else neigh.mac a) := by
  rcases neighAdd_cases ok size dst mac h with
    ⟨h', denied, run⟩ | ⟨blk, h', answer, ⟨bound, run⟩ | ⟨free, run⟩⟩
  · obtain ⟨pool, empty, rfl⟩ := Heap.alloc_none denied
    rw [run]
    refine ⟨ok, fun granted => ?_⟩
    rw [(Pool.alloc_none empty).2.1] at granted
    cases granted
  · obtain ⟨pool, found, rfl⟩ := Heap.alloc_some answer
    rw [run]
    refine ⟨ok, fun granted => ⟨?_, fun a => ?_⟩⟩
    · rw [← (Pool.alloc_some found).2.2.1, ← granted]
      exact (Pool.free_refused _ _).symm
    · split_ifs with same
      · rw [ok.mac_congr same]
        cases known : neigh.mac dst with
        | none => exact absurd known bound
        | some m => rfl
      · rfl
  · obtain ⟨pool, found, rfl⟩ := Heap.alloc_some answer
    obtain ⟨distinct, lookup⟩ := ok.insert blk free mac
    rw [run]
    refine ⟨ok.withHead distinct, fun granted => ⟨(Pool.alloc_some found).2.2.1.symm.trans granted, fun a => ?_⟩⟩
    rw [lookup, free, Option.none_or]

/-- The ways through `neigh_delete`. -/
theorem neighDelete_cases (ok : neigh.Ok n) (dst : Bytes) (h : Heap) :
    (Buckets.find ok.keyed neigh.table.head dst = none ∧ neighDelete neigh dst h = (false, neigh, h)) ∨
      ∃ target, Buckets.find ok.keyed neigh.table.head dst = some target ∧ neighDelete neigh dst h =
        (true, neigh.withHead (Buckets.remove ok.keyed neigh.table.head dst), h.free target.owner.blk) := by
  have chain : (neigh.table.head (neigh.table.hashKeyGenerate dst hashBit)).find?
      (fun entry => neigh.table.hashKeyCompare dst entry.key) =
        Buckets.find ok.keyed neigh.table.head dst := rfl
  cases found : Buckets.find ok.keyed neigh.table.head dst with
  | none => exact .inl ⟨rfl, by simp only [neighDelete, hashDelete, chain, found]⟩
  | some target =>
      have freed : neigh.table.hashEntryDelete target.owner h = h.free target.owner.blk := by
        rw [ok.delete]
        rfl
      refine .inr ⟨target, rfl, ?_⟩
      simp only [neighDelete, hashDelete, chain, found]
      rw [freed]
      rfl

/-- **`neigh_delete`** unbinds an address, and changes nothing else. -/
theorem neighDelete_spec (ok : neigh.Ok n) (dst : Bytes) :
    (neighDelete neigh dst h).2.1.Ok n ∧
      (neighDelete neigh dst h).2.2.pool.refused = h.pool.refused ∧
      ∀ a, (neighDelete neigh dst h).2.1.mac a = if AddrSame n a dst then none else neigh.mac a := by
  rcases neighDelete_cases ok dst h with ⟨absent, run⟩ | ⟨target, found, run⟩
  · rw [run]
    refine ⟨ok, rfl, fun a => ?_⟩
    split_ifs with same
    · rw [ok.mac_congr same]
      exact ok.mac_none.mpr absent
    · rfl
  · have distinct := Buckets.Ok.remove ok.buckets dst
    rw [run]
    refine ⟨ok.withHead distinct, Pool.free_refused _ _, fun a => ?_⟩
    rw [ok.mac_withHead distinct, Buckets.find_remove ok.buckets]
    by_cases same : AddrSame n a dst
    · rw [if_pos (ok.same_iff.mpr same), if_pos same, Option.map_none]
    · rw [if_neg fun hit => same (ok.same_iff.mp hit), if_neg same, ok.mac_eq]

end Specs

end Ufp.Daemon
