/-
# Ufp.Daemon.Routes — what the prefix table is for

The abstract FIB is the list of its routes, newest first, keyed by the leading
`len` bits of the prefix, `len` and `id`. `Routes.update` adds a route whose key
is absent, `Routes.delete` removes the route of a key, and `Routes.lookup` gives
the route of greatest length that matches an address, the newest of these.

The second half places routes in the table: the node of level `offset` for the
addresses with leading bits `v` holds the routes it `Covers`; routes that are
`Below` it live in its next tables.
-/
import Ufp.Daemon.Fib
import Ufp.Theory.Bits
import Ufp.Theory.Ranked
import Mathlib.Tactic.IntervalCases

namespace Ufp.Daemon

open Ufp.Theory Ufp.Theory.Bits Ufp.Theory.Ranked

set_option autoImplicit false

/-! ## Routes -/

/-- What identifies a route; of `bytes`, the leading `len` bits count. -/
structure Key where
  bytes : Bytes
  len : Nat
  id : Int

/-- A route, as `fib_route_update` is given it. -/
structure Route extends Key where
  family : Family
  nexthop : Bytes
  portIndex : Int
  type : FibType

namespace Key

def Same (k k' : Key) : Prop := k.len = k'.len ∧ k.id = k'.id ∧ top k.bytes k.len = top k'.bytes k'.len

instance (k k' : Key) : Decidable (k.Same k') := inferInstanceAs (Decidable (_ ∧ _ ∧ _))

theorem Same.symm {k k' : Key} (same : k.Same k') : k'.Same k :=
  ⟨same.1.symm, same.2.1.symm, same.2.2.symm⟩

theorem Same.trans {k k' k'' : Key} (first : k.Same k') (second : k'.Same k'') : k.Same k'' :=
  ⟨first.1.trans second.1, first.2.1.trans second.2.1, first.2.2.trans second.2.2⟩

/-- The address has the prefix. -/
def Matches (k : Key) (dst : Bytes) : Prop := top dst k.len = top k.bytes k.len

instance (k : Key) (dst : Bytes) : Decidable (k.Matches dst) := inferInstanceAs (Decidable (_ = _))

end Key

/-- The routes of a FIB, newest first. -/
abbrev Routes := List Route

namespace Routes

def update (routes : Routes) (r : Route) : Bool × Routes :=
  if ∃ s ∈ routes, s.Same r.toKey then (false, routes) else (true, r :: routes)

def delete (routes : Routes) (k : Key) : Bool × Routes :=
  if ∃ s ∈ routes, s.Same k then (true, routes.filter fun s => ¬ s.Same k) else (false, routes)

def lookup (routes : Routes) (dst : Bytes) : Option Route :=
  (rank (fun r => r.len) (routes.filter fun r => r.Matches dst)).head?

/-- Longest match: no matching route is longer, the newer ones are shorter. -/
theorem lookup_some {routes : Routes} {dst : Bytes} {r : Route} (found : routes.lookup dst = some r) :
    r.Matches dst ∧ (∀ s ∈ routes, s.Matches dst → s.len ≤ r.len) ∧
      ∃ newer older, routes = newer ++ r :: older ∧
        ∀ s ∈ newer, s.Matches dst → s.len < r.len := by
  obtain ⟨longest, newer, older, split, shorter⟩ := head_rank found
  have member : r ∈ routes.filter fun r => r.Matches dst := by
    rw [split]
    exact List.mem_append_right _ List.mem_cons_self
  refine ⟨by simpa using (List.mem_filter.mp member).2, fun s here hit => ?_, ?_⟩
  · exact longest s (List.mem_filter.mpr ⟨here, by simpa using hit⟩)
  · obtain ⟨before, tail, whole, front, back⟩ := List.filter_eq_append_iff.mp split
    obtain ⟨skipped, after, tailEq, none, hit, -⟩ := List.filter_eq_cons_iff.mp back
    refine ⟨before ++ skipped, after, by rw [whole, tailEq, List.append_assoc], ?_⟩
    intro s here matched
    rcases List.mem_append.mp here with early | late
    · apply shorter s
      rw [← front]
      exact List.mem_filter.mpr ⟨early, by simpa using matched⟩
    · exact absurd matched (by simpa using none s late)

theorem lookup_none {routes : Routes} {dst : Bytes} :
    routes.lookup dst = none ↔ ∀ r ∈ routes, ¬ r.Matches dst := by
  rw [lookup, List.head?_eq_none_iff, rank_eq_nil, List.filter_eq_nil_iff]
  simp

end Routes

/-! ## Where a route lives in the table -/

namespace Key

/-- The route is linked in the node of level `offset` for leading bits `v`: its
length ends in that level, and it agrees with `v`. -/
def Covers (k : Key) (offset v : Nat) : Prop :=
  (offset = 16 ∨ offset < k.len + 8) ∧ k.len ≤ offset ∧ v / 2 ^ (offset - k.len) = top k.bytes k.len

/-- The route lives in the next tables of that node. -/
def Below (k : Key) (offset v : Nat) : Prop := offset < k.len ∧ top k.bytes offset = v

/-- The node or something below it holds the route. -/
def Relevant (k : Key) (offset v : Nat) : Prop := k.Covers offset v ∨ k.Below offset v

instance (k : Key) (offset v : Nat) : Decidable (k.Covers offset v) :=
  inferInstanceAs (Decidable (_ ∧ _ ∧ _))

instance (k : Key) (offset v : Nat) : Decidable (k.Below offset v) :=
  inferInstanceAs (Decidable (_ ∧ _))

instance (k : Key) (offset v : Nat) : Decidable (k.Relevant offset v) :=
  inferInstanceAs (Decidable (_ ∨ _))

variable {k : Key} {offset v : Nat}

/-- What a child holds is below its parent. -/
theorem Relevant.below {i : Nat} (low : 16 ≤ offset) (small : i < 256)
    (held : k.Relevant (offset + 8) (v * 256 + i)) : k.Below offset v := by
  have cut : (v * 256 + i) / 2 ^ 8 = v := by omega
  rcases held with ⟨level, short, agree⟩ | ⟨long, agree⟩
  · refine ⟨by omega, ?_⟩
    have sum : offset + 8 - k.len + (k.len - offset) = 8 := by omega
    have whole : top k.bytes k.len / 2 ^ (k.len - offset) = top k.bytes offset :=
      top_div _ (by omega)
    rw [← whole, ← agree, Nat.div_div_eq_div_mul, ← Nat.pow_add, sum, cut]
  · refine ⟨by omega, ?_⟩
    have whole := top_add_div k.bytes offset 8
    rw [← whole, agree, cut]

/-- A route below a node is held by the child its next byte names. -/
theorem Below.child {i : Nat} (below : k.Below offset v)
    (next : top k.bytes (offset + 8) = v * 256 + i) : k.Relevant (offset + 8) (v * 256 + i) := by
  obtain ⟨long, agree⟩ := below
  by_cases short : k.len ≤ offset + 8
  · exact .inl ⟨.inr (by omega), short, by rw [← next]; exact top_div _ short⟩
  · exact .inr ⟨by omega, next⟩

theorem Covers.not_below (covers : k.Covers offset v) {w : Nat} : ¬ k.Below offset w :=
  fun below => Nat.not_lt.mpr covers.2.1 below.1

/-- Keys of one length and identifier at one node are the same. -/
theorem Covers.same_iff {k' : Key} (covers : k.Covers offset v) (covers' : k'.Covers offset v) :
    k.Same k' ↔ k.id = k'.id ∧ k.len = k'.len := by
  constructor
  · rintro ⟨same, ident, -⟩
    exact ⟨ident, same⟩
  · rintro ⟨ident, same⟩
    refine ⟨same, ident, ?_⟩
    rw [← covers.2.2, ← covers'.2.2, same]

/-- A key lives where any key that is the same does. -/
theorem Same.covers {k' : Key} (same : k.Same k') (covers : k'.Covers offset v) :
    k.Covers offset v := by
  obtain ⟨len, -, agree⟩ := same
  obtain ⟨level, short, hit⟩ := covers
  rw [← len] at level short hit
  rw [← len] at agree
  exact ⟨level, short, hit.trans agree.symm⟩

theorem Same.below {k' : Key} (same : k.Same k') (below : k'.Below offset v) : k.Below offset v := by
  obtain ⟨len, -, agree⟩ := same
  obtain ⟨long, hit⟩ := below
  have long' : offset < k.len := len ▸ long
  refine ⟨long', ?_⟩
  rw [← hit, ← top_div k.bytes (Nat.le_of_lt long'), ← top_div k'.bytes (Nat.le_of_lt long), agree, len]

theorem Same.relevant {k' : Key} (same : k.Same k') (relevant : k'.Relevant offset v) :
    k.Relevant offset v :=
  relevant.imp same.covers same.below

end Key

/-! ## The slots a prefix fills -/

theorem maskIndex_eq {index k : Nat} (small : k ≤ 32) (word : index < 2 ^ 32) :
    maskIndex index (2 ^ k) = index / 2 ^ k * 2 ^ k := Bits.and_mask small word

theorem or_eq_add {q k i : Nat} (small : i < 2 ^ k) : q * 2 ^ k ||| i = q * 2 ^ k + i := by
  rw [Nat.mul_comm]
  exact (Nat.two_pow_add_eq_or_of_lt small q).symm

/-- The slots of level `c` that a route fills, of a table whose slot 0 stands for
`base`: the aligned run around the slot of its own prefix. -/
theorem Key.covers_slot {k : Key} {c base index : Nat} (level : c = 16 ∨ c < k.len + 8)
    (short : k.len ≤ c) (here : top k.bytes c = base + index) (aligned : 2 ^ (c - k.len) ∣ base)
    (j : Nat) :
    k.Covers c (base + j) ↔ index / 2 ^ (c - k.len) * 2 ^ (c - k.len) ≤ j ∧
      j < index / 2 ^ (c - k.len) * 2 ^ (c - k.len) + 2 ^ (c - k.len) := by
  have positive : 0 < 2 ^ (c - k.len) := Nat.two_pow_pos _
  have cut : top k.bytes k.len = (base + index) / 2 ^ (c - k.len) := by rw [← here, top_div _ short]
  have same : k.Covers c (base + j) ↔ j / 2 ^ (c - k.len) = index / 2 ^ (c - k.len) := by
    obtain ⟨q, rfl⟩ := aligned
    rw [Nat.mul_add_div positive] at cut
    simp only [Key.Covers, level, short, true_and, Nat.mul_add_div positive, cut]
    omega
  rw [same, Nat.div_eq_iff positive]
  generalize index / 2 ^ (c - k.len) * 2 ^ (c - k.len) = start
  omega

/-- `lpm_index` reads one byte. -/
theorem lpmIndex_byte (bytes : Bytes) (k : Nat) : lpmIndex bytes (8 * k) 8 = (bytes k).toNat := by
  obtain ⟨m, j, small, rfl⟩ : ∃ m j, j < 4 ∧ k = 4 * m + j := ⟨k / 4, k % 4, by omega, by omega⟩
  have word : (8 * (4 * m + j)) >>> 5 = m := by
    rw [Nat.shiftRight_eq_div_pow]
    omega
  have shift : 32 - (8 * (4 * m + j) % 32 + 8) = 24 - 8 * j := by omega
  have mask : ∀ x : Nat, x &&& ((1 <<< 8) - 1) = x % 256 := fun x =>
    Nat.and_two_pow_sub_one_eq_mod x 8
  have b0 := (bytes (4 * m)).toNat_lt
  have b1 := (bytes (4 * m + 1)).toNat_lt
  have b2 := (bytes (4 * m + 2)).toNat_lt
  have b3 := (bytes (4 * m + 3)).toNat_lt
  simp only [lpmIndex, word, shift, mask, Nat.shiftRight_eq_div_pow, ntohl]
  interval_cases j
  · show _ = (bytes (4 * m)).toNat
    omega
  all_goals omega

/-- The child of a next table that an address leads to. -/
theorem lpmIndex_child (bytes : Bytes) {offset : Nat} (aligned : offset % 8 = 0) :
    lpmIndex bytes offset 8 < 256 ∧
      top bytes (offset + 8) = top bytes offset * 256 + lpmIndex bytes offset 8 := by
  obtain ⟨k, rfl⟩ : ∃ k, offset = 8 * k := ⟨offset / 8, by omega⟩
  rw [lpmIndex_byte]
  exact ⟨(bytes k).toNat_lt, top_byte bytes k⟩

/-- The node of the first table that an address leads to. -/
theorem lpmIndex_root (bytes : Bytes) : lpmIndex bytes 0 16 = top bytes 16 := by
  have start : top bytes 8 = (bytes 0).toNat := by
    have first := top_byte bytes 0
    have zero : top bytes 0 = 0 := rfl
    rwa [Nat.mul_zero, zero, Nat.zero_mul, Nat.zero_add, Nat.zero_add] at first
  have second := top_byte bytes 1
  have b0 := (bytes 0).toNat_lt
  have b1 := (bytes 1).toNat_lt
  have b2 := (bytes 2).toNat_lt
  have b3 := (bytes 3).toNat_lt
  have mask : ∀ x : Nat, x &&& ((1 <<< 16) - 1) = x % 65536 := fun x =>
    Nat.and_two_pow_sub_one_eq_mod x 16
  simp only [Nat.mul_one, Nat.reduceAdd] at second
  rw [second]
  simp only [lpmIndex, mask, ntohl, Nat.shiftRight_eq_div_pow, Nat.zero_mod, Nat.zero_add,
    Nat.reduceSub, Nat.zero_div, Nat.mul_zero]
  omega

end Ufp.Daemon
