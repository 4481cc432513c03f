/-
# Ufp.Theory.BitString — strings of bits in bytes

A byte string is a function from addresses to bytes. Bit `k` of it is bit `k % 8`
of byte `k / 8`. `word` reads some bytes as a little-endian number and `field` some
bits; `testBit_word` and `testBit_field` give both bit by bit. `shiftUp` and
`shiftDown` move a string by less than a byte, carrying between neighbours, as a
loop over its bytes does.
-/
import Mathlib.Data.Nat.Bitwise

namespace Ufp.Theory.BitString

set_option autoImplicit false

variable {m : Nat → UInt8} {k s size : Nat}

/-- Bit `k`. -/
def bit (m : Nat → UInt8) (k : Nat) : Bool := (m (k / 8)).toNat.testBit (k % 8)

/-- The string from byte `a` on. -/
def fromByte (m : Nat → UInt8) (a : Nat) : Nat → UInt8 := fun i => m (a + i)

/-- The number in the first `size` bytes. -/
def word (m : Nat → UInt8) : Nat → Nat
  | 0 => 0
  | size + 1 => word m size + (m size).toNat * 2 ^ (8 * size)

/-- The number in the `width` bits from bit `lsb` on. -/
def field (m : Nat → UInt8) (lsb width : Nat) : Nat := Nat.ofBits fun i : Fin width => bit m (lsb + i)

/-! ## Bits of bytes -/

theorem testBit_or (a b : UInt8) (t : Nat) :
    (a ||| b).toNat.testBit t = (a.toNat.testBit t || b.toNat.testBit t) := by
  rw [UInt8.toNat_or, Nat.testBit_or]

theorem testBit_and (a b : UInt8) (t : Nat) :
    (a &&& b).toNat.testBit t = (a.toNat.testBit t && b.toNat.testBit t) := by
  rw [UInt8.toNat_and, Nat.testBit_and]

theorem testBit_not (a : UInt8) {t : Nat} (inside : t < 8) :
    (~~~a).toNat.testBit t = !a.toNat.testBit t := by
  rw [← UInt8.toNat_toBitVec, ← UInt8.toNat_toBitVec, BitVec.testBit_toNat, BitVec.testBit_toNat,
    UInt8.toBitVec_not, BitVec.getLsbD_not, decide_eq_true inside, Bool.true_and]

theorem testBit_ofNat (n t : Nat) : (UInt8.ofNat n).toNat.testBit t = (decide (t < 8) && n.testBit t) := by
  rw [UInt8.toNat_ofNat', Nat.testBit_mod_two_pow]

theorem testBit_past (a : UInt8) {t : Nat} (past : 8 ≤ t) : a.toNat.testBit t = false :=
  Nat.testBit_lt_two_pow (a.toNat_lt.trans_le (Nat.pow_le_pow_right (by decide) past))

/-- The low bits of a number stay below a power of two when none of them is at or above its exponent. -/
theorem mod_two_pow_lt_iff {n room width : Nat} :
    n % 2 ^ room < 2 ^ width ↔ ∀ i, width ≤ i → i < room → n.testBit i = false := by
  constructor
  · intro small i beyond inside
    have high := Nat.testBit_lt_two_pow (small.trans_le (Nat.pow_le_pow_right (by decide) beyond))
    rwa [Nat.testBit_mod_two_pow, decide_eq_true inside, Bool.true_and] at high
  · intro clear
    refine Nat.lt_pow_two_of_testBit _ fun i beyond => ?_
    rw [Nat.testBit_mod_two_pow]
    by_cases inside : i < room
    · rw [clear i beyond inside, Bool.and_false]
    · rw [decide_eq_false inside, Bool.false_and]

theorem bit_zeros : bit (fun _ => 0) k = false := Nat.zero_testBit _

theorem bit_ones : bit (fun _ => 0xff) k = true := by
  have inside : k % 8 < 8 := Nat.mod_lt k (by decide)
  rw [bit, show (0xff : UInt8).toNat = 2 ^ 8 - 1 from rfl, Nat.testBit_two_pow_sub_one]
  exact decide_eq_true inside

/-! ## Words and fields -/

theorem word_lt (m : Nat → UInt8) (size : Nat) : word m size < 2 ^ (8 * size) := by
  induction size with
  | zero => exact Nat.one_pos
  | succ size ih =>
      have byte := (m size).toNat_lt
      have split : 2 ^ (8 * (size + 1)) = 2 ^ (8 * size) * 256 := by rw [Nat.mul_succ, Nat.pow_add]
      have top : (m size).toNat * 2 ^ (8 * size) ≤ 255 * 2 ^ (8 * size) := Nat.mul_le_mul_right _ (by omega)
      rw [word, split]
      omega

theorem testBit_word : (word m size).testBit k = (decide (k < 8 * size) && bit m k) := by
  induction size with
  | zero => rw [word, Nat.zero_testBit, Nat.mul_zero, decide_eq_false (Nat.not_lt_zero k), Bool.false_and]
  | succ size ih =>
      rw [word, Nat.mul_comm, Nat.add_comm, Nat.testBit_two_pow_mul_add _ (word_lt m size)]
      split
      · rename_i low
        rw [ih, decide_eq_true low, decide_eq_true (show k < 8 * (size + 1) by omega)]
      · rename_i high
        by_cases inside : k < 8 * (size + 1)
        · rw [decide_eq_true inside, Bool.true_and, bit, show k / 8 = size by omega,
            show k % 8 = k - 8 * size by omega]
        · rw [decide_eq_false inside, Bool.false_and]
          exact testBit_past _ (by omega)

theorem testBit_field {lsb width i : Nat} :
    (field m lsb width).testBit i = (decide (i < width) && bit m (lsb + i)) := by
  by_cases inside : i < width
  · rw [field, Nat.testBit_ofBits_lt _ _ inside, decide_eq_true inside, Bool.true_and]
  · rw [field, Nat.testBit_ofBits_ge _ _ (Nat.not_lt.mp inside), decide_eq_false inside, Bool.false_and]

/-- A field holds a number when its bits are those of the number. -/
theorem field_eq {lsb width n : Nat} (small : n < 2 ^ width)
    (bits : ∀ i < width, bit m (lsb + i) = n.testBit i) : field m lsb width = n := by
  refine Nat.eq_of_testBit_eq fun i => ?_
  rw [testBit_field]
  by_cases inside : i < width
  · rw [decide_eq_true inside, Bool.true_and, bits i inside]
  · rw [decide_eq_false inside, Bool.false_and]
    exact (Nat.testBit_lt_two_pow (small.trans_le (Nat.pow_le_pow_right (by decide) (Nat.not_lt.mp inside)))).symm

theorem bit_from (m : Nat → UInt8) (a k : Nat) : bit (fromByte m a) k = bit m (8 * a + k) := by
  rw [bit, bit, fromByte, show (8 * a + k) / 8 = a + k / 8 by omega, show (8 * a + k) % 8 = k % 8 by omega]

/-! ## Shifts by less than a byte -/

/-- The bits of byte `i - 1` that a shift by `s` carries up into byte `i`. -/
def carryUp (m : Nat → UInt8) (s : Nat) : Nat → UInt8
  | 0 => 0
  | i + 1 => UInt8.ofNat ((m i).toNat >>> (8 - s))

/-- The string shifted up by `s` bits. -/
def shiftUp (m : Nat → UInt8) (s i : Nat) : UInt8 := UInt8.ofNat ((m i).toNat <<< s) ||| carryUp m s i

/-- The bits of byte `i` that a shift by `s` of a string of `size` bytes carries down into byte `i - 1`. -/
def carryDown (m : Nat → UInt8) (s size i : Nat) : UInt8 :=
  if i < size then UInt8.ofNat ((m i).toNat <<< (8 - s)) else 0

/-- The string of `size` bytes shifted down by `s` bits. -/
def shiftDown (m : Nat → UInt8) (s size i : Nat) : UInt8 :=
  UInt8.ofNat ((m i).toNat >>> s) ||| carryDown m s size (i + 1)

theorem bit_shiftUp (short : s < 8) : bit (shiftUp m s) k = (decide (s ≤ k) && bit m (k - s)) := by
  rw [bit, shiftUp, testBit_or, testBit_ofNat, Nat.testBit_shiftLeft,
    decide_eq_true (Nat.mod_lt k (by decide)), Bool.true_and]
  by_cases low : s ≤ k % 8
  · -- the bit comes from the same byte
    have carried : (carryUp m s (k / 8)).toNat.testBit (k % 8) = false := by
      cases k / 8 with
      | zero => exact Nat.zero_testBit _
      | succ i =>
          rw [carryUp, testBit_ofNat, Nat.testBit_shiftRight, testBit_past _ (by omega), Bool.and_false]
    rw [carried, decide_eq_true low, decide_eq_true (show s ≤ k by omega), Bool.or_false, Bool.true_and,
      Bool.true_and, bit, show (k - s) / 8 = k / 8 by omega, show (k - s) % 8 = k % 8 - s by omega]
  · rw [decide_eq_false low, Bool.false_and, Bool.false_or]
    rcases byte : k / 8 with _ | i
    · rw [decide_eq_false (show ¬ s ≤ k by omega), Bool.false_and]
      exact Nat.zero_testBit _
    · rw [carryUp, testBit_ofNat, Nat.testBit_shiftRight, decide_eq_true (show s ≤ k by omega),
        decide_eq_true (Nat.mod_lt k (by decide)), bit, show (k - s) / 8 = i by omega,
        show (k - s) % 8 = 8 - s + k % 8 by omega]

theorem bit_shiftDown (short : s < 8) (inside : k < 8 * size) :
    bit (shiftDown m s size) k = (decide (k + s < 8 * size) && bit m (k + s)) := by
  rw [bit, shiftDown, testBit_or, testBit_ofNat, Nat.testBit_shiftRight,
    decide_eq_true (Nat.mod_lt k (by decide)), Bool.true_and]
  by_cases low : k % 8 + s < 8
  · have carried : (carryDown m s size (k / 8 + 1)).toNat.testBit (k % 8) = false := by
      unfold carryDown
      split
      · rw [testBit_ofNat, Nat.testBit_shiftLeft, decide_eq_false (show ¬ 8 - s ≤ k % 8 by omega),
          Bool.false_and, Bool.and_false]
      · exact Nat.zero_testBit _
    rw [carried, Bool.or_false, decide_eq_true (show k + s < 8 * size by omega), Bool.true_and, bit,
      show (k + s) / 8 = k / 8 by omega, show (k + s) % 8 = s + k % 8 by omega]
  · rw [testBit_past _ (by omega), Bool.false_or, carryDown]
    by_cases last : k / 8 + 1 < size
    · rw [if_pos last, testBit_ofNat, Nat.testBit_shiftLeft, decide_eq_true (Nat.mod_lt k (by decide)),
        decide_eq_true (show 8 - s ≤ k % 8 by omega), decide_eq_true (show k + s < 8 * size by omega),
        Bool.true_and, bit, show (k + s) / 8 = k / 8 + 1 by omega, show (k + s) % 8 = k % 8 - (8 - s) by omega]
    · rw [if_neg last, decide_eq_false (show ¬ k + s < 8 * size by omega), Bool.false_and]
      exact Nat.zero_testBit _

end Ufp.Theory.BitString
