/-
# Ufp.Theory.OnesComplement — sums with an end-around carry

Words of `w` bits are added as one's-complement numbers: what does not fit is
added at the low end again. The sum of a list of words is then its sum modulo
`2 ^ w - 1`, where only words that are all 0 sum up to 0 and other multiples of
the modulus show as `2 ^ w - 1`. The checksum of a list is the complement of its
sum; `checksum_eq` says when a number is the checksum.
-/
import Mathlib.Data.Nat.ModEq
import Mathlib.Logic.Function.Basic

namespace Ufp.Theory.OnesComplement

set_option autoImplicit false

variable {w : Nat}

/-- The largest word, which is also the modulus. -/
def top (w : Nat) : Nat := 2 ^ w - 1

/-- Addition with an end-around carry. -/
def add (w a b : Nat) : Nat := (a + b) % 2 ^ w + (a + b) / 2 ^ w

/-- The one's-complement sum. -/
def sum (w : Nat) (words : List Nat) : Nat := words.foldl (add w) 0

/-- The complement of the sum. -/
def checksum (w : Nat) (words : List Nat) : Nat := top w - sum w words

theorem top_add_one (w : Nat) : top w + 1 = 2 ^ w := Nat.sub_add_cancel (Nat.two_pow_pos w)

theorem add_add_mul (a b : Nat) : add w a b + top w * ((a + b) / 2 ^ w) = a + b := by
  have split := Nat.mod_add_div (a + b) (2 ^ w)
  rw [← top_add_one w, Nat.add_mul, Nat.one_mul, top_add_one] at split
  unfold add
  omega

theorem add_modEq (a b : Nat) : add w a b ≡ a + b [MOD top w] := by
  have split := @add_add_mul w a b
  calc add w a b ≡ add w a b + top w * ((a + b) / 2 ^ w) [MOD top w] :=
        (Nat.add_mul_mod_self_left _ _ _).symm
    _ = a + b := split

theorem add_le {a b : Nat} (left : a ≤ top w) (right : b ≤ top w) : add w a b ≤ top w := by
  have whole := top_add_one w
  have split := @add_add_mul w a b
  rcases Nat.lt_or_ge (a + b) (2 ^ w) with small | large
  · rw [Nat.div_eq_of_lt small] at split
    omega
  · have carry : (a + b) / 2 ^ w = 1 :=
      Nat.div_eq_of_lt_le (by omega) (by omega)
    rw [carry] at split
    omega

theorem add_eq_zero {a b : Nat} : add w a b = 0 ↔ a + b = 0 := by
  have split := @add_add_mul w a b
  constructor
  · intro zero
    have parts : (a + b) % 2 ^ w = 0 ∧ (a + b) / 2 ^ w = 0 := Nat.add_eq_zero_iff.mp zero
    rw [zero, parts.2] at split
    omega
  · intro zero
    unfold add
    rw [zero, Nat.zero_mod, Nat.zero_div]

/-! ## Sums of words -/

/-- What the loop over the words has computed. -/
theorem foldl_add {words : List Nat} {start : Nat} (small : start ≤ top w)
    (fits : ∀ word ∈ words, word ≤ top w) :
    words.foldl (add w) start ≤ top w ∧ words.foldl (add w) start ≡ start + words.sum [MOD top w] ∧
      (words.foldl (add w) start = 0 ↔ start + words.sum = 0) := by
  induction words generalizing start with
  | nil => exact ⟨small, Nat.ModEq.refl _, Iff.rfl⟩
  | cons word words ih =>
      obtain ⟨here, rest⟩ := List.forall_mem_cons.mp fits
      obtain ⟨below, same, zero⟩ := ih (add_le small here) rest
      rw [List.foldl_cons, List.sum_cons, ← Nat.add_assoc]
      refine ⟨below, same.trans ((add_modEq start word).add_right _), zero.trans ?_⟩
      rw [Nat.add_eq_zero_iff, add_eq_zero, ← Nat.add_eq_zero_iff]

variable {words : List Nat} (fits : ∀ word ∈ words, word ≤ top w)

include fits

theorem sum_le : sum w words ≤ top w := (foldl_add (Nat.zero_le _) fits).1

theorem sum_modEq : sum w words ≡ words.sum [MOD top w] := by
  have same := (foldl_add (Nat.zero_le _) fits).2.1
  rwa [Nat.zero_add] at same

theorem sum_pos (some : 0 < words.sum) : 0 < sum w words := by
  rw [Nat.pos_iff_ne_zero]
  intro zero
  have none := (foldl_add (Nat.zero_le (top w)) fits).2.2.mp zero
  omega

/-- Words that are not all 0 sum up to `top w` exactly if their sum is a multiple. -/
theorem sum_eq_top (some : 0 < words.sum) : sum w words = top w ↔ words.sum ≡ 0 [MOD top w] := by
  have below := sum_le fits
  have above := sum_pos fits some
  have same := sum_modEq fits
  constructor
  · intro whole
    rw [whole] at same
    exact same.symm.trans (Nat.mod_self (top w))
  · intro multiple
    have divides := (Nat.modEq_zero_iff_dvd).mp (same.trans multiple)
    exact Nat.le_antisymm below (Nat.le_of_dvd above divides)

/-- The checksum is the one word below `top w` that completes the sum to a multiple. -/
theorem checksum_eq (some : 0 < words.sum) {check : Nat} (small : check < top w)
    (completes : check + words.sum ≡ 0 [MOD top w]) : check = checksum w words := by
  have below := sum_le fits
  have above := sum_pos fits some
  have zero : check + sum w words ≡ 0 [MOD top w] := ((sum_modEq fits).add_left check).trans completes
  obtain ⟨factor, whole⟩ := (Nat.modEq_zero_iff_dvd).mp zero
  have one : factor = 1 := by
    have low : 0 < factor := by
      rw [Nat.pos_iff_ne_zero]
      rintro rfl
      omega
    have high : factor < 2 := by
      by_contra large
      have twice := Nat.mul_le_mul_left (top w) (Nat.not_lt.mp large)
      omega
    omega
  rw [one] at whole
  unfold checksum
  omega

omit fits

/-! ## One word of a sequence -/

/-- The sum of `n` words, with one of them set apart. -/
theorem sum_pick {n i : Nat} (f : Nat → Nat) (inside : i < n) :
    ((List.range n).map f).sum = f i + ((List.range n).map (Function.update f i 0)).sum := by
  induction n with
  | zero => exact absurd inside (Nat.not_lt_zero i)
  | succ n ih =>
      simp only [List.range_succ, List.map_append, List.sum_append, List.map_cons, List.map_nil,
        List.sum_singleton]
      by_cases last : i = n
      · subst last
        have same : (List.range i).map (Function.update f i 0) = (List.range i).map f := by
          apply List.map_congr_left
          intro k below
          exact Function.update_of_ne (Nat.ne_of_lt (List.mem_range.mp below)) _ _
        rw [same, Function.update_self]
        omega
      · rw [ih (by omega), Function.update_of_ne (Ne.symm last)]
        omega

end Ufp.Theory.OnesComplement
