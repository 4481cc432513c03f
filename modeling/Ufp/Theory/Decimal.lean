/-
# Ufp.Theory.Decimal — decimal numbers in C strings

A C string is the list of its characters before the terminator. `numeral` is the
number at the start of a string as the integer conversions of `sscanf` take it:
blanks, a sign and digits, and then anything. `decimal` is what `%d` prints, and
`numeral_decimal` reads it back. `commas` is a list of numbers with commas between
them: `splitOn_commas` takes it apart again, and `splitOn_take_commas` says what is
left of the first numbers of a list that was cut off.
-/
import Mathlib.Algebra.Order.Ring.Nat
import Mathlib.Data.Int.Range
import Mathlib.Data.List.TakeWhile

namespace Ufp.Theory.Decimal

set_option autoImplicit false

/-- The characters of `isspace`. -/
def isBlank (c : Char) : Bool := c = ' ' || ('\t' ≤ c && c ≤ '\r')

/-- The number in the digits at the start of a string, if there are any. -/
def digitsValue (s : List Char) : Option Nat :=
  match s.takeWhile Char.isDigit with
  | [] => none
  | digits => some (Nat.ofDigitChars 10 digits 0)

def numeral (s : List Char) : Option Int :=
  match s.dropWhile isBlank with
  | '-' :: rest => (digitsValue rest).map fun n : Nat => -(n : Int)
  | '+' :: rest => (digitsValue rest).map fun n : Nat => (n : Int)
  | rest => (digitsValue rest).map fun n : Nat => (n : Int)

def decimal (v : Int) : List Char :=
  if v < 0 then '-' :: Nat.toDigits 10 v.natAbs else Nat.toDigits 10 v.natAbs

/-- The numbers of a list, with commas between them. -/
def commas (nums : List Int) : List Char := [','].intercalate (nums.map decimal)

/-! ## One number -/

theorem digitsValue_toDigits (n : Nat) : digitsValue (Nat.toDigits 10 n) = some n := by
  have all : (Nat.toDigits 10 n).takeWhile Char.isDigit = Nat.toDigits 10 n :=
    List.takeWhile_eq_self_iff.2 fun c member =>
      Nat.isDigit_of_mem_toDigits (by decide) (by decide) member
  rw [digitsValue, all]
  split
  · rename_i empty
    exact absurd empty Nat.toDigits_ne_nil
  · rw [Nat.ofDigitChars_ten_toDigits]

theorem numeral_digits {d : Char} {ds : List Char} (digit : d.isDigit = true) :
    numeral (d :: ds) = (digitsValue (d :: ds)).map fun n : Nat => (n : Int) := by
  have visible : isBlank d = false := by
    simp only [Char.isDigit, isBlank, Char.le_def, Bool.and_eq_true, decide_eq_true_eq, Bool.or_eq_false_iff,
      Bool.and_eq_false_iff, decide_eq_false_iff_not] at digit ⊢
    refine ⟨?_, .inr ?_⟩
    · rintro rfl
      exact absurd digit.1 (by decide)
    · exact fun blank => absurd (UInt32.le_trans digit.1 blank) (by decide)
  rw [numeral, List.dropWhile_cons_of_neg (by simp [visible])]
  split
  · rename_i same
    rw [(List.cons.inj same).1] at digit
    exact absurd digit (by decide)
  · rename_i same
    rw [(List.cons.inj same).1] at digit
    exact absurd digit (by decide)
  · rfl

theorem toDigits_cons (n : Nat) :
    ∃ d ds, Nat.toDigits 10 n = d :: ds ∧ d.isDigit = true := by
  obtain ⟨d, ds, split⟩ := List.exists_cons_of_ne_nil (Nat.toDigits_ne_nil (n := n) (b := 10))
  have first : d ∈ Nat.toDigits 10 n := split ▸ List.mem_cons_self
  exact ⟨d, ds, split, Nat.isDigit_of_mem_toDigits (by decide) (by decide) first⟩

/-- **What `%d` prints is read back as the number.** -/
theorem numeral_decimal (v : Int) : numeral (decimal v) = some v := by
  rw [decimal]
  split
  case isTrue negative =>
      rw [numeral, List.dropWhile_cons_of_neg (by decide)]
      show (digitsValue _).map _ = _
      rw [digitsValue_toDigits, Option.map_some, Int.ofNat_natAbs_of_nonpos (by omega), Int.neg_neg]
  case isFalse natural =>
      obtain ⟨d, ds, split, digit⟩ := toDigits_cons v.natAbs
      rw [split, numeral_digits digit, ← split, digitsValue_toDigits, Option.map_some,
        Int.natAbs_of_nonneg (by omega)]

theorem decimal_ne_nil (v : Int) : decimal v ≠ [] := by
  rw [decimal]
  split
  · exact List.cons_ne_nil _ _
  · exact Nat.toDigits_ne_nil

theorem decimal_natCast (n : Nat) : decimal (n : Int) = Nat.toDigits 10 n := by
  rw [decimal, if_neg (Int.not_lt.2 (Int.natCast_nonneg n)), Int.natAbs_natCast]

theorem decimal_injective : Function.Injective decimal := by
  intro v w same
  exact Option.some.inj (by rw [← numeral_decimal v, ← numeral_decimal w, same])

theorem not_mem_decimal {c : Char} (letter : c.isDigit = false) (sign : c ≠ '-') (v : Int) : c ∉ decimal v := by
  have digits : c ∉ Nat.toDigits 10 v.natAbs := fun member =>
    absurd (Nat.isDigit_of_mem_toDigits (by decide) (by decide) member) (by simp [letter])
  rw [decimal]
  split
  · rw [List.mem_cons, not_or]
    exact ⟨sign, digits⟩
  · exact digits

theorem length_decimal_le {v : Int} {k : Nat} (positive : 0 < k) (short : v.natAbs < 10 ^ k) :
    (decimal v).length ≤ k + 1 := by
  have digits := (Nat.length_toDigits_le_iff (by decide) positive).2 short
  rw [decimal]
  split
  · exact Nat.succ_le_succ digits
  · exact Nat.le_succ_of_le digits

/-! ## Numbers with commas between them -/

@[simp] theorem commas_nil : commas [] = [] := rfl

@[simp] theorem commas_singleton (v : Int) : commas [v] = decimal v := List.intercalate_singleton

theorem commas_cons_cons (v w : Int) (nums : List Int) :
    commas (v :: w :: nums) = decimal v ++ ',' :: commas (w :: nums) := by
  simp [commas, List.intercalate_cons_cons]

variable {nums more : List Int}

theorem commas_append (nonempty : nums ≠ []) (others : more ≠ []) :
    commas (nums ++ more) = commas nums ++ ',' :: commas more := by
  induction nums with
  | nil => exact absurd rfl nonempty
  | cons v nums ih =>
      match nums with
      | [] =>
          obtain ⟨w, more, rfl⟩ := List.exists_cons_of_ne_nil others
          rw [List.singleton_append, commas_cons_cons, commas_singleton]
      | w :: nums =>
          rw [List.cons_append, List.cons_append, commas_cons_cons, commas_cons_cons, ← List.cons_append,
            ih (List.cons_ne_nil _ _), List.append_assoc, List.cons_append]

theorem commas_eq_nil : commas nums = [] ↔ nums = [] := by
  constructor
  · intro empty
    match nums with
    | [] => rfl
    | [v] => exact absurd empty (by rw [commas_singleton]; exact decimal_ne_nil v)
    | v :: w :: nums => simp [commas_cons_cons] at empty
  · rintro rfl
    rfl

/-- One more number at the end. -/
theorem commas_concat (nums : List Int) (v : Int) :
    commas (nums ++ [v]) = commas nums ++ ((if commas nums = [] then [] else [',']) ++ decimal v) := by
  by_cases empty : nums = []
  · simp [empty]
  · rw [commas_append empty (List.cons_ne_nil _ _), commas_singleton, if_neg (mt commas_eq_nil.1 empty)]
    rfl

/-- A number in the text stands after what the numbers before it make of it. -/
theorem commas_lead (nums : List Int) :
    ∃ lead, ∀ v rest, ∃ tail, commas (nums ++ v :: rest) = lead ++ (decimal v ++ tail) := by
  have from_ : ∀ v rest, ∃ tail, commas (v :: rest) = decimal v ++ tail := by
    intro v rest
    cases rest with
    | nil => exact ⟨[], by rw [commas_singleton, List.append_nil]⟩
    | cons w rest => exact ⟨_, commas_cons_cons v w rest⟩
  by_cases empty : nums = []
  · exact ⟨[], fun v rest => by simpa [empty] using from_ v rest⟩
  · refine ⟨commas nums ++ [','], fun v rest => ?_⟩
    obtain ⟨tail, split⟩ := from_ v rest
    refine ⟨tail, ?_⟩
    rw [commas_append empty (List.cons_ne_nil _ _), split, List.append_assoc, List.singleton_append]

/-- A text with a sign in a place is not one with a digit there, however it is cut
off. -/
theorem take_commas_sign {rest : List Int} {v w : Int} (natural : 0 ≤ v) (negative : w < 0) (n : Nat) :
    (commas (nums ++ w :: more)).take n ≠ commas (nums ++ v :: rest) := by
  obtain ⟨lead, after⟩ := commas_lead nums
  obtain ⟨wTail, wText⟩ := after w more
  obtain ⟨vTail, vText⟩ := after v rest
  obtain ⟨d, ds, digits, digit⟩ := toDigits_cons v.natAbs
  rw [wText, vText, decimal, if_pos negative, decimal, if_neg (by omega), digits]
  intro same
  -- the character right after what both have in common
  have here := congrArg (fun text : List Char => text[lead.length]?) same
  simp only [List.getElem?_take, List.getElem?_append_right (Nat.le_refl _), Nat.sub_self, List.cons_append,
    List.getElem?_cons_zero] at here
  split at here
  · rw [← Option.some.inj here] at digit
    exact absurd digit (by decide)
  · cases here

theorem splitOn_commas (nonempty : nums ≠ []) : (commas nums).splitOn ',' = nums.map decimal := by
  apply List.splitOn_intercalate
  · intro field member
    obtain ⟨v, _, rfl⟩ := List.mem_map.1 member
    exact not_mem_decimal (by decide) (by decide) v
  · exact mt List.map_eq_nil_iff.1 nonempty

theorem length_commas_le {k : Nat} (short : ∀ v ∈ nums, (decimal v).length ≤ k) :
    (commas nums).length ≤ nums.length * (k + 1) := by
  induction nums with
  | nil => simp
  | cons v nums ih =>
      have first := short v List.mem_cons_self
      have rest := ih fun w member => short w (List.mem_cons_of_mem _ member)
      match nums with
      | [] =>
          rw [commas_singleton, List.length_singleton]
          omega
      | w :: nums =>
          rw [commas_cons_cons, List.length_append, List.length_cons, List.length_cons, Nat.succ_mul]
          omega

/-- **The first numbers of a text that was cut off after them.** -/
theorem splitOn_take_commas {n : Nat} (nonempty : nums ≠ []) (others : more ≠ []) (kept : (commas nums).length < n) :
    ∃ fields, fields ≠ [] ∧ ((commas (nums ++ more)).take n).splitOn ',' = nums.map decimal ++ fields := by
  obtain ⟨m, rfl⟩ := Nat.exists_eq_add_of_lt kept
  refine ⟨((commas more).take m).splitOn ',', List.splitOn_ne_nil _ _, ?_⟩
  rw [commas_append nonempty others, Nat.add_assoc, List.take_length_add_append, List.take_succ_cons,
    List.splitOn_append_cons_self, splitOn_commas nonempty]

end Ufp.Theory.Decimal
