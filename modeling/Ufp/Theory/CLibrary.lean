/-
# Ufp.Theory.CLibrary — conversions of C, `sscanf` and `snprintf`

An `int` and an `unsigned int` of 32 bits are integers here; `asInt` and `asUnsigned`
are the conversions between them. `scanfU` is `sscanf` with the format `"%u"`, and
`snprintfAt` appends a text to a buffer of bounded size, both as they are documented.
A string is the list of its characters before the terminator.
-/
import Ufp.Theory.Decimal

namespace Ufp.Theory.CLibrary

open Ufp.Theory.Decimal

set_option autoImplicit false

/-- An `unsigned int` in an `int`. -/
def asInt (u : Int) : Int := if u < 2 ^ 31 then u else u - 2 ^ 32

/-- An `int` in an `unsigned int`. -/
def asUnsigned (v : Int) : Int := v % 2 ^ 32

theorem asInt_small {v : Int} (small : v < 2 ^ 31) : asInt v = v := if_pos small

theorem asInt_bounds {v : Int} (bounds : 0 ≤ v ∧ v < 2 ^ 32) : -2 ^ 31 ≤ asInt v ∧ asInt v < 2 ^ 31 := by
  rw [asInt]
  split <;> omega

theorem asUnsigned_bounds (v : Int) : 0 ≤ asUnsigned v ∧ asUnsigned v < 2 ^ 32 := by
  rw [asUnsigned]
  omega

theorem asUnsigned_small {v : Int} (bounds : 0 ≤ v ∧ v < 2 ^ 32) : asUnsigned v = v :=
  Int.emod_eq_of_lt bounds.1 bounds.2

theorem asUnsigned_asInt {v : Int} (bounds : 0 ≤ v ∧ v < 2 ^ 32) : asUnsigned (asInt v) = v := by
  simp only [asInt, asUnsigned]
  split <;> omega

/-- An `int` is the same after a conversion to `unsigned int` and back. -/
theorem asInt_asUnsigned {v : Int} (low : -2 ^ 31 ≤ v) (high : v < 2 ^ 31) : asInt (asUnsigned v) = v := by
  unfold asInt asUnsigned
  split <;> omega

/-- `sscanf` with `"%u"`: the number as `strtoul` gives it, which is `ULONG_MAX`
past its range, in an `unsigned int`. -/
def scanfU (s : List Char) : Option Int :=
  (numeral s).map fun v => asUnsigned (if 2 ^ 64 ≤ v.natAbs then 2 ^ 64 - 1 else v)

/-- `snprintf(&result[strlen(result)], max_len - strlen(result), ...)` for a text:
what it returns, and the string in the buffer. -/
def snprintfAt (maxLen : Nat) (result text : List Char) : Int × List Char :=
  (text.length, result ++ text.take (maxLen - result.length - 1))

/-- Of a text and one more, no more than fits is kept. -/
theorem snprintfAt_take (n : Nat) (result text : List Char) :
    (snprintfAt (n + 1) (result.take n) text).2 = (result ++ text).take n := by
  have room : n + 1 - (result.take n).length - 1 = n - result.length := by
    rw [List.length_take]
    omega
  rw [snprintfAt, room, List.take_append]

end Ufp.Theory.CLibrary
