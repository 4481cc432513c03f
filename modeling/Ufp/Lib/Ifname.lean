/-
# Ufp.Lib.Ifname — the names of TAP interfaces, `lib/lib_main.c`

`ufp_ifname_base` makes the name of an interface from the PCI address of its device:
`un`, the domain if it is not 0, the bus, the slot and the function, each a letter and
a decimal number. The pieces are appended to a buffer of `IFNAMSIZ` bytes, and what
does not fit is dropped. The whole text would tell any two addresses apart
(`stem_inj`); of the longest ones the function is lost (`ifnames_differ_iff`).
-/
import Ufp.Theory.CLibrary
import Mathlib.Data.List.Basic

namespace Ufp.Lib.Ifname

open Ufp.Theory.CLibrary (snprintfAt snprintfAt_take)
open Ufp.Theory.Decimal

set_option autoImplicit false

/-- `IFNAMSIZ`. -/
def ifnamsiz : Nat := 16

/-! ## `sscanf` -/

/-- The value of a hexadecimal digit. -/
def hexDigit (c : Char) : Option Nat :=
  if '0' ≤ c ∧ c ≤ '9' then some (c.toNat - 48)
  else if 'a' ≤ c ∧ c ≤ 'f' then some (c.toNat - 87)
  else if 'A' ≤ c ∧ c ≤ 'F' then some (c.toNat - 55)
  else none

/-- The number that digits stand for. -/
def hexValue (digits : List Char) : Nat := digits.foldl (fun v c => v * 16 + (hexDigit c).getD 0) 0

/-- A sign, within a field width: whether it was `-`, and what is left of both. -/
def takeSign (width : Nat) : List Char → Bool × Nat × List Char
  | '-' :: rest => (true, width - 1, rest)
  | '+' :: rest => (false, width - 1, rest)
  | s => (false, width, s)

/-- The `0x` that a hexadecimal number may begin with. -/
def takeHex (width : Nat) : List Char → Nat × List Char
  | '0' :: x :: rest =>
      if (x = 'x' ∨ x = 'X') ∧ 2 ≤ width then (width - 2, rest) else (width, '0' :: x :: rest)
  | s => (width, s)

/-- `%x` with a field width, for a number of so many bits: blanks, then at most `width`
characters of a sign, `0x` and digits, as `strtoul` takes them. The number, and what
follows it. -/
def scanX (width bits : Nat) (s : List Char) : Option (Nat × List Char) :=
  let (negative, width, s) := takeSign width (s.dropWhile isBlank)
  let (width, s) := takeHex width s
  let digits := (s.take width).takeWhile fun c => (hexDigit c).isSome
  if digits = [] then none
  else
    let value : Int := if negative then -hexValue digits else hexValue digits
    some ((value % 2 ^ bits).toNat, s.drop digits.length)

/-- A character of the format. -/
def literal (c : Char) : List Char → Option (List Char)
  | [] => none
  | d :: rest => if d = c then some rest else none

/-! ## The name -/

/-- `ufp_ifname_base`: the name, or `none` for -1. -/
def ufpIfnameBase (devName : List Char) : Option (List Char) := do
  let (domain, s) ← scanX 4 16 devName
  let s ← literal ':' s
  let (bus, s) ← scanX 2 8 s
  let s ← literal ':' s
  let (slot, s) ← scanX 2 8 s
  let s ← literal '.' s
  let (func, _) ← scanX 1 8 s
  let name := (snprintfAt ifnamsiz [] "un".toList).2
  let name := if domain ≠ 0 then (snprintfAt ifnamsiz name ('P' :: decimal domain)).2 else name
  let name := (snprintfAt ifnamsiz name ('p' :: decimal bus)).2
  let name := (snprintfAt ifnamsiz name ('s' :: decimal slot)).2
  some (snprintfAt ifnamsiz name ('f' :: decimal func)).2

/-- A PCI address. -/
structure PciAddr where
  domain : Fin (2 ^ 16)
  bus : Fin (2 ^ 8)
  slot : Fin (2 ^ 5)
  func : Fin (2 ^ 3)
  deriving DecidableEq

/-- So many hexadecimal digits that stand for `v`. -/
structure Digits (count v : Nat) (text : List Char) : Prop where
  length : text.length = count
  hex : ∀ c ∈ text, (hexDigit c).isSome
  value : hexValue text = v

theorem Digits.ofAll {count v : Nat} {text : List Char} (length : text.length = count)
    (hex : text.all (fun c => (hexDigit c).isSome) = true) (value : hexValue text = v) : Digits count v text :=
  ⟨length, List.all_eq_true.1 hex, value⟩

/-- The address in the form `dddd:bb:ss.f`. -/
def Written (a : PciAddr) (text : List Char) : Prop :=
  ∃ domain bus slot func, Digits 4 a.domain domain ∧ Digits 2 a.bus bus ∧ Digits 2 a.slot slot ∧
    Digits 1 a.func func ∧ text = domain ++ ':' :: (bus ++ ':' :: (slot ++ '.' :: func))

/-- The domain in a name: domain 0 is left out. -/
def domainPart (domain : Nat) : List Char := if domain ≠ 0 then 'P' :: decimal domain else []

/-- The name up to the function. -/
def stem (a : PciAddr) : List Char :=
  "un".toList ++ (domainPart a.domain ++ 'p' :: (decimal (a.bus : Nat) ++ 's' :: decimal (a.slot : Nat)))

/-- The function in a name. -/
def funcPart (a : PciAddr) : List Char := 'f' :: decimal (a.func : Nat)

/-- The two are functions of one device. -/
def SameSlot (a b : PciAddr) : Prop := a.domain = b.domain ∧ a.bus = b.bus ∧ a.slot = b.slot

/-- The numbers leave room for the function. -/
def Short (a : PciAddr) : Prop :=
  (a.domain : Nat) = 0 ∨
    (decimal (a.domain : Nat)).length + (decimal (a.bus : Nat)).length + (decimal (a.slot : Nat)).length ≤ 8

/-! ## Reading the address -/

theorem hexDigit_range {c : Char} (hex : (hexDigit c).isSome) : 48 ≤ c.toNat ∧ c.toNat < 103 := by
  simp only [hexDigit, Char.le_def, UInt32.le_iff_toNat_le] at hex
  have value : c.toNat = c.val.toNat := rfl
  split at hex
  case isTrue digit => exact ⟨digit.1, Nat.lt_of_le_of_lt digit.2 (by decide)⟩
  case isFalse =>
      split at hex
      case isTrue lower => exact ⟨Nat.le_trans (by decide) lower.1, Nat.lt_succ_of_le lower.2⟩
      case isFalse =>
          split at hex
          case isTrue upper => exact ⟨Nat.le_trans (by decide) upper.1, Nat.lt_of_le_of_lt upper.2 (by decide)⟩
          case isFalse => cases hex

theorem hexDigit_visible {c : Char} (hex : (hexDigit c).isSome) : isBlank c = false := by
  have low := (hexDigit_range hex).1
  by_contra blank
  simp only [isBlank, Bool.not_eq_false, Bool.or_eq_true, Bool.and_eq_true, decide_eq_true_eq, Char.le_def,
    UInt32.le_iff_toNat_le] at blank
  rcases blank with rfl | ⟨-, high⟩
  · exact absurd low (by decide)
  · exact absurd (Nat.le_trans low high) (by decide)

theorem takeSign_digit {d : Char} (hex : (hexDigit d).isSome) (width : Nat) (rest : List Char) :
    takeSign width (d :: rest) = (false, width, d :: rest) := by
  rw [takeSign.eq_def]
  split
  · rename_i same
    rw [(List.cons.inj same).1] at hex
    exact absurd hex (by decide)
  · rename_i same
    rw [(List.cons.inj same).1] at hex
    exact absurd hex (by decide)
  · rfl

/-- There is no `x` in a field of digits, and what follows a field of one digit is not
taken with it. -/
theorem takeHex_digits {digits : List Char} (hex : ∀ c ∈ digits, (hexDigit c).isSome) (rest : List Char) :
    takeHex digits.length (digits ++ rest) = (digits.length, digits ++ rest) := by
  rw [takeHex.eq_def]
  split
  · rename_i x after same
    rw [same]
    refine if_neg fun ⟨isX, wide⟩ => ?_
    obtain ⟨d, e, es, rfl⟩ : ∃ d e es, digits = d :: e :: es := by
      match digits, wide with
      | d :: e :: es, _ => exact ⟨d, e, es, rfl⟩
    have second := hex e (List.mem_cons_of_mem _ List.mem_cons_self)
    simp only [List.cons_append, List.cons.injEq] at same
    rw [same.2.1] at second
    rcases isX with rfl | rfl
    · exact absurd second (by decide)
    · exact absurd second (by decide)
  · rfl

/-- **A field is read to its width.** -/
theorem scanX_digits {width bits v : Nat} {digits : List Char} (positive : 0 < width) (written : Digits width v digits)
    (small : v < 2 ^ bits) (rest : List Char) : scanX width bits (digits ++ rest) = some (v, rest) := by
  obtain ⟨rfl, hex, rfl⟩ := written
  obtain ⟨d, ds, split⟩ := List.exists_cons_of_length_pos positive
  have first : (hexDigit d).isSome := hex d (split ▸ List.mem_cons_self)
  have unsigned : takeSign digits.length ((digits ++ rest).dropWhile isBlank) =
      (false, digits.length, digits ++ rest) := by
    rw [split, List.cons_append, List.dropWhile_cons_of_neg (by simp [hexDigit_visible first]), takeSign_digit first]
  have taken : ((digits ++ rest).take digits.length).takeWhile (fun c => (hexDigit c).isSome) = digits := by
    rw [List.take_left]
    exact List.takeWhile_eq_self_iff.2 hex
  have value : ((hexValue digits : Int) % 2 ^ bits).toNat = hexValue digits := by
    rw [Int.emod_eq_of_lt (Int.natCast_nonneg _) (by exact_mod_cast small), Int.toNat_natCast]
  simp only [scanX, unsigned, takeHex_digits hex, taken, Bool.false_eq_true, if_false, value, List.drop_left]
  rw [if_neg (split ▸ List.cons_ne_nil _ _)]

/-! ## The text of a name -/

/-- **The name of a device** is as much of the text as the buffer holds. -/
theorem ufpIfnameBase_written {a : PciAddr} {text : List Char} (written : Written a text) :
    ufpIfnameBase text = some ((stem a ++ funcPart a).take (ifnamsiz - 1)) := by
  obtain ⟨domain, bus, slot, func, isDomain, isBus, isSlot, isFunc, rfl⟩ := written
  have readDomain := fun rest => scanX_digits (by decide) isDomain a.domain.isLt rest
  have readBus := fun rest => scanX_digits (by decide) isBus a.bus.isLt rest
  have readSlot := fun rest => @scanX_digits 2 8 _ _ (by decide) isSlot (Nat.lt_trans a.slot.isLt (by decide)) rest
  have readFunc := @scanX_digits 1 8 _ _ (by decide) isFunc (Nat.lt_trans a.func.isLt (by decide)) []
  rw [List.append_nil] at readFunc
  have un : (snprintfAt ifnamsiz [] "un".toList).2 = "un".toList.take (ifnamsiz - 1) := by decide
  have appended : ∀ result text : List Char, (snprintfAt ifnamsiz (result.take (ifnamsiz - 1)) text).2 =
      (result ++ text).take (ifnamsiz - 1) := fun result text => snprintfAt_take _ result text
  have withDomain : (if (a.domain : Nat) ≠ 0 then ("un".toList ++ 'P' :: decimal (a.domain : Nat)).take (ifnamsiz - 1)
      else "un".toList.take (ifnamsiz - 1)) = ("un".toList ++ domainPart a.domain).take (ifnamsiz - 1) := by
    rw [domainPart]
    split
    · rfl
    · rw [List.append_nil]
  simp only [ufpIfnameBase, readDomain, readBus, readSlot, readFunc, literal, if_true, Option.bind_eq_bind,
    Option.bind_some, un, withDomain, appended, stem, funcPart, List.append_assoc, List.cons_append]

theorem length_decimal_natCast_le {n k : Nat} (positive : 0 < k) (short : n < 10 ^ k) :
    (decimal (n : Int)).length ≤ k := by
  rw [decimal_natCast]
  exact (Nat.length_toDigits_le_iff (by decide) positive).2 short

theorem length_stem (a : PciAddr) : (stem a).length = (if (a.domain : Nat) = 0 then 4
    else 5 + (decimal (a.domain : Nat)).length) + (decimal (a.bus : Nat)).length + (decimal (a.slot : Nat)).length := by
  have un : "un".toList.length = 2 := rfl
  by_cases zero : (a.domain : Nat) = 0
  · simp only [stem, domainPart, zero, ne_eq, not_true_eq_false, if_false, if_true, List.length_append,
      List.length_cons, List.length_nil, un]
    omega
  · simp only [stem, domainPart, zero, ne_eq, not_false_eq_true, if_false, if_true, List.length_append,
      List.length_cons, un]
    omega

theorem length_numbers (a : PciAddr) : (decimal (a.domain : Nat)).length ≤ 5 ∧
    (decimal (a.bus : Nat)).length ≤ 3 ∧ (decimal (a.slot : Nat)).length ≤ 2 :=
  ⟨length_decimal_natCast_le (by decide) (Nat.lt_trans a.domain.isLt (by decide)),
    length_decimal_natCast_le (by decide) (Nat.lt_trans a.bus.isLt (by decide)),
    length_decimal_natCast_le (by decide) (Nat.lt_trans a.slot.isLt (by decide))⟩

/-- The buffer holds every name up to the function. -/
theorem length_stem_le (a : PciAddr) : (stem a).length ≤ ifnamsiz - 1 := by
  obtain ⟨domain, bus, slot⟩ := length_numbers a
  rw [length_stem, ifnamsiz]
  split
  · omega
  · omega

/-- And two characters more where the numbers are short. -/
theorem length_stem_short (a : PciAddr) : (stem a).length + 2 ≤ ifnamsiz - 1 ↔ Short a := by
  obtain ⟨-, bus, slot⟩ := length_numbers a
  rw [length_stem, ifnamsiz, Short]
  split
  case isTrue zero => simp only [zero, true_or, iff_true]; omega
  case isFalse other => simp only [other, false_or]; omega

theorem domainPart_inj {d e : Nat} (same : domainPart d = domainPart e) : d = e := by
  simp only [domainPart] at same
  split at same
  · split at same
    · exact Int.ofNat.inj (decimal_injective (List.cons.inj same).2)
    · cases same
  · split at same
    · cases same
    · omega

theorem not_mem_domainPart {c : Char} (letter : c.isDigit = false) (sign : c ≠ '-') (other : c ≠ 'P') (d : Nat) :
    c ∉ domainPart d := by
  rw [domainPart]
  split
  · rw [List.mem_cons, not_or]
    exact ⟨other, not_mem_decimal letter sign _⟩
  · exact List.not_mem_nil

/-- **Up to the function, the text tells any two devices apart.** -/
theorem stem_inj {a b : PciAddr} : stem a = stem b ↔ SameSlot a b := by
  constructor
  · intro same
    have noP : 'p' ∉ decimal (a.bus : Nat) ++ 's' :: decimal (a.slot : Nat) := by
      simp only [List.mem_append, List.mem_cons, not_or]
      exact ⟨not_mem_decimal (by decide) (by decide) _, by decide, not_mem_decimal (by decide) (by decide) _⟩
    have noS : ∀ v : Int, 's' ∉ decimal v := not_mem_decimal (by decide) (by decide)
    -- the letters 'p' and 's' divide the text, as they are in none of its numbers
    obtain ⟨domain, -, tail⟩ := (List.append_cons_inj_of_notMem
      (not_mem_domainPart (by decide) (by decide) (by decide) _) noP).1 (List.append_cancel_left same)
    obtain ⟨bus, -, slot⟩ := (List.append_cons_inj_of_notMem (noS _) (noS _)).1 tail
    exact ⟨Fin.ext (domainPart_inj domain), Fin.ext (Int.ofNat.inj (decimal_injective bus)),
      Fin.ext (Int.ofNat.inj (decimal_injective slot))⟩
  · rintro ⟨domain, bus, slot⟩
    rw [stem, stem, domain, bus, slot]

theorem f_not_mem_stem (a : PciAddr) : 'f' ∉ stem a := by
  have noF : ∀ v : Int, 'f' ∉ decimal v := not_mem_decimal (by decide) (by decide)
  simp only [stem, List.mem_append, List.mem_cons, not_or]
  exact ⟨by decide, not_mem_domainPart (by decide) (by decide) (by decide) _, by decide, noF _, by decide, noF _⟩

/-- The function has one digit. -/
theorem decimal_func (f : Fin (2 ^ 3)) : ∃ c, decimal (f : Nat) = [c] := by
  have short : (decimal (f : Nat)).length ≤ 1 :=
    length_decimal_natCast_le (by decide) (Nat.lt_trans f.isLt (by decide))
  have atLeast := List.length_pos_iff.2 (decimal_ne_nil (f : Nat))
  exact List.length_eq_one_iff.1 (by omega)

/-- A name is what stands before the function and what is left of that. -/
theorem take_name (a : PciAddr) : (stem a ++ funcPart a).take (ifnamsiz - 1) =
    stem a ++ (funcPart a).take (ifnamsiz - 1 - (stem a).length) := by
  rw [List.take_append, List.take_of_length_le (length_stem_le a)]

/-- And can be read back from the name. -/
theorem takeWhile_name (a : PciAddr) :
    ((stem a ++ funcPart a).take (ifnamsiz - 1)).takeWhile (fun c => decide (c ≠ 'f')) = stem a := by
  have before : ∀ c ∈ stem a, decide (c ≠ 'f') = true := fun c member =>
    decide_eq_true fun isF => f_not_mem_stem a (isF ▸ member)
  rw [take_name, List.takeWhile_append_of_pos before, funcPart]
  cases ifnamsiz - 1 - (stem a).length with
  | zero => rw [List.take_zero, List.takeWhile_nil, List.append_nil]
  | succ room => rw [List.take_succ_cons, List.takeWhile_cons_of_neg (by decide), List.append_nil]

/-- Two functions are told apart where both characters fit. -/
theorem take_funcPart {a b : PciAddr} (differ : a.func ≠ b.func) (room : Nat) :
    (funcPart a).take room = (funcPart b).take room ↔ room < 2 := by
  obtain ⟨c, textA⟩ := decimal_func a.func
  obtain ⟨d, textB⟩ := decimal_func b.func
  have other : c ≠ d := by
    rintro rfl
    exact differ (Fin.ext (Int.ofNat.inj (decimal_injective (textA.trans textB.symm))))
  rw [funcPart, funcPart, textA, textB]
  match room with
  | 0 => simp
  | 1 => simp
  | room + 2 => simp [other]

/-- The names of two addresses differ, but for functions of one device whose numbers
leave no room for them. -/
theorem ifnames_differ_iff {a b : PciAddr} (different : a ≠ b) {textA textB : List Char} (writtenA : Written a textA)
    (writtenB : Written b textB) :
    ∃ nameA nameB, ufpIfnameBase textA = some nameA ∧ ufpIfnameBase textB = some nameB ∧
      (nameA ≠ nameB ↔ (SameSlot a b → Short a)) := by
  refine ⟨_, _, ufpIfnameBase_written writtenA, ufpIfnameBase_written writtenB, ?_⟩
  by_cases same : SameSlot a b
  case pos =>
      have functions : a.func ≠ b.func := by
        intro func
        obtain ⟨domain, bus, slot⟩ := same
        cases a
        cases b
        simp_all
      have stems := stem_inj.2 same
      rw [take_name, take_name, ← stems, Ne, List.append_cancel_left_eq, take_funcPart functions, ← length_stem_short]
      have := length_stem_le a
      exact ⟨fun enough _ => by omega, fun short => by have := short same; omega⟩
  case neg =>
      refine iff_of_true (fun names => ?_) fun isSame => absurd isSame same
      rw [← stem_inj, ← takeWhile_name a, names, takeWhile_name b] at same
      exact same rfl

/-- The first two functions of the first slot of a bus. -/
def portAddr (domain : Fin (2 ^ 16)) (bus : Fin (2 ^ 8)) (func : Fin (2 ^ 3)) : PciAddr := ⟨domain, bus, 0, func⟩

theorem ifnames_differ_iff_sample :
    ∃ nameA nameB, ufpIfnameBase "0000:04:00.0".toList = some nameA ∧ ufpIfnameBase "0000:04:00.1".toList = some nameB ∧
      (nameA ≠ nameB ↔ (SameSlot (portAddr 0 4 0) (portAddr 0 4 1) → Short (portAddr 0 4 0))) :=
  ifnames_differ_iff (by decide)
    ⟨"0000".toList, "04".toList, "00".toList, "0".toList, .ofAll rfl rfl rfl, .ofAll rfl rfl rfl,
      .ofAll rfl rfl rfl, .ofAll rfl rfl rfl, rfl⟩
    ⟨"0000".toList, "04".toList, "00".toList, "1".toList, .ofAll rfl rfl rfl, .ofAll rfl rfl rfl,
      .ofAll rfl rfl rfl, .ofAll rfl rfl rfl, rfl⟩

/-- The function is the 16th character here. -/
theorem ifnames_clash : portAddr 0xffff 0x80 0 ≠ portAddr 0xffff 0x80 1 ∧
    Written (portAddr 0xffff 0x80 0) "ffff:80:00.0".toList ∧ Written (portAddr 0xffff 0x80 1) "ffff:80:00.1".toList ∧
    ufpIfnameBase "ffff:80:00.0".toList = some "unP65535p128s0f".toList ∧
    ufpIfnameBase "ffff:80:00.1".toList = some "unP65535p128s0f".toList := by
  refine ⟨by decide, ?_, ?_, by decide +kernel, by decide +kernel⟩
  · exact ⟨"ffff".toList, "80".toList, "00".toList, "0".toList, .ofAll rfl rfl rfl, .ofAll rfl rfl rfl,
      .ofAll rfl rfl rfl, .ofAll rfl rfl rfl, rfl⟩
  · exact ⟨"ffff".toList, "80".toList, "00".toList, "1".toList, .ofAll rfl rfl rfl, .ofAll rfl rfl rfl,
      .ofAll rfl rfl rfl, .ofAll rfl rfl rfl, rfl⟩

end Ufp.Lib.Ifname
