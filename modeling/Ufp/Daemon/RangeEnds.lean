/-
# Ufp.Daemon.RangeEnds — when the loops of `ufpd_parse_range` end

`for(num = range[0]; num <= range[1]; num++)` counts an `int` and compares it with
an `unsigned int`. `RangeExits` is that loop by itself: it holds of a `num` from
which the test fails after finitely many increments. At the largest `int` the
increment is left undefined by C, or it wraps around; the loop is followed for both
(`Overflow`). No `int` is past the largest `unsigned int`, so that bound is never
reached in either case.

The loop over the characters goes through the argument once. It comes to the loops of
`ranges`, and ends if each of them does (`parseEnds_undefined_iff`).
-/
import Ufp.Daemon.CoreList

namespace Ufp.Daemon

open Ufp.Theory.CLibrary Ufp.Theory.Decimal

set_option autoImplicit false

/-- What `num++` does at the largest `int`. -/
inductive Overflow where
  | undefined
  | wraps
  deriving DecidableEq

def Overflow.increment (overflow : Overflow) (num : Int) : Option Int :=
  if num + 1 < 2 ^ 31 then some (num + 1)
  else
    match overflow with
    | .undefined => none
    | .wraps => some (-2 ^ 31)

/-- The loop over the numbers of a range reaches its exit from `num`. -/
inductive RangeExits (overflow : Overflow) (hi : Int) : Int → Prop
  | exit {num : Int} (past : hi < asUnsigned num) : RangeExits overflow hi num
  | again {num next : Int} (inside : asUnsigned num ≤ hi) (step : overflow.increment num = some next)
      (rest : RangeExits overflow hi next) : RangeExits overflow hi num

/-- The bounds for which the loop reaches its exit. -/
def Overflow.Bounded : Overflow → (lo hi : Int) → Prop
  | .undefined, lo, hi => Ends lo hi
  | .wraps, _, hi => hi < 2 ^ 32 - 1

/-- The ranges the loop over the characters comes to: those of the items before the
first that is not read. -/
def ranges : List (List (List Char)) → List (Int × Int)
  | [] => []
  | item :: list =>
      match readItem none item with
      | none => []
      | some range => range :: ranges list

/-- Both loops end: so does the loop over each range the argument is found to hold. -/
def ParseEnds (overflow : Overflow) (str : List Char) : Prop :=
  ∀ range ∈ ranges (items str), RangeExits overflow range.2 (asInt range.1)

/-! ## One range -/

variable {hi num : Int} {overflow : Overflow}

/-- No `unsigned int` is past the largest. -/
theorem RangeExits.bound (exits : RangeExits overflow hi num) : hi < 2 ^ 32 - 1 := by
  induction exits with
  | exit past =>
      rw [asUnsigned] at past
      omega
  | again inside step rest ih => exact ih

/-- An `int` that wraps around counts up to the bound as an `unsigned int` does. -/
theorem rangeExits_wraps (bound : hi < 2 ^ 32 - 1) (num : Int) (low : -2 ^ 31 ≤ num) (high : num < 2 ^ 31) :
    RangeExits .wraps hi num := by
  obtain ⟨left, leftEq⟩ : ∃ left : Nat, (hi + 1 - asUnsigned num).toNat = left := ⟨_, rfl⟩
  induction left generalizing num with
  | zero => exact .exit (by omega)
  | succ left ih =>
      have inside : asUnsigned num ≤ hi := by omega
      by_cases room : num + 1 < 2 ^ 31
      · refine .again inside (if_pos room) (ih (num + 1) (by omega) room ?_)
        rw [asUnsigned] at leftEq inside ⊢
        omega
      · refine .again inside (if_neg room) (ih (-2 ^ 31) (by omega) (by omega) ?_)
        rw [asUnsigned] at leftEq inside ⊢
        omega

/-- An increment that C defines decides whether the exit is reached. -/
theorem rangeExits_again {next : Int} (inside : asUnsigned num ≤ hi) (step : overflow.increment num = some next) :
    RangeExits overflow hi num ↔ RangeExits overflow hi next := by
  refine ⟨fun exits => ?_, fun rest => .again inside step rest⟩
  cases exits with
  | exit past => omega
  | again _ step' rest =>
      obtain rfl := Option.some.inj (step.symm.trans step')
      exact rest

theorem not_rangeExits (inside : asUnsigned num ≤ hi) (stop : overflow.increment num = none) :
    ¬ RangeExits overflow hi num := by
  intro exits
  cases exits with
  | exit past => omega
  | again _ step _ => cases stop.symm.trans step

/-- `rangeLoop` is the loop with what it prints: it returns if the exit is reached. -/
theorem rangeLoop_cases (maxLen : Nat) (hi num : Int) (result : List Char) :
    (RangeExits .undefined hi num ∧ ∃ text, rangeLoop maxLen hi num result = .ok text) ∨
      (¬ RangeExits .undefined hi num ∧ rangeLoop maxLen hi num result = .error .undefined) := by
  fun_induction rangeLoop maxLen hi num result with
  | case1 num result inside err text printed negative =>
      obtain ⟨rfl, -⟩ := Prod.mk.inj printed
      omega
  | case2 num result inside err text printed _ room ih =>
      rwa [rangeExits_again inside (if_pos room)]
  | case3 num result inside err text printed _ full =>
      exact .inr ⟨not_rangeExits inside (if_neg full), rfl⟩
  | case4 num result past => exact .inl ⟨.exit (by omega), result, rfl⟩

/-- **The loop reaches its exit exactly for these bounds.** -/
theorem rangeExits_iff (overflow : Overflow) {lo : Int} (loBounds : 0 ≤ lo ∧ lo < 2 ^ 32)
    (hiBounds : 0 ≤ hi ∧ hi < 2 ^ 32) : RangeExits overflow hi (asInt lo) ↔ overflow.Bounded lo hi := by
  cases overflow with
  | wraps =>
      refine ⟨RangeExits.bound, fun bound => rangeExits_wraps bound _ ?_ ?_⟩ <;>
        · rw [asInt]
          split <;> omega
  | undefined =>
      obtain ⟨ends, endless⟩ := rangeLoop_eq Nat.one_pos loBounds hiBounds []
      rcases rangeLoop_cases 2 hi (asInt lo) ((commas []).take 1) with
        ⟨exits, text, ran⟩ | ⟨stuck, ran⟩
      · refine iff_of_true exits ?_
        by_contra notEnds
        cases (endless notEnds).symm.trans ran
      · refine iff_of_false stuck fun bounded => ?_
        cases (ends bounded).symm.trans ran

/-! ## The whole argument -/

theorem ranges_bounds {list : List (List (List Char))} {range : Int × Int} (member : range ∈ ranges list) :
    (0 ≤ range.1 ∧ range.1 < 2 ^ 32) ∧ 0 ≤ range.2 ∧ range.2 < 2 ^ 32 := by
  induction list with
  | nil => cases member
  | cons item list ih =>
      rw [ranges] at member
      split at member
      · cases member
      · rename_i first read
        rcases List.mem_cons.1 member with rfl | member
        · exact readItem_bounds (by simp) read
        · exact ih member

/-- The items are gone through to the end or to one that is not read, unless the loop
over a range does not end. -/
theorem expandItems_undefined_iff (maxLen : Nat) (list : List (List (List Char))) (result : List Char) :
    expandItems maxLen none list result ≠ .error .undefined ↔
      ∀ range ∈ ranges list, RangeExits .undefined range.2 (asInt range.1) := by
  induction list generalizing result with
  | nil => simp [expandItems, ranges]
  | cons item list ih =>
      cases read : readItem none item with
      | none => simp [expandItems, ranges, read]
      | some range =>
          obtain ⟨lo, hi⟩ := range
          simp only [expandItems, ranges, read, List.forall_mem_cons]
          rcases rangeLoop_cases maxLen hi (asInt lo) result with ⟨exits, text, ran⟩ | ⟨stuck, ran⟩
          · rw [ran, and_iff_right exits]
            exact ih text
          · rw [ran]
            exact iff_of_false (fun defined => defined rfl) fun ends => stuck ends.1

/-- The model of the two loops runs into what C leaves undefined exactly if they do
not end. -/
theorem parseEnds_undefined_iff (str : List Char) (maxLen : Nat) :
    ParseEnds .undefined str ↔ parseRange str maxLen ≠ .error .undefined := by
  rw [parseRange_eq, expandItems_undefined_iff]
  rfl

/-- **Range expansion ends exactly within bounds.** The loops of `ufpd_parse_range` end
on an argument exactly if every range they come to has an upper bound that the
counter gets past. If the counter wraps around that is every bound but the largest
`unsigned int`; if it does not, a range must be empty, end below the largest `int`,
or begin above it and end below the largest `unsigned int`. -/
theorem parseRange_ends_iff (overflow : Overflow) (str : List Char) :
    (ParseEnds overflow str ↔ ∀ range ∈ ranges (items str), overflow.Bounded range.1 range.2) ∧
      (ParseEnds .undefined str ↔ parseRange str ufpdMaxArglen ≠ .error .undefined) ∧
      ∀ lo hi, 0 ≤ lo ∧ lo < 2 ^ 32 → 0 ≤ hi ∧ hi < 2 ^ 32 →
        (RangeExits overflow hi (asInt lo) ↔ overflow.Bounded lo hi) := by
  refine ⟨forall₂_congr fun range member => ?_, parseEnds_undefined_iff str _,
    fun lo hi loBounds hiBounds => rangeExits_iff overflow loBounds hiBounds⟩
  obtain ⟨loBounds, hiBounds⟩ := ranges_bounds member
  exact rangeExits_iff overflow loBounds hiBounds

theorem parseRange_ends_iff_sample :
    RangeExits .undefined 4 (asInt 1) ∧ ¬ RangeExits .wraps 4294967295 (asInt 0) := by
  constructor
  · exact ((parseRange_ends_iff .undefined []).2.2 1 4 (by decide) (by decide)).2 (.inr (.inl (by decide)))
  · rw [(parseRange_ends_iff .wraps []).2.2 0 4294967295 (by decide) (by decide)]
    exact show ¬ (4294967295 : Int) < 2 ^ 32 - 1 by decide

/-- `-c 4294967295`: the counter starts at -1 and never gets past the bound. -/
theorem parseRange_endless :
    ¬ ParseEnds .undefined "4294967295".toList ∧ ¬ ParseEnds .wraps "4294967295".toList := by
  have only : ranges (items "4294967295".toList) = [(4294967295, 4294967295)] := by decide +kernel
  have endless : ∀ overflow, ¬ ParseEnds overflow "4294967295".toList := by
    intro overflow ends
    have exits := ends (4294967295, 4294967295) (by rw [only]; exact List.mem_singleton_self _)
    exact absurd exits.bound (by decide)
  exact ⟨endless .undefined, endless .wraps⟩

end Ufp.Daemon
