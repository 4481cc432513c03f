/-
# Ufp.Lib.SlotExact — the search for a free slot in the code's own integers

`ufp_slot_assign` counts in `int`s what `rx_slot_next`, `rx_slot_offset` and
`buf->count` hold as `uint32_t`s. `ufpSlotAssignInt` keeps the conversions, and is
`none` where the code runs into what C leaves undefined: an `int` that overflows, or an
index before or behind the elements of `buf->slots`.

* `ufpSlotAssignInt_eq`: where the region lies in the array, the integers do not matter,
  and `ufpSlotAssign` is what the code does.
* `slot_search_exact`: in a buffer with `count` slots per port, the search is exact for
  every port of a plane, and the regions of the ports are apart.
-/
import Ufp.Lib.Region
import Ufp.Theory.CLibrary
import Mathlib.Order.CompletePartialOrder
import Mathlib.Order.Interval.Set.Disjoint

namespace Ufp.Lib.Io

open Ufp.Theory
open Ufp.Theory.CLibrary (asInt asUnsigned asInt_small asUnsigned_small)

set_option autoImplicit false

/-! ## The code -/

/-- `v + 1` in an `int`. -/
def intSucc (v : Int) : Option Int := if v + 1 < 2 ^ 31 then some (v + 1) else none

/-- The loop of `ufp_slot_assign`, with `left` iterations to go: `i` is `buf->count - left`.
The result is `slot_next` and `slot_index` at `out`, if it gets there. -/
def slotLoop (buf : Buf) (offset : Nat) : Nat → Int → Option (Option (Int × Nat))
  | 0, _ => some none
  | left + 1, slotNext =>
      let slotIndex := asInt (asUnsigned (offset + slotNext))
      if slotIndex < 0 ∨ (buf.numSlots : Int) ≤ slotIndex then none
      else if !buf.inflight slotIndex.toNat then some (some (slotNext, slotIndex.toNat))
      else do
        let slotNext ← intSucc slotNext
        let slotNext := if asUnsigned slotNext = buf.count then 0 else slotNext
        let _ ← intSucc (buf.count - (left + 1))
        slotLoop buf offset left slotNext

/-- `out`: the slot is taken, and `rx_slot_next` moves past it. -/
def slotOut (port : Port) (buf : Buf) (slotNext : Int) (slotIndex : Nat) : Option (Int × Port × Buf) :=
  (intSucc slotNext).map fun slotNext =>
    let rxSlotNext := (asUnsigned slotNext).toNat
    (slotIndex, { port with rxSlotNext := if rxSlotNext = buf.count then 0 else rxSlotNext }, buf.mark slotIndex)

/-- `ufp_slot_assign`. -/
def ufpSlotAssignInt (port : Port) (buf : Buf) : Option (Int × Port × Buf) :=
  match slotLoop buf port.rxSlotOffset buf.count (asInt port.rxSlotNext) with
  | none => none
  | some none => some (-1, port, buf)
  | some (some (slotNext, slotIndex)) => slotOut port buf slotNext slotIndex

/-! ## What the search is for -/

/-- Slot `j` of the port's region, in cyclic order from `rx_slot_next`. -/
def Port.cyclic (port : Port) (count j : Nat) : Nat := port.rxSlotOffset + (port.rxSlotNext + j) % count

/-- The call returned `index` and left the port and the buffer so: it fails if every slot
of the region is in flight, and otherwise takes the first free one. -/
structure SlotExact (port : Port) (buf : Buf) (index : Int) (port' : Port) (buf' : Buf) : Prop where
  fails : index = -1 ↔ ∀ k < buf.count, buf.inflight (port.rxSlotOffset + k) = true
  failed : index = -1 → port' = port ∧ buf' = buf
  takes : index ≠ -1 → ∃ j < buf.count, index = port.cyclic buf.count j ∧
    buf.inflight (port.cyclic buf.count j) = false ∧
    (∀ i < j, buf.inflight (port.cyclic buf.count i) = true) ∧
    buf' = buf.mark (port.cyclic buf.count j) ∧
    port' = { port with rxSlotNext := (port.rxSlotNext + j + 1) % buf.count }
  inside : index ≠ -1 → (port.rxSlotOffset : Int) ≤ index ∧ index < port.rxSlotOffset + buf.count
  next : port'.rxSlotNext < buf.count
  flags : ∀ slot : Nat, buf'.inflight slot = (buf.inflight slot || decide ((slot : Int) = index))

/-- The slots of a port. -/
def Port.region (port : Port) (count : Nat) : Set Nat := Set.Ico port.rxSlotOffset (port.rxSlotOffset + count)

/-- The region lies in the array, whose elements an `int` can number. -/
structure InArray (offset : Nat) (buf : Buf) : Prop where
  inside : offset + buf.count ≤ buf.numSlots
  int : buf.numSlots < 2 ^ 31

/-! ## The search -/

theorem turn_eq_mod {count k : Nat} (inside : k < count) :
    (if k + 1 = count then 0 else k + 1) = (k + 1) % count := by
  split
  case isTrue last => rw [last, Nat.mod_self]
  case isFalse => exact (Nat.mod_eq_of_lt (by omega)).symm

/-- The search stops at the first free slot. -/
theorem slotSearch_first {buf : Buf} {offset todo slotNext found : Nat} (inside : slotNext < buf.count)
    (few : todo ≤ buf.count) (ran : slotSearch buf offset todo slotNext = some found) :
    ∃ j < todo, found = (slotNext + j) % buf.count ∧
      ∀ i < j, buf.inflight (offset + (slotNext + i) % buf.count) = true := by
  induction todo generalizing slotNext with
  | zero => cases ran
  | succ todo ih =>
      simp only [slotSearch] at ran
      split at ran
      case isTrue =>
          cases ran
          exact ⟨0, Nat.succ_pos _, (Nat.mod_eq_of_lt inside).symm, fun i less => absurd less (Nat.not_lt_zero i)⟩
      case isFalse taken =>
          rw [turn_eq_mod inside] at ran
          obtain ⟨j, less, foundAt, before⟩ := ih (Nat.mod_lt _ (by omega)) (by omega) ran
          simp only [Nat.mod_add_mod] at foundAt before
          refine ⟨j + 1, by omega, ?_, ?_⟩
          · rw [foundAt, Nat.add_assoc, Nat.add_comm 1 j]
          · intro i early
            cases i with
            | zero =>
                rw [Nat.add_zero, Nat.mod_eq_of_lt inside]
                simpa using taken
            | succ i =>
                have := before i (by omega)
                rwa [Nat.add_assoc, Nat.add_comm 1 i] at this

/-- **The search in natural numbers is exact.** -/
theorem ufpSlotAssign_exact {port : Port} {buf : Buf} (next : port.rxSlotNext < buf.count) :
    SlotExact port buf ((ufpSlotAssign port buf).1.elim (-1) fun slot => (slot : Int)) (ufpSlotAssign port buf).2.1
      (ufpSlotAssign port buf).2.2 := by
  cases search : slotSearch buf port.rxSlotOffset buf.count port.rxSlotNext with
  | none =>
      have result : ufpSlotAssign port buf = (none, port, buf) := by simp only [ufpSlotAssign, search]
      have spent : ¬ port.Spare buf := ufpSlotAssign_none (fun _ => next) (by rw [result])
      rw [result]
      refine ⟨iff_of_true rfl fun k less => ?_, fun _ => ⟨rfl, rfl⟩, fun other => absurd rfl other,
        fun other => absurd rfl other, next, fun slot => ?_⟩
      · by_contra free
        exact spent ⟨k, less, by simpa using free⟩
      · have other : (slot : Int) ≠ -1 := by omega
        simp [other]
  | some found =>
      have free := slotSearch_free search
      obtain ⟨j, less, rfl, before⟩ := slotSearch_first next (Nat.le_refl _) search
      have small : (port.rxSlotNext + j) % buf.count < buf.count := Nat.mod_lt _ (by omega)
      have turn : (if (port.rxSlotNext + j) % buf.count + 1 = buf.count then 0
          else (port.rxSlotNext + j) % buf.count + 1) = (port.rxSlotNext + j + 1) % buf.count := by
        rw [turn_eq_mod small, Nat.mod_add_mod]
      have result : ufpSlotAssign port buf = (some (port.cyclic buf.count j),
          { port with rxSlotNext := (port.rxSlotNext + j + 1) % buf.count }, buf.mark (port.cyclic buf.count j)) := by
        simp only [ufpSlotAssign, search, turn, Port.cyclic]
      rw [result]
      dsimp only [Option.elim]
      have natural : ((port.cyclic buf.count j : Nat) : Int) ≠ -1 := by omega
      refine ⟨iff_of_false natural fun all => ?_, fun failed => absurd failed natural,
        fun _ => ⟨j, less, rfl, free, before, rfl, rfl⟩, fun _ => ?_, Nat.mod_lt _ (by omega), fun slot => ?_⟩
      · rw [all _ small] at free
        cases free
      · rw [Port.cyclic]
        omega
      · simp only [Buf.inflight_mark_eq, Nat.cast_inj]

/-! ## The integers of the code -/

theorem intSucc_natCast {k : Nat} (small : k + 1 < 2 ^ 31) : intSucc (k : Int) = some ((k + 1 : Nat) : Int) := by
  rw [intSucc, if_pos (by omega), Int.natCast_succ]

theorem slotLoop_eq {buf : Buf} {offset left slotNext : Nat} (region : InArray offset buf)
    (inside : slotNext < buf.count) (few : left ≤ buf.count) :
    slotLoop buf offset left slotNext =
      some ((slotSearch buf offset left slotNext).map fun found : Nat => ((found : Int), offset + found)) := by
  obtain ⟨ends, small⟩ := region
  induction left generalizing slotNext with
  | zero => rfl
  | succ left ih =>
      have here : asInt (asUnsigned ((offset : Int) + slotNext)) = (offset + slotNext : Nat) := by
        rw [← Int.natCast_add, asUnsigned_small (by omega), asInt_small (by omega)]
      simp only [slotLoop, slotSearch, here, Int.toNat_natCast]
      rw [if_neg (by omega)]
      split
      case isTrue => rfl
      case isFalse taken =>
          have counter : (buf.count : Int) - (left + 1) = (buf.count - (left + 1) : Nat) := by omega
          have counted := @intSucc_natCast (buf.count - (left + 1)) (by omega)
          have moved := @intSucc_natCast slotNext (by omega)
          have turn : (if asUnsigned ((slotNext + 1 : Nat) : Int) = (buf.count : Int) then (0 : Int)
              else (slotNext + 1 : Nat)) = ((if slotNext + 1 = buf.count then 0 else slotNext + 1 : Nat) : Int) := by
            rw [asUnsigned_small (by omega)]
            simp only [Nat.cast_inj]
            split
            · rfl
            · rfl
          simp only [moved, counter, counted, Option.bind_eq_bind, Option.bind_some, turn]
          exact ih (by split <;> omega) (by omega)

/-- **The code is the search in natural numbers**, where the region lies in the array. -/
theorem ufpSlotAssignInt_eq {port : Port} {buf : Buf} (region : InArray port.rxSlotOffset buf)
    (next : port.rxSlotNext < buf.count) :
    ufpSlotAssignInt port buf =
      some ((ufpSlotAssign port buf).1.elim (-1) fun slot => (slot : Int), (ufpSlotAssign port buf).2) := by
  obtain ⟨ends, small⟩ := region
  have loop := slotLoop_eq ⟨ends, small⟩ next (Nat.le_refl _)
  rw [← asInt_small (show (port.rxSlotNext : Int) < 2 ^ 31 by omega)] at loop
  cases search : slotSearch buf port.rxSlotOffset buf.count port.rxSlotNext with
  | none =>
      rw [search] at loop
      simp only [ufpSlotAssignInt, ufpSlotAssign, loop, search, Option.map_none, Option.elim]
  | some found =>
      rw [search] at loop
      have less := slotSearch_lt (fun _ => next) search
      have moved := @intSucc_natCast found (by omega)
      simp only [ufpSlotAssignInt, ufpSlotAssign, loop, search, Option.map_some, Option.elim, slotOut, moved]
      rw [asUnsigned_small (by omega), Int.toNat_natCast]

/-! ## The regions of a plane -/

section Plane

variable {devs : List Dev} {buf : Buf} (whole : buf.Whole (numIfaces devs))

include whole

theorem region_inArray {idx : Nat} (inside : idx < numIfaces devs) :
    InArray ((ufpPlaneAlloc devs buf).ports idx).rxSlotOffset buf := by
  obtain ⟨offset, last⟩ := region_bounds whole inside
  exact ⟨offset ▸ last, whole.int⟩

theorem regions_apart {i j : Nat} (iLt : i < numIfaces devs) (jLt : j < numIfaces devs) (differ : i ≠ j) :
    Disjoint (((ufpPlaneAlloc devs buf).ports i).region buf.count)
      (((ufpPlaneAlloc devs buf).ports j).region buf.count) := by
  have behind : ∀ a b, a < b → a * buf.count + buf.count ≤ b * buf.count := by
    intro a b less
    rw [← Nat.succ_mul]
    exact Nat.mul_le_mul_right _ less
  rw [Port.region, Port.region, Set.Ico_disjoint_Ico, (region_bounds whole iLt).1, (region_bounds whole jLt).1]
  rcases Nat.lt_or_gt_of_ne differ with less | greater
  · have := behind i j less
    omega
  · have := behind j i greater
    omega

end Plane

/-- **The search for a slot is exact.** In every buffer with `count` slots per port, for
every port of a plane, whichever slots are in flight and wherever in its region the search
begins, `ufp_slot_assign` returns, stays in the array, and takes the first free slot of the
region in cyclic order, or fails if there is none; and no two ports have a slot in common. -/
theorem slot_search_exact {devs : List Dev} {buf : Buf} (whole : buf.Whole (numIfaces devs)) :
    (∀ idx < numIfaces devs, ∀ port : Port,
      port.rxSlotOffset = ((ufpPlaneAlloc devs buf).ports idx).rxSlotOffset → port.rxSlotNext < buf.count →
      ∃ index port' buf', ufpSlotAssignInt port buf = some (index, port', buf') ∧
        SlotExact port buf index port' buf') ∧
    ∀ i < numIfaces devs, ∀ j < numIfaces devs, i ≠ j →
      Disjoint (((ufpPlaneAlloc devs buf).ports i).region buf.count)
        (((ufpPlaneAlloc devs buf).ports j).region buf.count) := by
  constructor
  · intro idx inside port offset next
    have region := region_inArray whole inside
    rw [← offset] at region
    exact ⟨_, _, _, ufpSlotAssignInt_eq region next, ufpSlotAssign_exact next⟩
  · exact fun i iLt j jLt differ => regions_apart whole iLt jLt differ

/-- Four slots for each of two ports; slots 4 and 7 are in flight. -/
def sampleSlots : Buf :=
  ⟨0, 0, 2048, 16384, 4, 8, fun slot => if slot = 4 ∨ slot = 7 then slotInflight else 0⟩

/-- Port 1 of a plane, whose search begins at its last slot. -/
def samplePort : Port := { planePort sampleSlots 1 default with rxSlotNext := 3 }

/-- Slots 7 and 4 are taken, so the search goes around the end of the region to slot 5. -/
theorem slot_search_exact_sample :
    (ufpSlotAssignInt samplePort sampleSlots).map (fun result => (result.1, result.2.1.rxSlotNext)) = some (5, 2) ∧
      ∃ index port' buf', ufpSlotAssignInt samplePort sampleSlots = some (index, port', buf') ∧
        SlotExact samplePort sampleSlots index port' buf' := by
  refine ⟨by decide +kernel, ?_⟩
  have whole : sampleSlots.Whole (numIfaces (List.replicate 2 (sampleDev default 4))) := ⟨by decide, by decide⟩
  exact (slot_search_exact whole).1 1 (by decide) samplePort rfl (by decide)

end Ufp.Lib.Io
