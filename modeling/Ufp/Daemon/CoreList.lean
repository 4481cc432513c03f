/-
# Ufp.Daemon.CoreList — the expansion of a list of cores

What `ufpd_parse_range` makes of its argument. `items` takes the argument apart at
its commas and dashes, and `parseRange_eq` says that the loop over its characters
reads one item after the other and prints the numbers of its range. `expansion` is
what the argument stands for. The code gives that or refuses the argument, except
where a number does not fit or the text is cut off (`parseRange_complete_iff`).
-/
import Ufp.Daemon.Args

namespace Ufp.Daemon

open Ufp.Theory.CLibrary Ufp.Theory.Decimal

set_option autoImplicit false

/-- The pieces between dashes of the items between commas. -/
def items (str : List Char) : List (List (List Char)) := (str.splitOn ',').map (List.splitOn '-')

/-- The number of a piece that fits the buffer it is copied to. -/
def readPiece (piece : List Char) : Option Int :=
  if piece.length ≤ ufpdMaxArglen - 1 then scanfU piece else none

/-- The ends of the range that an item is read as: its last two numbers. `low` is
the number before the pieces. -/
def readItem (low : Option Int) : List (List Char) → Option (Int × Int)
  | [] => none
  | [piece] => (readPiece piece).map fun hi => (low.getD hi, hi)
  | piece :: next :: pieces => (readPiece piece).bind fun lo => readItem (some lo) (next :: pieces)

/-- The loop over the numbers of a range ends. At the largest `int` it does not, and
it also goes on past the largest `unsigned int`. -/
def Ends (lo hi : Int) : Prop := hi < lo ∨ hi < 2 ^ 31 - 1 ∨ (2 ^ 31 ≤ lo ∧ hi < 2 ^ 32 - 1)

/-- The numbers from `lo` to `hi`. -/
def upTo (lo hi : Int) : List Int := Int.range lo (hi + 1)

/-! ## One range -/

variable {lo hi v : Int} {piece : List Char} {nums : List Int} {n : Nat} {item : List (List Char)}

theorem upTo_empty (reversed : hi < lo) : upTo lo hi = [] := by
  simp only [upTo, Int.range, Int.toNat_of_nonpos (show hi + 1 - lo ≤ 0 by omega), List.range_zero, List.map_nil]

theorem upTo_cons (ordered : lo ≤ hi) : upTo lo hi = lo :: upTo (lo + 1) hi := by
  have size : (hi + 1 - lo).toNat = (hi + 1 - (lo + 1)).toNat + 1 := by omega
  simp only [upTo, Int.range, size, List.range_succ_eq_map, List.map_cons, List.map_map]
  refine congrArg₂ _ (by simp) (List.map_congr_left fun k _ => ?_)
  simp only [Function.comp]
  omega

theorem mem_upTo : v ∈ upTo lo hi ↔ lo ≤ v ∧ v ≤ hi := by
  rw [upTo, Int.mem_range_iff]
  omega

/-- A text that is cut off after `n` characters, and one more number. -/
theorem snprintfAt_commas (positive : 0 < n) (nums : List Int) (v : Int) :
    (snprintfAt (n + 1) ((commas nums).take n)
      ((if ((commas nums).take n).length ≠ 0 then [','] else []) ++ decimal v)).2 =
      (commas (nums ++ [v])).take n := by
  have same : ((commas nums).take n).length ≠ 0 ↔ ¬ commas nums = [] := by
    rw [Ne, List.length_eq_zero_iff, List.take_eq_nil_iff, or_iff_right (by omega)]
  rw [snprintfAt_take, commas_concat]
  simp only [same, ite_not]

section

variable {n : Nat} {hi num : Int} {result : List Char}

theorem rangeLoop_past (past : hi < asUnsigned num) : rangeLoop (n + 1) hi num result = .ok result := by
  rw [rangeLoop, if_neg (by omega)]

theorem rangeLoop_inside (positive : 0 < n) (nums : List Int) (inside : asUnsigned num ≤ hi) :
    rangeLoop (n + 1) hi num ((commas nums).take n) =
      if num + 1 < 2 ^ 31 then rangeLoop (n + 1) hi (num + 1) ((commas (nums ++ [num])).take n)
      else .error .undefined := by
  rw [rangeLoop, if_pos inside]
  simp only [snprintfAt_commas positive]
  exact if_neg (Int.not_lt.2 (Int.natCast_nonneg _))

/-- A loop that ends prints every number up to the end of the range. -/
theorem rangeLoop_ends (positive : 0 < n) {last : Int} (hiEq : hi = asUnsigned last) (low : -2 ^ 31 ≤ num)
    (order : num ≤ last + 1) (high : last < 2 ^ 31 - 1) (sign : num < 0 ↔ last < 0) (stop : last ≠ -1) (nums : List Int) :
    rangeLoop (n + 1) hi num ((commas nums).take n) = .ok ((commas (nums ++ upTo num last)).take n) := by
  obtain ⟨left, leftEq⟩ : ∃ left : Nat, last + 1 - num = left := ⟨_, (Int.toNat_of_nonneg (by omega)).symm⟩
  induction left generalizing num nums with
  | zero =>
      have past : hi < asUnsigned num := by
        rw [hiEq, asUnsigned, asUnsigned]
        omega
      rw [rangeLoop_past past, upTo_empty (by omega), List.append_nil]
  | succ left ih =>
      have inside : asUnsigned num ≤ hi := by
        rw [hiEq, asUnsigned, asUnsigned]
        omega
      rw [rangeLoop_inside positive nums inside, if_pos (by omega),
        ih (by omega) (by omega) (by omega) _ (by omega), List.append_assoc, List.singleton_append,
        ← upTo_cons (by omega)]

theorem rangeLoop_undefined (positive : 0 < n) (inside : asUnsigned num ≤ hi) (high : num < 2 ^ 31)
    (long : (0 ≤ num ∧ 2 ^ 31 - 1 ≤ hi) ∨ (num < 0 ∧ hi = 2 ^ 32 - 1)) (nums : List Int) :
    rangeLoop (n + 1) hi num ((commas nums).take n) = .error .undefined := by
  obtain ⟨left, leftEq⟩ : ∃ left : Nat, 2 ^ 31 - num = left := ⟨_, (Int.toNat_of_nonneg (by omega)).symm⟩
  induction left generalizing num nums with
  | zero => omega
  | succ left ih =>
      rw [rangeLoop_inside positive nums inside]
      split
      · refine ih ?_ (by omega) (by omega) _ (by omega)
        rw [asUnsigned] at inside ⊢
        omega
      · rfl

end

/-- A range of `unsigned int`s that does not cross the largest `int` is printed as a
range of `int`s. -/
theorem upTo_map_asInt (ordered : lo ≤ hi) (side : hi < 2 ^ 31 ∨ 2 ^ 31 ≤ lo) :
    (upTo lo hi).map asInt = upTo (asInt lo) (asInt hi) := by
  have size : asInt hi + 1 - asInt lo = hi + 1 - lo := by
    simp only [asInt]
    split <;> split <;> omega
  simp only [upTo, Int.range, size, List.map_map]
  refine List.map_congr_left fun k member => ?_
  have inside := List.mem_range.1 member
  simp only [Function.comp, asInt]
  split <;> split <;> omega

/-- **The numbers of a range are appended to the text**, as far as there is room. -/
theorem rangeLoop_eq (positive : 0 < n) (loBounds : 0 ≤ lo ∧ lo < 2 ^ 32) (hiBounds : 0 ≤ hi ∧ hi < 2 ^ 32)
    (nums : List Int) :
    (Ends lo hi → rangeLoop (n + 1) hi (asInt lo) ((commas nums).take n) =
      .ok ((commas (nums ++ (upTo lo hi).map asInt)).take n)) ∧
    (¬ Ends lo hi → rangeLoop (n + 1) hi (asInt lo) ((commas nums).take n) = .error .undefined) := by
  have loBits := asUnsigned_asInt loBounds
  have hiBits := (asUnsigned_asInt hiBounds).symm
  constructor
  · rintro (reversed | ends)
    · rw [rangeLoop_past (by omega), upTo_empty reversed, List.map_nil, List.append_nil]
    · by_cases reversed : hi < lo
      · rw [rangeLoop_past (by omega), upTo_empty reversed, List.map_nil, List.append_nil]
      · rw [upTo_map_asInt (by omega) (by omega)]
        apply rangeLoop_ends positive hiBits
        all_goals
          simp only [asInt]
          split <;> (try split) <;> omega
  · intro endless
    simp only [Ends, not_or, not_and, Int.not_lt] at endless
    apply rangeLoop_undefined positive (by omega)
    all_goals
      simp only [asInt]
      split <;> omega

/-! ## The items in turn -/

theorem items_nil : items [] = [[[]]] := by
  simp [items]

theorem items_comma (str : List Char) : items (',' :: str) = [[]] :: items str := by
  simp [items, List.splitOn_cons_eq_if_modifyHead]

theorem items_dash (str : List Char) : items ('-' :: str) = (items str).modifyHead ([] :: ·) := by
  obtain ⟨field, fields, split⟩ := List.exists_cons_of_ne_nil (List.splitOn_ne_nil ',' str)
  simp [items, List.splitOn_cons_eq_if_modifyHead, split]

theorem items_cons {c : Char} (comma : c ≠ ',') (dash : c ≠ '-') (str : List Char) :
    items (c :: str) = (items str).modifyHead (·.modifyHead (c :: ·)) := by
  obtain ⟨field, fields, split⟩ := List.exists_cons_of_ne_nil (List.splitOn_ne_nil ',' str)
  simp [items, List.splitOn_cons_eq_if_modifyHead, split, comma, dash]

/-- There is a first piece. -/
theorem items_ne_nil (str : List Char) :
    ∃ piece pieces rest, items str = (piece :: pieces) :: rest := by
  obtain ⟨field, fields, split⟩ := List.exists_cons_of_ne_nil (List.splitOn_ne_nil ',' str)
  obtain ⟨piece, pieces, splitField⟩ := List.exists_cons_of_ne_nil (List.splitOn_ne_nil '-' field)
  exact ⟨piece, pieces, fields.map (List.splitOn '-'), by rw [items, split, List.map_cons, splitField]⟩

/-- The items are read in turn, and the numbers of each appended to the text. `low`
is the number before the first piece. -/
def expandItems (maxLen : Nat) (low : Option Int) : List (List (List Char)) → (result : List Char) →
    Except Stop (List Char)
  | [], result => .ok result
  | item :: items, result =>
      match readItem low item with
      | none => .error .failed
      | some (lo, hi) => do expandItems maxLen none items (← rangeLoop maxLen hi (asInt lo) result)

theorem readPiece_short (short : piece.length ≤ ufpdMaxArglen - 1) :
    readPiece piece = scanfU piece := if_pos short

theorem readItem_long (long : ¬ piece.length ≤ ufpdMaxArglen - 1) (low : Option Int) (pieces : List (List Char)) :
    readItem low (piece :: pieces) = none := by
  have unread : readPiece piece = none := if_neg long
  cases pieces with
  | nil => rw [readItem, unread, Option.map_none]
  | cons next pieces => rw [readItem, unread, Option.bind_none]

/-- The loop over the characters, where `buf` holds the start of a piece. -/
theorem parseRangeLoop_eq (maxLen : Nat) (str buf : List Char) (low : Option Int) (result : List Char)
    (short : buf.length ≤ ufpdMaxArglen - 1) :
    parseRangeLoop maxLen str buf low result =
      expandItems maxLen low ((items str).modifyHead (·.modifyHead (buf ++ ·))) result := by
  induction str generalizing buf low result with
  | nil =>
      simp only [parseRangeLoop, closeItem, items_nil, List.modifyHead_cons, List.append_nil, expandItems, readItem,
        readPiece_short short]
      cases scanfU buf with
      | none => rfl
      | some hi => exact (bind_pure _).symm
  | cons c str ih =>
      obtain ⟨piece, pieces, rest, itemsEq⟩ := items_ne_nil str
      have fresh : ∀ low result, parseRangeLoop maxLen str [] low result =
          expandItems maxLen low (items str) result := by
        intro low result
        rw [ih [] low result (Nat.zero_le _), itemsEq]
        rfl
      by_cases comma : c = ','
      · subst comma
        rw [parseRangeLoop, if_pos rfl, items_comma]
        simp only [closeItem, List.modifyHead_cons, List.append_nil, expandItems, readItem, readPiece_short short,
          fresh]
        cases scanfU buf with
        | none => rfl
        | some hi => rfl
      by_cases dash : c = '-'
      · subst dash
        rw [parseRangeLoop, if_neg comma, if_pos rfl, items_dash, itemsEq]
        simp only [List.modifyHead_cons, List.append_nil, expandItems, readItem, readPiece_short short]
        cases scanfU buf with
        | none => rfl
        | some num =>
            rw [Option.bind_some]
            simp only [fresh, itemsEq, expandItems]
      rw [parseRangeLoop, if_neg comma, if_neg dash, items_cons comma dash, itemsEq]
      simp only [List.modifyHead_cons]
      split
      · rename_i full
        have long : ¬ (buf ++ c :: piece).length ≤ ufpdMaxArglen - 1 := by
          rw [List.length_append, List.length_cons]
          omega
        simp only [expandItems, readItem_long long]
      · rw [ih (buf ++ [c]) low result (by rw [List.length_append, List.length_singleton]; omega), itemsEq]
        simp only [List.modifyHead_cons, List.append_assoc, List.singleton_append]

/-- **`ufpd_parse_range` reads the items of its argument in turn.** -/
theorem parseRange_eq (str : List Char) (maxLen : Nat) :
    parseRange str maxLen = expandItems maxLen none (items str) [] := by
  obtain ⟨piece, pieces, rest, itemsEq⟩ := items_ne_nil str
  rw [parseRange, parseRangeLoop_eq maxLen str [] none [] (Nat.zero_le _), itemsEq]
  rfl

/-! ## What comes out -/

theorem scanfU_bounds {s : List Char} {num : Int} (read : scanfU s = some num) : 0 ≤ num ∧ num < 2 ^ 32 := by
  obtain ⟨v, _, rfl⟩ := Option.map_eq_some_iff.1 read
  rw [asUnsigned]
  omega

theorem readPiece_bounds {num : Int} (read : readPiece piece = some num) : 0 ≤ num ∧ num < 2 ^ 32 := by
  rw [readPiece] at read
  split at read
  · exact scanfU_bounds read
  · cases read

theorem readItem_bounds {low : Option Int} (before : ∀ num, low = some num → 0 ≤ num ∧ num < 2 ^ 32)
    (read : readItem low item = some (lo, hi)) : (0 ≤ lo ∧ lo < 2 ^ 32) ∧ 0 ≤ hi ∧ hi < 2 ^ 32 := by
  induction item generalizing low with
  | nil => cases read
  | cons piece pieces ih =>
      cases pieces with
      | nil =>
          obtain ⟨num, piece, same⟩ := Option.map_eq_some_iff.1 read
          obtain ⟨rfl, rfl⟩ := Prod.mk.inj same
          refine ⟨?_, readPiece_bounds piece⟩
          cases low with
          | none => exact readPiece_bounds piece
          | some num => exact before num rfl
      | cons next pieces =>
          obtain ⟨num, piece, rest⟩ := Option.bind_eq_some_iff.1 read
          refine ih (fun other same => ?_) rest
          cases same
          exact readPiece_bounds piece

/-- The numbers an argument stands for, item by item, each as `%u` reads it. -/
def coreNumbers (str : List Char) : List Int :=
  ((items str).filterMap (readItem none)).flatMap fun range => upTo range.1 range.2

/-- The item is read, and the loop over its range ends. -/
def Read (item : List (List Char)) : Prop := ∃ lo hi, readItem none item = some (lo, hi) ∧ Ends lo hi

/-- An item that is not read comes before any range whose loop does not end. -/
def Refused (list : List (List (List Char))) : Prop :=
  ∃ before item after, list = before ++ item :: after ∧ readItem none item = none ∧ ∀ other ∈ before, Read other

section

variable {n : Nat} {item : List (List Char)} {list : List (List (List Char))}

theorem expandItems_unread (unread : readItem none item = none) (result : List Char) :
    expandItems (n + 1) none (item :: list) result = .error .failed := by
  simp only [expandItems, unread]

theorem expandItems_step (positive : 0 < n) (read : readItem none item = some (lo, hi)) (ends : Ends lo hi)
    (nums : List Int) :
    expandItems (n + 1) none (item :: list) ((commas nums).take n) =
      expandItems (n + 1) none list ((commas (nums ++ (upTo lo hi).map asInt)).take n) := by
  obtain ⟨loBounds, hiBounds⟩ := readItem_bounds (by simp) read
  simp only [expandItems, read, (rangeLoop_eq positive loBounds hiBounds nums).1 ends]
  rfl

theorem expandItems_endless (positive : 0 < n) (read : readItem none item = some (lo, hi)) (endless : ¬ Ends lo hi)
    (nums : List Int) : expandItems (n + 1) none (item :: list) ((commas nums).take n) = .error .undefined := by
  obtain ⟨loBounds, hiBounds⟩ := readItem_bounds (by simp) read
  simp only [expandItems, read, (rangeLoop_eq positive loBounds hiBounds nums).2 endless]
  rfl

theorem expandItems_read (positive : 0 < n) (read : ∀ item ∈ list, Read item) (nums : List Int) :
    expandItems (n + 1) none list ((commas nums).take n) = .ok ((commas (nums ++
      ((list.filterMap (readItem none)).flatMap fun range => upTo range.1 range.2).map asInt)).take n) := by
  induction list generalizing nums with
  | nil => simp [expandItems]
  | cons item list ih =>
      obtain ⟨lo, hi, first, ends⟩ := read item List.mem_cons_self
      rw [expandItems_step positive first ends, ih (fun other member => read other (List.mem_cons_of_mem _ member)),
        List.filterMap_cons_some first, List.flatMap_cons, List.map_append, List.append_assoc]

theorem expandItems_refused (positive : 0 < n) (refused : Refused list) (nums : List Int) :
    expandItems (n + 1) none list ((commas nums).take n) = .error .failed := by
  obtain ⟨before, item, after, rfl, unread, read⟩ := refused
  induction before generalizing nums with
  | nil => exact expandItems_unread unread _
  | cons other before ih =>
      obtain ⟨lo, hi, first, ends⟩ := read other List.mem_cons_self
      rw [List.cons_append, expandItems_step positive first ends]
      exact ih _ fun other member => read other (List.mem_cons_of_mem _ member)

theorem Refused.cons (first : Read item) (refused : Refused list) : Refused (item :: list) := by
  obtain ⟨before, other, after, rfl, unread, read⟩ := refused
  refine ⟨item :: before, other, after, rfl, unread, ?_⟩
  rw [List.forall_mem_cons]
  exact ⟨first, read⟩

theorem expandItems_undefined (positive : 0 < n) (unread : ¬ ∀ item ∈ list, Read item) (taken : ¬ Refused list)
    (nums : List Int) : expandItems (n + 1) none list ((commas nums).take n) = .error .undefined := by
  induction list generalizing nums with
  | nil => simp at unread
  | cons item list ih =>
      cases first : readItem none item with
      | none => exact absurd ⟨[], item, list, rfl, first, by simp⟩ taken
      | some range =>
          obtain ⟨lo, hi⟩ := range
          by_cases ends : Ends lo hi
          · have here : Read item := ⟨lo, hi, first, ends⟩
            rw [expandItems_step positive first ends]
            refine ih (fun all => unread ?_) (fun refused => taken (refused.cons here)) _
            rw [List.forall_mem_cons]
            exact ⟨here, all⟩
          · exact expandItems_endless positive first ends nums

end

variable {str : List Char}

theorem parseRange_read (read : ∀ item ∈ items str, Read item) :
    parseRange str ufpdMaxArglen =
      .ok ((commas ((coreNumbers str).map asInt)).take (ufpdMaxArglen - 1)) := by
  rw [parseRange_eq]
  exact expandItems_read (by decide) read []

theorem parseRange_refused (refused : Refused (items str)) :
    parseRange str ufpdMaxArglen = .error .failed := by
  rw [parseRange_eq]
  exact expandItems_refused (by decide) refused []

theorem parseRange_undefined (unread : ¬ ∀ item ∈ items str, Read item) (taken : ¬ Refused (items str)) :
    parseRange str ufpdMaxArglen = .error .undefined := by
  rw [parseRange_eq]
  exact expandItems_undefined (by decide) unread taken []

/-! ## What an argument stands for -/

/-- The number a piece is, if an `unsigned int` can hold it. -/
def number (piece : List Char) : Option Int := (numeral piece).filter fun v => 0 ≤ v ∧ v < 2 ^ 32

/-- An item is a number, or a range from one number to another. -/
def itemNumbers : List (List Char) → Option (List Int)
  | [piece] => (number piece).map fun v => [v]
  | [first, last] => (number first).bind fun lo => (number last).map fun hi => upTo lo hi
  | _ => none

/-- Every number of every item, in order. -/
def expansion (str : List Char) : Option (List Int) := ((items str).mapM itemNumbers).map List.flatten

/-- Every number of the argument fits the buffer that it is read from. -/
def Fits (str : List Char) : Prop := ∀ item ∈ items str, ∀ piece ∈ item, piece.length ≤ ufpdMaxArglen - 1

theorem scanfU_number (is : number piece = some v) : scanfU piece = some v := by
  obtain ⟨value, bounds⟩ := Option.filter_eq_some_iff.1 is
  rw [decide_eq_true_eq] at bounds
  rw [scanfU, value, Option.map_some, if_neg (by omega), asUnsigned]
  exact congrArg some (by omega)

theorem upTo_self (v : Int) : upTo v v = [v] := by
  rw [upTo_cons (Int.le_refl v), upTo_empty (by omega)]

theorem itemNumbers_read (is : itemNumbers item = some nums) (fits : ∀ piece ∈ item, piece.length ≤ ufpdMaxArglen - 1) :
    ∃ lo hi, readItem none item = some (lo, hi) ∧ nums = upTo lo hi := by
  match item with
  | [] => cases is
  | [piece] =>
      obtain ⟨v, value, rfl⟩ := Option.map_eq_some_iff.1 is
      refine ⟨v, v, ?_, (upTo_self v).symm⟩
      rw [readItem, readPiece_short (fits piece (by simp)), scanfU_number value]
      rfl
  | [first, last] =>
      obtain ⟨lo, loValue, rest⟩ := Option.bind_eq_some_iff.1 is
      obtain ⟨hi, hiValue, rfl⟩ := Option.map_eq_some_iff.1 rest
      refine ⟨lo, hi, ?_, rfl⟩
      rw [readItem, readPiece_short (fits first (by simp)), scanfU_number loValue, Option.bind_some, readItem,
        readPiece_short (fits last (by simp)), scanfU_number hiValue]
      rfl
  | _ :: _ :: _ :: _ => cases is

theorem readItem_fits {low : Option Int} {range : Int × Int} (read : readItem low item = some range) :
    ∀ piece ∈ item, piece.length ≤ ufpdMaxArglen - 1 := by
  induction item generalizing low with
  | nil => simp
  | cons piece pieces ih =>
      rw [List.forall_mem_cons]
      refine ⟨?_, ?_⟩
      · by_contra long
        rw [readItem_long long] at read
        cases read
      · cases pieces with
        | nil => simp
        | cons next pieces =>
            obtain ⟨lo, _, rest⟩ := Option.bind_eq_some_iff.1 read
            exact ih rest

theorem itemNumbers_list {list : List (List (List Char))} {lists : List (List Int)}
    (each : list.mapM itemNumbers = some lists)
    (fits : ∀ item ∈ list, ∀ piece ∈ item, piece.length ≤ ufpdMaxArglen - 1) :
    ((list.filterMap (readItem none)).flatMap fun range => upTo range.1 range.2) = lists.flatten ∧
      ∀ item ∈ list, ∃ lo hi, readItem none item = some (lo, hi) ∧ ∀ v ∈ upTo lo hi, v ∈ lists.flatten := by
  induction list generalizing lists with
  | nil =>
      cases each
      simp
  | cons item list ih =>
      obtain ⟨first, firstIs, rest, restIs, rfl⟩ : ∃ first, itemNumbers item = some first ∧
          ∃ rest, list.mapM itemNumbers = some rest ∧ first :: rest = lists := by
        simpa [List.mapM_cons, Option.bind_eq_some_iff] using each
      rw [List.forall_mem_cons] at fits
      obtain ⟨lo, hi, read, rfl⟩ := itemNumbers_read firstIs fits.1
      obtain ⟨numbers, others⟩ := ih restIs fits.2
      refine ⟨by rw [List.filterMap_cons_some read, List.flatMap_cons, numbers, List.flatten_cons], ?_⟩
      rw [List.forall_mem_cons, List.flatten_cons]
      refine ⟨⟨lo, hi, read, fun v member => List.mem_append_left _ member⟩, fun other member => ?_⟩
      obtain ⟨lo, hi, read, inside⟩ := others other member
      exact ⟨lo, hi, read, fun v member => List.mem_append_right _ (inside v member)⟩

/-- An argument with an expansion whose pieces fit is read as its expansion. -/
theorem expansion_read (is : expansion str = some nums) (fits : Fits str) :
    coreNumbers str = nums ∧
      ∀ item ∈ items str, ∃ lo hi, readItem none item = some (lo, hi) ∧ ∀ v ∈ upTo lo hi, v ∈ nums := by
  obtain ⟨lists, each, rfl⟩ := Option.map_eq_some_iff.1 is
  exact itemNumbers_list each fits

theorem map_asInt_small (small : ∀ v ∈ nums, v < 2 ^ 31) : nums.map asInt = nums :=
  (List.map_congr_left fun v member => asInt_small (small v member)).trans (List.map_id nums)

/-- A text in which each number is printed as an `int` is the right one only if each
number fits an `int`. -/
theorem take_commas_asInt (bounds : ∀ v ∈ nums, 0 ≤ v ∧ v < 2 ^ 32)
    (same : (commas (nums.map asInt)).take n = commas nums) : ∀ v ∈ nums, v < 2 ^ 31 := by
  intro large member
  by_contra notSmall
  obtain ⟨v, found⟩ : ∃ v, nums.find? (fun v => decide (2 ^ 31 ≤ v)) = some v := by
    rw [← Option.isSome_iff_exists, List.find?_isSome]
    exact ⟨large, member, by simpa using notSmall⟩
  -- the first number that does not fit comes out negative
  obtain ⟨_, before, after, rfl, small⟩ := List.find?_eq_some_iff_append.1 found
  have bound := (bounds v (by simp)).2
  have high : 2 ^ 31 ≤ v := by simpa using List.find?_some found
  have start : before.map asInt = before := map_asInt_small fun w member => by
    simpa using small w member
  rw [List.map_append, List.map_cons, start] at same
  exact take_commas_sign (by omega) (by rw [asInt, if_neg (by omega)]; omega) n same

theorem mem_coreNumbers (member : v ∈ coreNumbers str) :
    ∃ item ∈ items str, ∃ lo hi, readItem none item = some (lo, hi) ∧ lo ≤ v ∧ v ≤ hi := by
  obtain ⟨⟨lo, hi⟩, range, inside⟩ := List.mem_flatMap.1 member
  obtain ⟨item, itemMember, read⟩ := List.mem_filterMap.1 range
  exact ⟨item, itemMember, lo, hi, read, mem_upTo.1 inside⟩

theorem coreNumbers_bounds (member : v ∈ coreNumbers str) : 0 ≤ v ∧ v < 2 ^ 32 := by
  obtain ⟨item, _, lo, hi, read, inside⟩ := mem_coreNumbers member
  have bounds := readItem_bounds (by simp) read
  omega

/-- Of the numbers that the loops over the ranges come to, those that fit an `int`
are below the largest one. -/
theorem coreNumbers_small (read : ∀ item ∈ items str, Read item) (member : v ∈ coreNumbers str) (small : v < 2 ^ 31) :
    v < 2 ^ 31 - 1 := by
  obtain ⟨item, itemMember, lo, hi, range, inside⟩ := mem_coreNumbers member
  obtain ⟨lo', hi', range', ends⟩ := read item itemMember
  obtain ⟨rfl, rfl⟩ := Prod.mk.inj (Option.some.inj (range'.symm.trans range))
  rcases ends with reversed | below | above <;> omega

/-- **No silent truncation, where there is none**: an argument is refused or expanded
in full exactly when an item that is not a number is found before any range without
an end, or every item is a number or a range of numbers that fit an `int` and the
text of the expansion fits the buffer. -/
theorem parseRange_complete_iff (str : List Char) :
    (parseRange str ufpdMaxArglen = .error .failed ∨
      ∃ nums, expansion str = some nums ∧ parseRange str ufpdMaxArglen = .ok (commas nums)) ↔
    (Refused (items str) ∨ ∃ nums, expansion str = some nums ∧ Fits str ∧ (∀ v ∈ nums, v < 2 ^ 31 - 1) ∧
      (commas nums).length ≤ ufpdMaxArglen - 1) := by
  constructor
  · intro good
    by_cases refused : Refused (items str)
    · exact .inl refused
    by_cases read : ∀ item ∈ items str, Read item
    · rw [parseRange_read read] at good
      obtain wrong | ⟨nums, is, text⟩ := good
      · cases wrong
      have fits : Fits str := fun item member =>
        let ⟨_, _, first, _⟩ := read item member
        readItem_fits first
      obtain ⟨numbers, each⟩ := expansion_read is fits
      rw [numbers, Except.ok.injEq] at text
      refine .inr ⟨nums, is, fits, ?_, ?_⟩
      · intro v member
        have bounds : ∀ v ∈ nums, 0 ≤ v ∧ v < 2 ^ 32 := fun v member => coreNumbers_bounds (numbers ▸ member)
        exact coreNumbers_small read (numbers ▸ member) (take_commas_asInt bounds text v member)
      · rw [← text, List.length_take]
        exact Nat.min_le_left _ _
    · rw [parseRange_undefined read refused] at good
      obtain wrong | ⟨nums, _, wrong⟩ := good <;> cases wrong
  · rintro (refused | ⟨nums, is, fits, small, short⟩)
    · exact .inl (parseRange_refused refused)
    · obtain ⟨numbers, each⟩ := expansion_read is fits
      have read : ∀ item ∈ items str, Read item := by
        intro item member
        obtain ⟨lo, hi, read, inside⟩ := each item member
        refine ⟨lo, hi, read, ?_⟩
        by_cases reversed : hi < lo
        · exact .inl reversed
        · exact .inr (.inl (small hi (inside hi (mem_upTo.2 ⟨by omega, Int.le_refl hi⟩))))
      refine .inr ⟨nums, is, ?_⟩
      rw [parseRange_read read, numbers, map_asInt_small fun v member => by have := small v member; omega,
        List.take_of_length_le short]

theorem parseRange_complete_iff_sample :
    parseRange "1-4,8".toList ufpdMaxArglen = .error .failed ∨ ∃ nums, expansion "1-4,8".toList = some nums ∧
      parseRange "1-4,8".toList ufpdMaxArglen = .ok (commas nums) :=
  (parseRange_complete_iff "1-4,8".toList).2 (.inr ⟨[1, 2, 3, 4, 8], by decide +kernel, by
    unfold Fits
    decide +kernel, by decide, by decide +kernel⟩)

/-- The numbers from 0 to 299 do not fit the buffer, and the argument is accepted. -/
theorem parseRange_cut_off :
    ¬ (parseRange "0-299".toList ufpdMaxArglen = .error .failed ∨ ∃ nums, expansion "0-299".toList = some nums ∧
      parseRange "0-299".toList ufpdMaxArglen = .ok (commas nums)) := by
  have is : expansion "0-299".toList = some (upTo 0 299) := by decide +kernel
  have read : ∀ item ∈ items "0-299".toList, Read item := by
    have one : items "0-299".toList = [["0".toList, "299".toList]] := by decide +kernel
    rw [one, List.forall_mem_singleton]
    exact ⟨0, 299, by decide +kernel, .inr (.inl (by decide))⟩
  rw [parseRange_read read]
  rintro (wrong | ⟨nums, is', text⟩)
  · cases wrong
  obtain rfl : nums = upTo 0 299 := Option.some.inj (is'.symm.trans is)
  have longer : ufpdMaxArglen - 1 < (commas (upTo 0 299)).length := by decide +kernel
  have length := congrArg List.length (Except.ok.inj text)
  rw [List.length_take] at length
  omega

end Ufp.Daemon
