/-
# Ufp.Daemon.Options — what the daemon accepts on its command line

The list of `-c` goes through three loops: `ufpd_parse_range` prints the numbers of
its items, `ufpd_parse_list` takes the text apart, and `ufpd_convert_list` reads the
numbers back. On a list of numbers and ranges that is not longer than the array of
cores, they come out as they went in (`coresOption_complete`). The counts that the
options leave behind are within the arrays that they count, except after a list
that is too long or a range that the counter overflows on (`parseArgs_bounds_iff`).
-/
import Ufp.Daemon.CoreList

namespace Ufp.Daemon

open Ufp.Theory.CLibrary Ufp.Theory.Decimal

set_option autoImplicit false

/-! ## Taking a list apart -/

/-- The fields of a list, the first of which starts with `buf`. -/
def fieldsAfter (buf str : List Char) : List (List Char) := (str.splitOn ',').modifyHead (buf ++ ·)

theorem fieldsAfter_nil (buf : List Char) : fieldsAfter buf [] = [buf] := by
  simp [fieldsAfter]

theorem fieldsAfter_empty (str : List Char) : fieldsAfter [] str = str.splitOn ',' := by
  obtain ⟨field, fields, split⟩ := List.exists_cons_of_ne_nil (List.splitOn_ne_nil ',' str)
  rw [fieldsAfter, split]
  rfl

theorem fieldsAfter_comma (buf str : List Char) : fieldsAfter buf (',' :: str) = buf :: fieldsAfter [] str := by
  rw [fieldsAfter_empty]
  simp [fieldsAfter, List.splitOn_cons_eq_if_modifyHead]

theorem fieldsAfter_cons {c : Char} (comma : c ≠ ',') (buf str : List Char) :
    fieldsAfter buf (c :: str) = fieldsAfter (buf ++ [c]) str := by
  obtain ⟨field, fields, split⟩ := List.exists_cons_of_ne_nil (List.splitOn_ne_nil ',' str)
  simp [fieldsAfter, List.splitOn_cons_eq_if_modifyHead, split, comma]

/-- The first field is at least what it starts with. -/
theorem fieldsAfter_long (buf str : List Char) (long : ufpdMaxArglen - 1 < buf.length) :
    ∃ field ∈ fieldsAfter buf str, ufpdMaxArglen - 1 < field.length := by
  obtain ⟨field, fields, split⟩ := List.exists_cons_of_ne_nil (List.splitOn_ne_nil ',' str)
  refine ⟨buf ++ field, by simp [fieldsAfter, split], ?_⟩
  rw [List.length_append]
  omega

/-- There is room for the fields, and none is longer than the buffer. -/
def Listed (maxCount : Nat) (fields : List (List Char)) : Prop :=
  fields.length ≤ maxCount ∧ ∀ field ∈ fields, field.length ≤ ufpdMaxArglen - 1

variable {maxCount : Nat} {opt : Opt} {opts : List Opt} {str : List Char} {granted : Nat → Bool}
  {posixlyCorrect : Bool} {argv : List (List Char)}

theorem closeField_room {count : Nat} (room : count < maxCount) {buf : List Char}
    (short : buf.length ≤ ufpdMaxArglen - 1) (result : Nat → Option (List Char)) :
    closeField ufpdMaxArglen maxCount buf count result = some (Function.update result count (some buf)) := by
  rw [closeField, if_neg (by omega), List.take_of_length_le (by omega)]

theorem closeField_full {count : Nat} (full : maxCount ≤ count) (buf : List Char) (result : Nat → Option (List Char)) :
    closeField ufpdMaxArglen maxCount buf count result = none := if_pos full

theorem parseListLoop_listed (str buf : List Char) (count : Nat) (result : Nat → Option (List Char))
    (room : count + (fieldsAfter buf str).length ≤ maxCount)
    (short : ∀ field ∈ fieldsAfter buf str, field.length ≤ ufpdMaxArglen - 1) :
    (parseListLoop ufpdMaxArglen maxCount str buf count result).1 = count + (fieldsAfter buf str).length ∧
    (∀ i < (fieldsAfter buf str).length,
      (parseListLoop ufpdMaxArglen maxCount str buf count result).2 (count + i) = (fieldsAfter buf str)[i]?) ∧
    ∀ i < count, (parseListLoop ufpdMaxArglen maxCount str buf count result).2 i = result i := by
  induction str generalizing buf count result with
  | nil =>
      rw [fieldsAfter_nil] at room short ⊢
      rw [List.length_singleton] at room
      rw [parseListLoop, closeField_room (by omega) (short buf (by simp))]
      refine ⟨rfl, fun i inside => ?_, fun i before => Function.update_of_ne (by omega) _ _⟩
      obtain rfl : i = 0 := by simpa using inside
      exact Function.update_self ..
  | cons c str ih =>
      by_cases comma : c = ','
      · subst comma
        rw [fieldsAfter_comma] at room short ⊢
        rw [List.forall_mem_cons] at short
        rw [List.length_cons] at room ⊢
        rw [parseListLoop, if_pos rfl, closeField_room (by omega) short.1]
        obtain ⟨total, fields, before⟩ := ih [] (count + 1) (Function.update result count (some buf)) (by omega) short.2
        refine ⟨?_, fun i inside => ?_, fun i low => ?_⟩
        · simp only [total]
          omega
        · cases i with
          | zero => exact (before count (by omega)).trans (Function.update_self ..)
          | succ i =>
              rw [List.getElem?_cons_succ, ← fields i (by omega)]
              exact congrArg _ (by omega)
        · exact (before i (by omega)).trans (Function.update_of_ne (by omega) _ _)
      · rw [fieldsAfter_cons comma] at room short ⊢
        have notFull : ¬ buf.length = ufpdMaxArglen - 1 := by
          intro full
          obtain ⟨field, member, long⟩ := fieldsAfter_long (buf ++ [c]) str (by simp [full])
          exact absurd (short field member) (by omega)
        rw [parseListLoop, if_neg comma, if_neg notFull]
        exact ih (buf ++ [c]) count result room short

theorem parseListLoop_refused (str buf : List Char) (count : Nat) (result : Nat → Option (List Char))
    (long : maxCount < count + (fieldsAfter buf str).length ∨
      ∃ field ∈ fieldsAfter buf str, ufpdMaxArglen - 1 < field.length) (short : buf.length ≤ ufpdMaxArglen - 1) :
    (parseListLoop ufpdMaxArglen maxCount str buf count result).1 = -1 := by
  induction str generalizing buf count result with
  | nil =>
      rw [fieldsAfter_nil] at long
      rw [parseListLoop, closeField_full]
      rcases long with full | ⟨field, member, long⟩
      · simpa [Nat.lt_succ_iff] using full
      · rw [List.mem_singleton.1 member] at long
        omega
  | cons c str ih =>
      by_cases comma : c = ','
      · subst comma
        rw [fieldsAfter_comma, List.length_cons] at long
        rw [parseListLoop, if_pos rfl]
        by_cases full : maxCount ≤ count
        · rw [closeField_full full]
        · rw [closeField_room (by omega) short]
          refine ih [] (count + 1) _ ?_ (Nat.zero_le _)
          rcases long with full | ⟨field, member, long⟩
          · exact .inl (by omega)
          · rcases List.mem_cons.1 member with rfl | member
            · omega
            · exact .inr ⟨field, member, long⟩
      · rw [fieldsAfter_cons comma] at long
        rw [parseListLoop, if_neg comma]
        split
        · rfl
        · exact ih (buf ++ [c]) count result long (by rw [List.length_append, List.length_singleton]; omega)

/-- **`ufpd_parse_list` stores the fields of its argument**, if there is room. -/
theorem parseList_listed (listed : Listed maxCount (str.splitOn ',')) (result : Nat → Option (List Char)) :
    (parseList str result ufpdMaxArglen maxCount).1 = (str.splitOn ',').length ∧
    ∀ i < (str.splitOn ',').length, (parseList str result ufpdMaxArglen maxCount).2 i = (str.splitOn ',')[i]? := by
  rw [← fieldsAfter_empty] at listed ⊢
  obtain ⟨total, fields, _⟩ := parseListLoop_listed str [] 0 result (by simpa using listed.1) listed.2
  exact ⟨by simpa [parseList] using total, fun i inside => by simpa [parseList] using fields i inside⟩

theorem parseList_refused (unlisted : ¬ Listed maxCount (str.splitOn ',')) (result : Nat → Option (List Char)) :
    (parseList str result ufpdMaxArglen maxCount).1 = -1 := by
  rw [← fieldsAfter_empty] at unlisted
  refine parseListLoop_refused str [] 0 result ?_ (Nat.zero_le _)
  by_contra short
  rw [not_or] at short
  refine unlisted ⟨by omega, fun field member => ?_⟩
  by_contra long
  exact short.2 ⟨field, member, by omega⟩

/-! ## Reading it back -/

theorem convertLoop_reads (str : Nat → Option (List Char)) (strCount : Int) (values : Nat → Int) (todo i : Nat)
    (result : Nat → Option Int)
    (each : ∀ j, i ≤ j → j < i + todo → (j : Int) < strCount → ∃ s, str j = some s ∧ scanfU s = some (values j)) :
    ∃ cores, convertLoop str strCount todo i result = .ok cores ∧ (∀ j < i, cores j = result j) ∧
      ∀ j, i ≤ j → j < i + todo → (j : Int) < strCount → cores j = some (values j) := by
  induction todo generalizing i result with
  | zero => exact ⟨result, rfl, fun _ _ => rfl, fun j low high => by omega⟩
  | succ todo ih =>
      by_cases more : (i : Int) < strCount
      · obtain ⟨s, field, value⟩ := each i (Nat.le_refl i) (by omega) more
        obtain ⟨cores, done, before, after⟩ := ih (i + 1) (Function.update result i (some (values i)))
          fun j low high => each j (by omega) (by omega)
        refine ⟨cores, ?_, fun j low => ?_, fun j low high inside => ?_⟩
        · rw [convertLoop, if_pos more]
          simp only [field, value, done]
        · exact (before j (by omega)).trans (Function.update_of_ne (by omega) _ _)
        · by_cases here : j = i
          · subst here
            exact (before j (by omega)).trans (Function.update_self ..)
          · exact after j (by omega) (by omega) inside
      · exact ⟨result, by rw [convertLoop, if_neg more], fun _ _ => rfl, fun j low high inside => by omega⟩

theorem scanfU_decimal {v : Int} (low : -2 ^ 31 ≤ v) (high : v < 2 ^ 31) : scanfU (decimal v) = some (asUnsigned v) := by
  rw [scanfU, numeral_decimal, Option.map_some, if_neg (by omega)]

theorem scanfU_asInt {v : Int} (bounds : 0 ≤ v ∧ v < 2 ^ 32) : scanfU (decimal (asInt v)) = some v := by
  rw [scanfU_decimal (asInt_bounds bounds).1 (asInt_bounds bounds).2, asUnsigned_asInt bounds]

/-! ## The option -c -/

variable {s : List Char} (ufpd : Ufpd) (argbuf : Nat → Option (List Char))

/-- The printed numbers of an argument. -/
def printed (s : List Char) : List Int := (coreNumbers s).map asInt

theorem length_printed_le (s : List Char) : ∀ v ∈ printed s, (decimal v).length ≤ 11 := by
  intro v member
  obtain ⟨num, inside, rfl⟩ := List.mem_map.1 member
  have bounds := asInt_bounds (coreNumbers_bounds inside)
  exact length_decimal_le (by decide) (by omega)

theorem coresOption_refused (refused : Refused (items s)) : coresOption s ufpd argbuf = .error .failed := by
  rw [coresOption, parseRange_refused refused]
  rfl

theorem coresOption_undefined (unread : ¬ ∀ item ∈ items s, Read item) (taken : ¬ Refused (items s)) :
    coresOption s ufpd argbuf = .error .undefined := by
  rw [coresOption, parseRange_undefined unread taken]
  rfl

theorem coresOption_eq (read : ∀ item ∈ items s, Read item) {text : List Char}
    (textEq : (commas (printed s)).take (ufpdMaxArglen - 1) = text) {list : Int × (Nat → Option (List Char))}
    (listEq : parseList text argbuf ufpdMaxArglen ufpdMaxArgs = list) :
    coresOption s ufpd argbuf =
      (convertList list.2 (asInt (asUnsigned list.1)) ufpd.cores ufpdMaxCores).map fun cores =>
        ({ ufpd with numThreads := asUnsigned list.1, cores }, list.2) := by
  have natural : ¬ asUnsigned list.1 < 0 := by
    rw [asUnsigned]
    omega
  rw [coresOption, parseRange_read read, ← printed, textEq]
  simp only [bind, Except.bind, listEq, if_neg natural]
  cases convertList list.2 (asInt (asUnsigned list.1)) ufpd.cores ufpdMaxCores <;> rfl

/-- The fields in which the numbers were printed are read back as the numbers. -/
theorem convertList_printed (s : List Char) (fields : Nat → Option (List Char)) (strCount : Int)
    (cores : Nat → Option Int)
    (each : ∀ j < ufpdMaxCores, (j : Int) < strCount →
      ∃ v, (coreNumbers s)[j]? = some v ∧ fields j = some (decimal (asInt v))) :
    ∃ cores', convertList fields strCount cores ufpdMaxCores = .ok cores' ∧
      ∀ j < ufpdMaxCores, (j : Int) < strCount → cores' j = (coreNumbers s)[j]? := by
  obtain ⟨cores', done, _, after⟩ := convertLoop_reads fields strCount
    (fun j => ((coreNumbers s)[j]?).getD 0) ufpdMaxCores 0 cores fun j _ high inside => by
      obtain ⟨v, here, field⟩ := each j (by omega) inside
      exact ⟨_, field, by rw [here]; exact scanfU_asInt (coreNumbers_bounds (List.mem_of_getElem? here))⟩
  refine ⟨cores', done, fun j high inside => ?_⟩
  obtain ⟨v, here, _⟩ := each j high inside
  rw [after j (Nat.zero_le j) (by omega) inside, here, Option.getD_some]

/-- An argument without a number is refused: its text is one empty field. -/
theorem coresOption_empty (read : ∀ item ∈ items s, Read item) (empty : coreNumbers s = []) :
    coresOption s ufpd argbuf = .error .failed := by
  have text : (commas (printed s)).take (ufpdMaxArglen - 1) = [] := by
    rw [printed, empty]
    rfl
  rw [coresOption_eq ufpd argbuf read text rfl]
  rfl

/-- **A list of at most 16 numbers becomes the array of cores.** -/
theorem coresOption_short (read : ∀ item ∈ items s, Read item) (nonempty : coreNumbers s ≠ [])
    (short : (coreNumbers s).length ≤ ufpdMaxCores) :
    ∃ cores fields, coresOption s ufpd argbuf =
        .ok ({ ufpd with numThreads := (coreNumbers s).length, cores }, fields) ∧
      ∀ i < (coreNumbers s).length, cores i = (coreNumbers s)[i]? := by
  have limits : ufpdMaxCores = 16 ∧ ufpdMaxArglen = 1024 ∧ ufpdMaxArgs = 128 := ⟨rfl, rfl, rfl⟩
  have size : (printed s).length = (coreNumbers s).length := List.length_map _
  have printedSome : printed s ≠ [] := mt List.map_eq_nil_iff.1 nonempty
  have text : (commas (printed s)).take (ufpdMaxArglen - 1) = commas (printed s) := by
    apply List.take_of_length_le
    have := length_commas_le (length_printed_le s)
    omega
  have listed : Listed ufpdMaxArgs ((commas (printed s)).splitOn ',') := by
    rw [splitOn_commas printedSome]
    refine ⟨by rw [List.length_map]; omega, fun field member => ?_⟩
    obtain ⟨v, inside, rfl⟩ := List.mem_map.1 member
    have := length_printed_le s v inside
    omega
  obtain ⟨total, fields⟩ := parseList_listed listed argbuf
  rw [splitOn_commas printedSome, List.length_map, size] at total fields
  have count : asUnsigned ((coreNumbers s).length : Int) = (coreNumbers s).length := by
    rw [asUnsigned]
    omega
  obtain ⟨cores, done, written⟩ := convertList_printed s
    (parseList (commas (printed s)) argbuf ufpdMaxArglen ufpdMaxArgs).2 (coreNumbers s).length ufpd.cores fun j _ inside => by
      have here := List.getElem?_eq_getElem (Int.ofNat_lt.1 inside)
      refine ⟨_, here, ?_⟩
      rw [fields j (Int.ofNat_lt.1 inside), printed, List.getElem?_map, List.getElem?_map, here]
      rfl
  refine ⟨cores, (parseList (commas (printed s)) argbuf ufpdMaxArglen ufpdMaxArgs).2, ?_,
    fun i inside => written i (by omega) (Int.ofNat_lt.2 inside)⟩
  rw [coresOption_eq ufpd argbuf read text rfl, total, count, asInt_small (by omega), done]
  rfl

/-- The text of a longer list has the first numbers in its first fields, wherever it
is cut off, and something after them. -/
theorem splitOn_printed (long : ufpdMaxCores < (coreNumbers s).length) :
    ∃ others, others ≠ [] ∧ ((commas (printed s)).take (ufpdMaxArglen - 1)).splitOn ',' =
      ((printed s).take ufpdMaxCores).map decimal ++ others := by
  have limits : ufpdMaxCores = 16 ∧ ufpdMaxArglen = 1024 := ⟨rfl, rfl⟩
  have size : (printed s).length = (coreNumbers s).length := List.length_map _
  have firstLength : ((printed s).take ufpdMaxCores).length = ufpdMaxCores := by
    rw [List.length_take]
    omega
  have firstSome : (printed s).take ufpdMaxCores ≠ [] := by
    rw [← List.length_pos_iff, firstLength]
    decide
  have restSome : (printed s).drop ufpdMaxCores ≠ [] := by
    rw [Ne, List.drop_eq_nil_iff]
    omega
  have short : ∀ v ∈ (printed s).take ufpdMaxCores, (decimal v).length ≤ 11 := fun v member =>
    length_printed_le s v (List.mem_of_mem_take member)
  have kept : (commas ((printed s).take ufpdMaxCores)).length < ufpdMaxArglen - 1 := by
    have := length_commas_le short
    omega
  have fields := splitOn_take_commas firstSome restSome kept
  rwa [List.take_append_drop] at fields

/-- A longer list is accepted all the same, with a count past the end of the array:
the number of fields in what is left of the text, or the -1 for more fields than
there are buffers. -/
theorem coresOption_long (read : ∀ item ∈ items s, Read item) (long : ufpdMaxCores < (coreNumbers s).length) :
    ∃ count cores fields, coresOption s ufpd argbuf = .ok ({ ufpd with numThreads := count, cores }, fields) ∧
      ufpdMaxCores < count := by
  have limits : ufpdMaxCores = 16 ∧ ufpdMaxArgs = 128 := ⟨rfl, rfl⟩
  have size : (printed s).length = (coreNumbers s).length := List.length_map _
  obtain ⟨others, othersSome, split⟩ := splitOn_printed long
  generalize textEq : (commas (printed s)).take (ufpdMaxArglen - 1) = text at split
  by_cases listed : Listed ufpdMaxArgs (text.splitOn ',')
  · obtain ⟨total, fields⟩ := parseList_listed listed argbuf
    have bound := listed.1
    have more := List.length_pos_iff.2 othersSome
    have count : (text.splitOn ',').length = ufpdMaxCores + others.length := by
      rw [split, List.length_append, List.length_map, List.length_take]
      omega
    rw [count] at total fields bound
    obtain ⟨cores, done, _⟩ := convertList_printed s (parseList text argbuf ufpdMaxArglen ufpdMaxArgs).2
      (ufpdMaxCores + others.length : Nat) ufpd.cores fun j low _ => by
        have here := List.getElem?_eq_getElem (Nat.lt_trans low long)
        refine ⟨_, here, ?_⟩
        rw [fields j (by omega), split, List.getElem?_append_left (by rw [List.length_map, List.length_take]; omega),
          List.getElem?_map, List.getElem?_take_of_lt low, printed, List.getElem?_map, here]
        rfl
    refine ⟨(ufpdMaxCores + others.length : Nat), cores, (parseList text argbuf ufpdMaxArglen ufpdMaxArgs).2,
      ?_, by omega⟩
    have same : asUnsigned ((ufpdMaxCores + others.length : Nat) : Int) = (ufpdMaxCores + others.length : Nat) := by
      rw [asUnsigned]
      omega
    rw [coresOption_eq ufpd argbuf read textEq rfl, total, same, asInt_small (by omega), done]
    rfl
  · have total := parseList_refused listed argbuf
    refine ⟨2 ^ 32 - 1, ufpd.cores, (parseList text argbuf ufpdMaxArglen ufpdMaxArgs).2, ?_, by decide⟩
    rw [coresOption_eq ufpd argbuf read textEq rfl, total]
    rfl

/-! ## A list of numbers and ranges -/

/-- An item of a list of cores as a user means it. -/
inductive CoreItem where
  | one (num : Nat) (small : num < 2 ^ 31 - 1)
  | range (first last : Nat) (ordered : first ≤ last) (small : last < 2 ^ 31 - 1)

namespace CoreItem

/-- The decimal numbers in an item. -/
def pieces : CoreItem → List (List Char)
  | one num _ => [Nat.toDigits 10 num]
  | range first last _ _ => [Nat.toDigits 10 first, Nat.toDigits 10 last]

def text (item : CoreItem) : List Char := ['-'].intercalate item.pieces

/-- The numbers of an item, in order. -/
def numbers : CoreItem → List Nat
  | one num _ => [num]
  | range first last _ _ => List.range' first (last + 1 - first)

end CoreItem

def coreListText (list : List CoreItem) : List Char := [','].intercalate (list.map CoreItem.text)

def coreListNumbers (list : List CoreItem) : List Nat := list.flatMap CoreItem.numbers

theorem toDigits_eq_decimal (num : Nat) : Nat.toDigits 10 num = decimal num := by
  rw [decimal, if_neg (by omega), Int.natAbs_natCast]

theorem scanfU_toDigits {num : Nat} (small : num < 2 ^ 31 - 1) : readPiece (Nat.toDigits 10 num) = some (num : Int) := by
  have digits := (Nat.length_toDigits_le_iff (n := num) (b := 10) (k := 10) (by decide) (by decide)).2 (by omega)
  rw [readPiece, if_pos (digits.trans (by decide)), toDigits_eq_decimal, scanfU_decimal (by omega) (by omega), asUnsigned]
  exact congrArg some (by omega)

/-- A character other than a digit is not in the number. -/
theorem not_mem_toDigits {c : Char} (other : c.isDigit = false) (num : Nat) : c ∉ Nat.toDigits 10 num := by
  intro member
  rw [Nat.isDigit_of_mem_toDigits (by decide) (by decide) member] at other
  cases other

theorem CoreItem.mem_pieces (item : CoreItem) : ∀ piece ∈ item.pieces, ∃ num, piece = Nat.toDigits 10 num := by
  cases item with
  | one num small => simp [pieces]
  | range first last ordered small => simp [pieces]

theorem CoreItem.splitOn_text (item : CoreItem) : item.text.splitOn '-' = item.pieces := by
  apply List.splitOn_intercalate
  · intro piece member
    obtain ⟨num, rfl⟩ := item.mem_pieces piece member
    exact not_mem_toDigits (by decide) num
  · cases item <;> exact List.cons_ne_nil _ _

theorem CoreItem.comma_not_mem_text (item : CoreItem) : ',' ∉ item.text := by
  cases item with
  | one num small =>
      rw [text, pieces, List.intercalate_singleton]
      exact not_mem_toDigits (by decide) num
  | range first last ordered small =>
      rw [text, pieces, List.intercalate_cons_cons, List.intercalate_singleton, List.mem_append, List.mem_append,
        not_or, not_or]
      exact ⟨⟨not_mem_toDigits (by decide) first, by decide⟩, not_mem_toDigits (by decide) last⟩

theorem items_coreListText {list : List CoreItem} (nonempty : list ≠ []) :
    items (coreListText list) = list.map CoreItem.pieces := by
  have fields : (coreListText list).splitOn ',' = list.map CoreItem.text := by
    apply List.splitOn_intercalate
    · intro field member
      obtain ⟨item, _, rfl⟩ := List.mem_map.1 member
      exact item.comma_not_mem_text
    · exact mt List.map_eq_nil_iff.1 nonempty
  rw [items, fields, List.map_map]
  exact List.map_congr_left fun item _ => item.splitOn_text

theorem CoreItem.read (item : CoreItem) :
    ∃ lo hi, readItem none item.pieces = some (lo, hi) ∧ Ends lo hi ∧ upTo lo hi = item.numbers.map (↑) := by
  cases item with
  | one num small =>
      refine ⟨num, num, ?_, .inr (.inl (by omega)), upTo_self _⟩
      rw [pieces, readItem, scanfU_toDigits small]
      rfl
  | range first last ordered small =>
      refine ⟨first, last, ?_, .inr (.inl (by omega)), ?_⟩
      · rw [pieces, readItem, scanfU_toDigits (by omega), Option.bind_some, readItem, scanfU_toDigits small]
        rfl
      · rw [numbers, List.range'_eq_map_range, List.map_map, upTo, Int.range]
        have size : ((last : Int) + 1 - first).toNat = last + 1 - first := by omega
        rw [size]
        exact List.map_congr_left fun k _ => by simp

theorem coreNumbers_coreListText {list : List CoreItem} (nonempty : list ≠ []) :
    (∀ item ∈ items (coreListText list), Read item) ∧
      coreNumbers (coreListText list) = (coreListNumbers list).map (↑) := by
  rw [coreNumbers, items_coreListText nonempty]
  constructor
  · intro pieces member
    obtain ⟨item, _, rfl⟩ := List.mem_map.1 member
    obtain ⟨lo, hi, read, ends, _⟩ := item.read
    exact ⟨lo, hi, read, ends⟩
  · clear nonempty
    induction list with
    | nil => rfl
    | cons item list ih =>
        obtain ⟨lo, hi, read, _, numbers⟩ := item.read
        rw [List.map_cons, List.filterMap_cons_some read, List.flatMap_cons, ih, numbers, coreListNumbers,
          coreListNumbers, List.flatMap_cons, List.map_append]

theorem CoreItem.numbers_ne_nil (item : CoreItem) : item.numbers ≠ [] := by
  cases item with
  | one num small => exact List.cons_ne_nil _ _
  | range first last ordered small =>
      rw [numbers, Ne, List.range'_eq_nil_iff]
      omega

/-- **A list of cores comes out as it went in**: for every list of numbers and ranges
that stands for at most 16 numbers, `num_threads` is how many there are, and `cores`
holds them in order. -/
theorem coresOption_complete (list : List CoreItem) (nonempty : list ≠ [])
    (short : (coreListNumbers list).length ≤ ufpdMaxCores) (ufpd : Ufpd) (argbuf : Nat → Option (List Char)) :
    ∃ ufpd' argbuf', coresOption (coreListText list) ufpd argbuf = .ok (ufpd', argbuf') ∧
      ufpd'.numThreads = (coreListNumbers list).length ∧
      ∀ i (inside : i < (coreListNumbers list).length), ufpd'.cores i = some ((coreListNumbers list)[i] : Int) := by
  obtain ⟨read, numbers⟩ := coreNumbers_coreListText nonempty
  have length : (coreNumbers (coreListText list)).length = (coreListNumbers list).length := by
    rw [numbers, List.length_map]
  have numbersSome : coreNumbers (coreListText list) ≠ [] := by
    obtain ⟨item, list, rfl⟩ := List.exists_cons_of_ne_nil nonempty
    rw [numbers, coreListNumbers, List.flatMap_cons, List.map_append]
    exact List.append_ne_nil_of_left_ne_nil (mt List.map_eq_nil_iff.1 item.numbers_ne_nil) _
  obtain ⟨cores, fields, done, written⟩ := coresOption_short ufpd argbuf read numbersSome (length ▸ short)
  refine ⟨_, _, done, congrArg Nat.cast length, fun i inside => ?_⟩
  have here := written i (length ▸ inside)
  rwa [numbers, List.getElem?_map, List.getElem?_eq_getElem inside] at here

/-- The list of the manual, `1-4,8,11-13`. -/
def sampleCores : List CoreItem :=
  [.range 1 4 (by decide) (by decide), .one 8 (by decide), .range 11 13 (by decide) (by decide)]

theorem coresOption_complete_sample :
    coreListText sampleCores = "1-4,8,11-13".toList ∧ coreListNumbers sampleCores = [1, 2, 3, 4, 8, 11, 12, 13] ∧
    ∃ ufpd' argbuf', coresOption (coreListText sampleCores) ufpdDefaults (fun _ => none) = .ok (ufpd', argbuf') ∧
      ufpd'.numThreads = (coreListNumbers sampleCores).length ∧
      ∀ i (inside : i < (coreListNumbers sampleCores).length),
        ufpd'.cores i = some ((coreListNumbers sampleCores)[i] : Int) :=
  ⟨by decide +kernel, by decide, coresOption_complete sampleCores (by decide) (by decide) ufpdDefaults fun _ => none⟩

/-! ## The counts -/

/-- The cores and the devices are counted within their arrays, and what is counted
was written. -/
structure InBounds (ufpd : Ufpd) : Prop where
  threads : 1 ≤ ufpd.numThreads ∧ ufpd.numThreads ≤ ufpdMaxCores
  cores : ∀ i : Nat, (i : Int) < ufpd.numThreads → (ufpd.cores i).isSome = true
  devices : 1 ≤ ufpd.numDevices ∧ ufpd.numDevices ≤ ufpdMaxIfs
  ifnames : ∀ i : Nat, (i : Int) < ufpd.numDevices → (ufpd.ifnames i).isSome = true

/-- What `ufpd_parse_args` may do: it returns -1, or 0 with counts within their arrays. -/
def Bounded : Except Stop Ufpd → Prop
  | .ok ufpd => InBounds ufpd
  | .error .failed => True
  | .error .undefined => False

/-- An option after which the loop goes on to the next: the arguments of `-n`, `-m` and
`-b` are numbers, and that of `-c` can be read and stands for some number. -/
def Taken : Opt → Prop
  | .arg 'c' s => (∀ item ∈ items s, Read item) ∧ coreNumbers s ≠ []
  | .arg 'p' _ => True
  | .arg 'n' s => (scanfU s).isSome = true
  | .arg 'm' s => (scanfU s).isSome = true
  | .arg 'b' s => (scanfU s).isSome = true
  | .flag 'a' => True
  | _ => False

/-- An option in whose argument there is a range that the counter of `ufpd_parse_range`
overflows on, before anything that is refused. -/
def Overflows : Opt → Prop
  | .arg 'c' s => (¬ ∀ item ∈ items s, Read item) ∧ ¬ Refused (items s)
  | _ => False

/-- The loop over the options comes to one that overflows. -/
def Overrun (opts : List Opt) : Prop :=
  ∃ before opt after, opts = before ++ opt :: after ∧ (∀ other ∈ before, Taken other) ∧ Overflows opt

/-- The argument of the last option `c`; `before` is that of an earlier one. -/
def lastArg (c : Char) (before : Option (List Char)) : List Opt → Option (List Char)
  | [] => before
  | .arg d s :: opts => lastArg c (if d = c then some s else before) opts
  | _ :: opts => lastArg c before opts

/-- What the last `-c` left. -/
def ThreadsOf (ufpd : Ufpd) : Option (List Char) → Prop
  | none => ufpd.numThreads = 0
  | some s => 0 < ufpd.numThreads ∧ (ufpd.numThreads ≤ ufpdMaxCores ↔ (coreNumbers s).length ≤ ufpdMaxCores) ∧
      (ufpd.numThreads ≤ ufpdMaxCores → ∀ i : Nat, (i : Int) < ufpd.numThreads → (ufpd.cores i).isSome = true)

/-- What the last `-p` left. -/
def DevicesOf (ufpd : Ufpd) : Option (List Char) → Prop
  | none => ufpd.numDevices = 0
  | some s => 0 < ufpd.numDevices ∧ (ufpd.numDevices ≤ ufpdMaxIfs ↔ Listed ufpdMaxIfs (s.splitOn ',')) ∧
      (ufpd.numDevices ≤ ufpdMaxIfs → ∀ i : Nat, (i : Int) < ufpd.numDevices → (ufpd.ifnames i).isSome = true)

theorem coresOption_taken (read : ∀ item ∈ items s, Read item) (nonempty : coreNumbers s ≠ []) :
    ∃ numThreads cores fields, coresOption s ufpd argbuf = .ok ({ ufpd with numThreads, cores }, fields) ∧
      ThreadsOf { ufpd with numThreads, cores } (some s) := by
  by_cases short : (coreNumbers s).length ≤ ufpdMaxCores
  · obtain ⟨cores, fields, done, written⟩ := coresOption_short ufpd argbuf read nonempty short
    have positive := List.length_pos_iff.2 nonempty
    refine ⟨_, cores, fields, done, Int.ofNat_lt.2 positive, by simp, fun _ i inside => ?_⟩
    have inside := Int.ofNat_lt.1 inside
    show (cores i).isSome = true
    rw [written i inside, List.getElem?_eq_getElem inside]
    rfl
  · obtain ⟨count, cores, fields, done, past⟩ := coresOption_long ufpd argbuf read (by omega)
    have limit : ufpdMaxCores = 16 := rfl
    refine ⟨count, cores, fields, done, ?_, ?_, ?_⟩
    · show 0 < count
      omega
    · show count ≤ _ ↔ _
      omega
    · intro few
      have few : count ≤ ufpdMaxCores := few
      omega

theorem devicesOption_taken (s : List Char) :
    ∃ numDevices ifnames, devicesOption s ufpd = .ok { ufpd with numDevices, ifnames } ∧
      DevicesOf { ufpd with numDevices, ifnames } (some s) := by
  have limit : ufpdMaxIfs = 64 := rfl
  have natural : ¬ asUnsigned (parseList s ufpd.ifnames ufpdMaxArglen ufpdMaxIfs).1 < 0 := by
    rw [asUnsigned]
    omega
  refine ⟨asUnsigned (parseList s ufpd.ifnames ufpdMaxArglen ufpdMaxIfs).1,
    (parseList s ufpd.ifnames ufpdMaxArglen ufpdMaxIfs).2, if_neg natural, ?_⟩
  by_cases listed : Listed ufpdMaxIfs (s.splitOn ',')
  · obtain ⟨total, fields⟩ := parseList_listed listed ufpd.ifnames
    have positive := List.length_pos_iff.2 (List.splitOn_ne_nil ',' s)
    have bound := listed.1
    have count : asUnsigned ((s.splitOn ',').length : Int) = (s.splitOn ',').length := by
      rw [asUnsigned]
      omega
    simp only [DevicesOf, total, count]
    refine ⟨by omega, iff_of_true (by omega) listed, fun _ i inside => ?_⟩
    rw [fields i (Int.ofNat_lt.1 inside), List.getElem?_eq_getElem (Int.ofNat_lt.1 inside)]
    rfl
  · have total := parseList_refused listed ufpd.ifnames
    simp only [DevicesOf, total]
    exact ⟨by decide, iff_of_false (by decide) listed, fun few => absurd few (by decide)⟩

theorem numberOption_taken {s : List Char} (number : (scanfU s).isSome = true) (set : Int → Ufpd) :
    ∃ num, numberOption s set = .ok (set num) := by
  obtain ⟨num, read⟩ := Option.isSome_iff_exists.1 number
  exact ⟨num, by rw [numberOption, read]⟩

/-- One option: the counts are what the last `-c` and the last `-p` left. -/
theorem parseOpt_taken (taken : Taken opt) {cores devices : Option (List Char)} (threads : ThreadsOf ufpd cores)
    (ports : DevicesOf ufpd devices) :
    ∃ ufpd' argbuf', parseOpt ufpd argbuf opt = .ok (ufpd', argbuf') ∧
      ThreadsOf ufpd' (lastArg 'c' cores [opt]) ∧ DevicesOf ufpd' (lastArg 'p' devices [opt]) := by
  unfold Taken at taken
  split at taken
  · obtain ⟨numThreads, cores, fields, done, left⟩ := coresOption_taken ufpd argbuf taken.1 taken.2
    exact ⟨_, _, done, left, ports⟩
  · rename_i s
    obtain ⟨numDevices, ifnames, done, left⟩ := devicesOption_taken ufpd s
    exact ⟨_, argbuf, congrArg (Except.map (·, argbuf)) done, threads, left⟩
  · obtain ⟨num, done⟩ := numberOption_taken taken fun numaNode => { ufpd with numaNode }
    exact ⟨_, argbuf, congrArg (Except.map (·, argbuf)) done, threads, ports⟩
  · obtain ⟨num, done⟩ := numberOption_taken taken fun mtuFrame => { ufpd with mtuFrame }
    exact ⟨_, argbuf, congrArg (Except.map (·, argbuf)) done, threads, ports⟩
  · obtain ⟨num, done⟩ := numberOption_taken taken fun bufCount => { ufpd with bufCount }
    exact ⟨_, argbuf, congrArg (Except.map (·, argbuf)) done, threads, ports⟩
  · exact ⟨_, _, rfl, threads, ports⟩
  · exact taken.elim

theorem numberOption_refused {s : List Char} (letters : ¬ (scanfU s).isSome = true) (set : Int → Ufpd) :
    (numberOption s set).map (·, argbuf) = .error .failed := by
  rw [Option.isSome_iff_ne_none, not_not] at letters
  rw [numberOption, letters]
  rfl

theorem parseOpt_overflows (overflows : Overflows opt) : parseOpt ufpd argbuf opt = .error .undefined := by
  unfold Overflows at overflows
  split at overflows
  · exact coresOption_undefined ufpd argbuf overflows.1 overflows.2
  · exact overflows.elim

/-- Any other option ends the program. -/
theorem parseOpt_refused (refused : ¬ Taken opt) (defined : ¬ Overflows opt) :
    parseOpt ufpd argbuf opt = .error .failed := by
  unfold Taken at refused
  split at refused
  · rename_i s
    by_cases read : ∀ item ∈ items s, Read item
    · exact coresOption_empty ufpd argbuf read (by_contra fun nonempty => refused ⟨read, nonempty⟩)
    · exact coresOption_refused ufpd argbuf (by_contra fun taken => defined ⟨read, taken⟩)
  · exact absurd trivial refused
  · exact numberOption_refused argbuf refused _
  · exact numberOption_refused argbuf refused _
  · exact numberOption_refused argbuf refused _
  · exact absurd trivial refused
  · rename_i notC notP notN notM notB notA
    unfold parseOpt
    split
    · exact (notC _ rfl).elim
    · exact (notP _ rfl).elim
    · exact (notN _ rfl).elim
    · exact (notM _ rfl).elim
    · exact (notB _ rfl).elim
    · exact (notA rfl).elim
    · rfl

theorem taken_defined (taken : Taken opt) : ¬ Overflows opt := by
  intro overflows
  unfold Overflows at overflows
  split at overflows
  · exact overflows.1 taken.1
  · exact overflows

theorem lastArg_cons (c : Char) (before : Option (List Char)) (opt : Opt) (opts : List Opt) :
    lastArg c before (opt :: opts) = lastArg c (lastArg c before [opt]) opts := by
  cases opt <;> rfl

theorem parseOpts_cons {ufpd ufpd' : Ufpd} {argbuf argbuf' : Nat → Option (List Char)}
    (first : parseOpt ufpd argbuf opt = .ok (ufpd', argbuf')) (opts : List Opt) :
    parseOpts ufpd argbuf (opt :: opts) = parseOpts ufpd' argbuf' opts := by
  rw [parseOpts, first]
  rfl

theorem parseOpts_taken (taken : ∀ opt ∈ opts, Taken opt) {cores devices : Option (List Char)}
    (threads : ThreadsOf ufpd cores) (ports : DevicesOf ufpd devices) :
    ∃ ufpd', parseOpts ufpd argbuf opts = .ok ufpd' ∧
      ThreadsOf ufpd' (lastArg 'c' cores opts) ∧ DevicesOf ufpd' (lastArg 'p' devices opts) := by
  induction opts generalizing ufpd argbuf cores devices with
  | nil => exact ⟨ufpd, rfl, threads, ports⟩
  | cons opt opts ih =>
      rw [List.forall_mem_cons] at taken
      obtain ⟨ufpd', argbuf', first, threads, ports⟩ := parseOpt_taken ufpd argbuf taken.1 threads ports
      obtain ⟨last, rest, threads, ports⟩ := ih ufpd' argbuf' taken.2 threads ports
      rw [lastArg_cons 'c', lastArg_cons 'p']
      exact ⟨last, (parseOpts_cons first opts).trans rest, threads, ports⟩

theorem overrun_cons : Overrun (opt :: opts) ↔ Overflows opt ∨ Taken opt ∧ Overrun opts := by
  constructor
  · rintro ⟨before, last, after, split, taken, overflows⟩
    cases before with
    | nil =>
        obtain ⟨rfl, -⟩ := List.cons.inj split
        exact .inl overflows
    | cons first before =>
        obtain ⟨rfl, rest⟩ := List.cons.inj split
        rw [List.forall_mem_cons] at taken
        exact .inr ⟨taken.1, before, last, after, rest, taken.2, overflows⟩
  · rintro (overflows | ⟨taken, before, last, after, rfl, earlier, overflows⟩)
    · exact ⟨[], opt, opts, rfl, List.forall_mem_nil _, overflows⟩
    · exact ⟨opt :: before, last, after, rfl, List.forall_mem_cons.2 ⟨taken, earlier⟩, overflows⟩

/-- One range is enough to overflow. -/
theorem overflows_of_range {item : List (List Char)} {lo hi : Int} (one : items str = [item])
    (range : readItem none item = some (lo, hi)) (endless : ¬ Ends lo hi) : Overflows (.arg 'c' str) := by
  constructor
  · rw [one, List.forall_mem_singleton]
    rintro ⟨first, last, same, ends⟩
    obtain ⟨rfl, rfl⟩ := Prod.mk.inj (Option.some.inj (range.symm.trans same))
    exact endless ends
  · rw [one]
    rintro ⟨before, other, after, split, unread, -⟩
    have same : other ∈ [item] := split ▸ List.mem_append_right _ List.mem_cons_self
    rw [List.mem_singleton.1 same, range] at unread
    cases unread

/-- Where the options are not all taken, the first that is not says how the loop ends. -/
theorem parseOpts_stops {opts : List Opt} (refused : ¬ ∀ opt ∈ opts, Taken opt) {cores devices : Option (List Char)}
    (threads : ThreadsOf ufpd cores) (ports : DevicesOf ufpd devices) :
    (Overrun opts → parseOpts ufpd argbuf opts = .error .undefined) ∧
      (¬ Overrun opts → parseOpts ufpd argbuf opts = .error .failed) := by
  induction opts generalizing ufpd argbuf cores devices with
  | nil => exact absurd (List.forall_mem_nil _) refused
  | cons opt opts ih =>
      rw [overrun_cons]
      by_cases taken : Taken opt
      · have later : ¬ ∀ other ∈ opts, Taken other := fun rest => refused (List.forall_mem_cons.2 ⟨taken, rest⟩)
        obtain ⟨ufpd', argbuf', first, threads, ports⟩ := parseOpt_taken ufpd argbuf taken threads ports
        obtain ⟨undefined, failed⟩ := ih ufpd' argbuf' later threads ports
        rw [parseOpts_cons first]
        exact ⟨fun overrun => undefined (overrun.resolve_left (taken_defined taken)).2,
          fun defined => failed fun overrun => defined (.inr ⟨taken, overrun⟩)⟩
      · rw [parseOpts]
        constructor
        · rintro (overflows | wrong)
          · rw [parseOpt_overflows ufpd argbuf overflows]
            rfl
          · exact absurd wrong.1 taken
        · intro defined
          rw [parseOpt_refused ufpd argbuf taken fun overflows => defined (.inl overflows)]
          rfl

theorem parseArgs_ok_iff {start ufpd : Ufpd} :
    parseArgs granted posixlyCorrect start argv = .ok ufpd ↔ (List.range ufpdMaxArgs).all granted = true ∧
      parseOpts start (fun _ => none) (getopt posixlyCorrect [] argv.tail) = .ok ufpd ∧
      ufpd.numDevices ≠ 0 ∧ ufpd.numThreads ≠ 0 := by
  rw [parseArgs]
  split
  · rename_i all
    rw [and_iff_right all]
    cases parseOpts start (fun _ => none) (getopt posixlyCorrect [] argv.tail) with
    | error stop => exact iff_of_false (fun wrong => by cases wrong) (fun wrong => by cases wrong.1)
    | ok left =>
        show (if _ then _ else _) = _ ↔ _
        rw [Except.ok.injEq]
        constructor
        · intro done
          split at done
          · cases done
          split at done
          · cases done
          cases done
          exact ⟨rfl, ‹_›, ‹_›⟩
        · rintro ⟨rfl, devices, threads⟩
          rw [if_neg devices, if_neg threads]
  · rename_i short
    exact iff_of_false (fun wrong => by cases wrong) fun wrong => short wrong.1

theorem parseArgs_undefined_iff {start : Ufpd} :
    parseArgs granted posixlyCorrect start argv = .error .undefined ↔ (List.range ufpdMaxArgs).all granted = true ∧
      parseOpts start (fun _ => none) (getopt posixlyCorrect [] argv.tail) = .error .undefined := by
  rw [parseArgs]
  split
  · rename_i all
    rw [and_iff_right all]
    cases parseOpts start (fun _ => none) (getopt posixlyCorrect [] argv.tail) with
    | error stop => exact Iff.rfl
    | ok left =>
        refine iff_of_false ?_ (fun wrong => by cases wrong)
        show ¬ (if _ then _ else _) = _
        split
        · exact fun wrong => by cases wrong
        split <;> exact fun wrong => by cases wrong
  · rename_i short
    exact iff_of_false (fun wrong => by cases wrong) fun wrong => short wrong.1

/-- What the counts are when the options are taken. -/
theorem parseOpts_defaults (taken : ∀ opt ∈ opts, Taken opt) :
    ∃ ufpd, parseOpts ufpdDefaults (fun _ => none) opts = .ok ufpd ∧
      ThreadsOf ufpd (lastArg 'c' none opts) ∧ DevicesOf ufpd (lastArg 'p' none opts) :=
  parseOpts_taken ufpdDefaults (fun _ => none) taken rfl rfl

theorem parseOpts_defaults_stops (refused : ¬ ∀ opt ∈ opts, Taken opt) :
    (Overrun opts → parseOpts ufpdDefaults (fun _ => none) opts = .error .undefined) ∧
      (¬ Overrun opts → parseOpts ufpdDefaults (fun _ => none) opts = .error .failed) :=
  @parseOpts_stops ufpdDefaults (fun _ => none) opts refused none none rfl rfl

theorem overrun_not_taken (overrun : Overrun opts) : ¬ ∀ opt ∈ opts, Taken opt := by
  obtain ⟨before, opt, after, rfl, -, overflows⟩ := overrun
  exact fun taken => taken_defined (taken opt (List.mem_append_right _ List.mem_cons_self)) overflows

/-- The loop comes to an overflow exactly where it does. -/
theorem parseOpts_undefined_iff : parseOpts ufpdDefaults (fun _ => none) opts = .error .undefined ↔ Overrun opts := by
  refine ⟨fun undefined => ?_, fun overrun => (parseOpts_defaults_stops (overrun_not_taken overrun)).1 overrun⟩
  by_contra defined
  by_cases taken : ∀ opt ∈ opts, Taken opt
  · obtain ⟨ufpd, done, -⟩ := parseOpts_defaults taken
    rw [undefined] at done
    cases done
  · have failed := (parseOpts_defaults_stops taken).2 defined
    rw [undefined] at failed
    cases failed

/-- Options that are accepted were all taken, and the counts are what the last `-c` and
the last `-p` left. -/
theorem parseArgs_accepted {ufpd : Ufpd} (accepted : parseArgs granted posixlyCorrect ufpdDefaults argv = .ok ufpd) :
    (List.range ufpdMaxArgs).all granted = true ∧ (∀ opt ∈ getopt posixlyCorrect [] argv.tail, Taken opt) ∧
      ∃ cores devices, lastArg 'c' none (getopt posixlyCorrect [] argv.tail) = some cores ∧
        lastArg 'p' none (getopt posixlyCorrect [] argv.tail) = some devices ∧
        ThreadsOf ufpd (some cores) ∧ DevicesOf ufpd (some devices) := by
  obtain ⟨all, done, someDevice, someThread⟩ := parseArgs_ok_iff.1 accepted
  have taken : ∀ opt ∈ getopt posixlyCorrect [] argv.tail, Taken opt := by
    by_contra refused
    obtain ⟨undefined, failed⟩ := parseOpts_defaults_stops refused
    by_cases overrun : Overrun (getopt posixlyCorrect [] argv.tail)
    · rw [undefined overrun] at done
      cases done
    · rw [failed overrun] at done
      cases done
  obtain ⟨left, same, threads, ports⟩ := parseOpts_defaults taken
  obtain rfl : ufpd = left := Except.ok.inj (done.symm.trans same)
  refine ⟨all, taken, ?_⟩
  cases coresIs : lastArg 'c' none (getopt posixlyCorrect [] argv.tail) with
  | none =>
      rw [coresIs] at threads
      exact absurd threads someThread
  | some cores =>
      cases devicesIs : lastArg 'p' none (getopt posixlyCorrect [] argv.tail) with
      | none =>
          rw [devicesIs] at ports
          exact absurd ports someDevice
      | some devices =>
          rw [coresIs] at threads
          rw [devicesIs] at ports
          exact ⟨cores, devices, rfl, rfl, threads, ports⟩

/-- **Accepted options are in bounds, unless a list is too long or a range overflows**:
whatever the arguments are, `ufpd_parse_args` returns -1, or returns 0 with counts that
are within their arrays and that count only what was written, exactly when it comes to no
range that its counter overflows on, and a vector with nothing wrong in it has at most 16
cores in its last `-c` and at most 64 names of at most 1023 characters in its last `-p`. -/
theorem parseArgs_bounds_iff (granted : Nat → Bool) (posixlyCorrect : Bool) (argv : List (List Char)) :
    Bounded (parseArgs granted posixlyCorrect ufpdDefaults argv) ↔
    ((List.range ufpdMaxArgs).all granted = true → ¬ Overrun (getopt posixlyCorrect [] argv.tail) ∧
      ((∀ opt ∈ getopt posixlyCorrect [] argv.tail, Taken opt) →
        ∀ cores devices, lastArg 'c' none (getopt posixlyCorrect [] argv.tail) = some cores →
          lastArg 'p' none (getopt posixlyCorrect [] argv.tail) = some devices →
          (coreNumbers cores).length ≤ ufpdMaxCores ∧ Listed ufpdMaxIfs (devices.splitOn ','))) := by
  constructor
  · intro good all
    constructor
    · intro overrun
      rw [parseArgs_undefined_iff.2 ⟨all, parseOpts_undefined_iff.2 overrun⟩] at good
      exact good
    · intro taken cores devices coresIs devicesIs
      obtain ⟨ufpd, done, threads, ports⟩ := parseOpts_defaults taken
      rw [coresIs] at threads
      rw [devicesIs] at ports
      rw [parseArgs_ok_iff.2 ⟨all, done, Int.ne_of_gt ports.1, Int.ne_of_gt threads.1⟩] at good
      exact ⟨threads.2.1.1 good.threads.2, ports.2.1.1 good.devices.2⟩
  · intro short
    cases result : parseArgs granted posixlyCorrect ufpdDefaults argv with
    | error stop =>
        cases stop with
        | failed => trivial
        | undefined =>
            obtain ⟨all, undefined⟩ := parseArgs_undefined_iff.1 result
            exact (short all).1 (parseOpts_undefined_iff.1 undefined)
    | ok ufpd =>
        obtain ⟨all, taken, cores, devices, coresIs, devicesIs, threads, ports⟩ := parseArgs_accepted result
        obtain ⟨fewCores, fewDevices⟩ := (short all).2 taken cores devices coresIs devicesIs
        have threadsFit := threads.2.1.2 fewCores
        have devicesFit := ports.2.1.2 fewDevices
        exact { threads := ⟨threads.1, threadsFit⟩, cores := threads.2.2 threadsFit
                devices := ⟨ports.1, devicesFit⟩, ifnames := ports.2.2 devicesFit }

/-- `ufp -c cores -p 0000:04:00.0`. -/
def sampleArgv (cores : List Char) : List (List Char) :=
  ["ufp".toList, "-c".toList, cores, "-p".toList, "0000:04:00.0".toList]

theorem getopt_sampleArgv (cores : List Char) :
    getopt false [] (sampleArgv cores).tail = [.arg 'c' cores, .arg 'p' "0000:04:00.0".toList] := by
  simp [sampleArgv, getopt, takesArg]

/-- Two items are read, and one device named. -/
theorem parseArgs_bounds_iff_sample :
    Bounded (parseArgs (fun _ => true) false ufpdDefaults (sampleArgv "1-4,8".toList)) := by
  refine (parseArgs_bounds_iff (fun _ => true) false (sampleArgv "1-4,8".toList)).2 fun _ => ?_
  have split : items "1-4,8".toList = [["1".toList, "4".toList], ["8".toList]] := by decide +kernel
  have read : ∀ item ∈ items "1-4,8".toList, Read item := by
    rw [split, List.forall_mem_cons, List.forall_mem_singleton]
    exact ⟨⟨1, 4, by decide +kernel, .inr (.inl (by decide))⟩, ⟨8, 8, by decide +kernel, .inr (.inl (by decide))⟩⟩
  rw [getopt_sampleArgv]
  constructor
  · intro overrun
    refine overrun_not_taken overrun (List.forall_mem_cons.2 ⟨⟨read, by decide +kernel⟩, ?_⟩)
    rw [List.forall_mem_singleton]
    trivial
  · intro _ cores devices coresIs devicesIs
    obtain rfl : "1-4,8".toList = cores := Option.some.inj coresIs
    obtain rfl : "0000:04:00.0".toList = devices := Option.some.inj devicesIs
    exact ⟨by decide +kernel, by decide +kernel, by decide +kernel⟩

/-- Seventeen cores are accepted, and the array has room for sixteen; and the counter of
a range that ends at the largest int overflows. -/
theorem parseArgs_too_many_cores :
    ¬ Bounded (parseArgs (fun _ => true) false ufpdDefaults (sampleArgv "0-16".toList)) ∧
    ¬ Bounded (parseArgs (fun _ => true) false ufpdDefaults (sampleArgv "2147483600-2147483647".toList)) := by
  constructor
  · have cores : coreNumbers "0-16".toList = upTo 0 16 := by decide +kernel
    have read : ∀ item ∈ items "0-16".toList, Read item := by
      have one : items "0-16".toList = [["0".toList, "16".toList]] := by decide +kernel
      rw [one, List.forall_mem_singleton]
      exact ⟨0, 16, by decide +kernel, .inr (.inl (by decide))⟩
    have taken : ∀ opt ∈ getopt false [] (sampleArgv "0-16".toList).tail, Taken opt := by
      rw [getopt_sampleArgv, List.forall_mem_cons, List.forall_mem_singleton]
      exact ⟨⟨read, by rw [cores]; decide⟩, trivial⟩
    obtain ⟨ufpd, done, threads, ports⟩ := parseOpts_defaults taken
    rw [getopt_sampleArgv] at threads ports
    rw [parseArgs_ok_iff.2 ⟨by decide, done, Int.ne_of_gt ports.1, Int.ne_of_gt threads.1⟩]
    intro bounds
    have few := threads.2.1.1 bounds.threads.2
    rw [cores] at few
    exact absurd few (by decide)
  · have one : items "2147483600-2147483647".toList = [["2147483600".toList, "2147483647".toList]] := by
      decide +kernel
    have range : readItem none ["2147483600".toList, "2147483647".toList] = some (2147483600, 2147483647) := by
      decide +kernel
    have overrun : Overrun (getopt false [] (sampleArgv "2147483600-2147483647".toList).tail) := by
      rw [getopt_sampleArgv, overrun_cons]
      exact .inl (overflows_of_range one range (by unfold Ends; omega))
    rw [parseArgs_undefined_iff.2 ⟨by decide, parseOpts_undefined_iff.2 overrun⟩]
    exact id

end Ufp.Daemon
