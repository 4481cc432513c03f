/-
# Ufp.Theory.Ring — a ring of cells read as a bounded queue

`n` cells, a head index and a tail index below `n`. The occupied window runs
from the head up to the tail, wrapping at `n`; one cell always stays empty, so
equal indices mean an empty window. `contents` reads the cells of the window in
order.

* `window_push` / `window_pop`: moving the tail appends the old tail's index,
  moving the head drops the old head's index;
* `contents_push` / `contents_pop`: the same for the values, so a ring is a
  first-in first-out queue of at most `n - 1` values;
* `Walk.ends_iff`: a loop that goes round the ring until it meets an index ends
  exactly if there is such an index.
-/
import Mathlib.Algebra.Order.Ring.Nat
import Mathlib.Data.List.Nodup
import Mathlib.Logic.Function.Basic

namespace Ufp.Theory.Ring

set_option autoImplicit false

universe u

variable {α : Type u} {n head tail : Nat}

/-- The index after `i`, wrapping at `n`. -/
def next (n i : Nat) : Nat := if i + 1 < n then i + 1 else 0

/-- The index `k` cells after `head`. -/
def index (n head k : Nat) : Nat := if head + k < n then head + k else head + k - n

/-- How many cells lie from `head` up to `tail`. -/
def occupied (n head tail : Nat) : Nat := if head ≤ tail then tail - head else n - head + tail

/-- The occupied indices, in order. -/
def window (n head tail : Nat) : List Nat := (List.range (occupied n head tail)).map (index n head)

/-- The occupied cells, in order. -/
def contents (cells : Nat → α) (n head tail : Nat) : List α := (window n head tail).map cells

theorem next_lt (positive : 0 < n) (i : Nat) : next n i < n := by
  unfold next
  split <;> omega

theorem next_eq_mod {i : Nat} (inside : i < n) : next n i = (i + 1) % n := by
  unfold next
  split
  case isTrue within => exact (Nat.mod_eq_of_lt within).symm
  case isFalse => rw [show i + 1 = n by omega, Nat.mod_self]

theorem occupied_lt (headLt : head < n) (tailLt : tail < n) : occupied n head tail < n := by
  unfold occupied
  split <;> omega

theorem occupied_self (n i : Nat) : occupied n i i = 0 := by simp [occupied]

theorem window_self (n i : Nat) : window n i i = [] := by simp [window, occupied_self]

theorem window_length (n head tail : Nat) : (window n head tail).length = occupied n head tail := by
  simp [window]

theorem contents_self (cells : Nat → α) (n i : Nat) : contents cells n i i = [] := by
  simp [contents, window_self]

theorem contents_length (cells : Nat → α) (n head tail : Nat) :
    (contents cells n head tail).length = occupied n head tail := by
  simp [contents, window_length]

theorem occupied_push (headLt : head < n) (tailLt : tail < n)
    (room : occupied n head tail + 1 < n) :
    occupied n head (next n tail) = occupied n head tail + 1 := by
  unfold occupied next at *
  split_ifs at * <;> omega

theorem index_occupied (headLt : head < n) (tailLt : tail < n) :
    index n head (occupied n head tail) = tail := by
  unfold index occupied
  split_ifs <;> omega

theorem window_push (headLt : head < n) (tailLt : tail < n)
    (room : occupied n head tail + 1 < n) :
    window n head (next n tail) = window n head tail ++ [tail] := by
  simp only [window, occupied_push headLt tailLt room, List.range_succ, List.map_append,
    List.map_cons, List.map_nil, index_occupied headLt tailLt]

theorem occupied_pop (headLt : head < n) (tailLt : tail < n) (some : head ≠ tail) :
    occupied n head tail = occupied n (next n head) tail + 1 := by
  unfold occupied next
  split_ifs <;> omega

theorem window_pop (headLt : head < n) (tailLt : tail < n) (some : head ≠ tail) :
    window n head tail = head :: window n (next n head) tail := by
  have bound := occupied_lt headLt tailLt
  rw [window, occupied_pop headLt tailLt some, List.range_succ_eq_map, List.map_cons, List.map_map]
  have first : index n head 0 = head := by simp [index, headLt]
  rw [first, window]
  congr 1
  apply List.map_congr_left
  intro k member
  have small := List.mem_range.mp member
  have shift := occupied_pop headLt tailLt some
  unfold index next
  simp only [Function.comp_apply, Nat.succ_eq_add_one]
  split_ifs <;> omega

/-- The cell the tail points at is empty. -/
theorem tail_notMem_window (headLt : head < n) (tailLt : tail < n) :
    tail ∉ window n head tail := by
  intro member
  obtain ⟨k, small, same⟩ := List.mem_map.mp member
  have := List.mem_range.mp small
  have := occupied_lt headLt tailLt
  unfold index occupied at *
  split_ifs at * <;> omega

theorem contents_push (headLt : head < n) (tailLt : tail < n)
    (room : occupied n head tail + 1 < n) (cells : Nat → α) (x : α) :
    contents (Function.update cells tail x) n head (next n tail) =
      contents cells n head tail ++ [x] := by
  rw [contents, window_push headLt tailLt room, List.map_append, List.map_cons, List.map_nil,
    Function.update_self]
  congr 1
  apply List.map_congr_left
  intro i member
  have ne : i ≠ tail := by
    rintro rfl
    exact tail_notMem_window headLt tailLt member
  exact Function.update_of_ne ne _ _

theorem contents_pop (headLt : head < n) (tailLt : tail < n) (some : head ≠ tail)
    (cells : Nat → α) :
    contents cells n head tail = cells head :: contents cells n (next n head) tail := by
  rw [contents, window_pop headLt tailLt some]
  rfl

/-! ## Loops that walk the ring -/

/-- A loop that moves an index of the ring on until it is `target`; `inv` is what the
turns keep. -/
structure Walk {σ : Type u} (turn : σ → σ → Prop) (pos : σ → Nat) (n target : Nat) (inv : σ → Prop) : Prop where
  moves : ∀ s t, inv s → turn s t → pos s ≠ target ∧ inv t ∧ pos t = next n (pos s)
  goes : ∀ s, inv s → pos s ≠ target → ∃ t, turn s t

/-- **A walk ends exactly if it looks for an index of the ring.** -/
theorem Walk.ends_iff {σ : Type u} {turn : σ → σ → Prop} {pos : σ → Nat} {target : Nat} {inv : σ → Prop}
    (walk : Walk turn pos n target inv) {s : σ} (start : inv s) (inside : pos s < n) :
    Acc (fun t s => turn s t) s ↔ target < n := by
  constructor
  · intro ends
    by_contra outside
    -- an index inside the ring is never the one outside, so there is always one more turn
    induction ends with
    | intro s _ ih =>
        obtain ⟨t, turns⟩ := walk.goes s start (by omega)
        obtain ⟨-, kept, moved⟩ := walk.moves s t start turns
        exact ih t turns kept (moved ▸ next_lt (by omega) _)
  · intro within
    generalize distance : occupied n (pos s) target = d
    induction d generalizing s with
    | zero =>
        refine Acc.intro s fun t turns => ?_
        obtain ⟨left, -⟩ := walk.moves s t start turns
        rw [occupied_pop inside within left] at distance
        omega
    | succ d ih =>
        refine Acc.intro s fun t turns => ?_
        obtain ⟨left, kept, moved⟩ := walk.moves s t start turns
        rw [occupied_pop inside within left, ← moved] at distance
        exact ih kept (moved ▸ next_lt (by omega) _) (by omega)

end Ufp.Theory.Ring
