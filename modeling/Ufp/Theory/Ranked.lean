/-
# Ufp.Theory.Ranked — lists ranked by a key, newest first among equals

`rank key l` sorts `l` by descending `key` and keeps the order of `l` among
equal keys. With `l` listing items newest first, adding an item is an ordered
insertion (`rank_cons`), dropping items commutes with ranking (`rank_filter`),
and the first of the ranking is the newest item of the greatest key
(`head_rank`).
-/
import Mathlib.Data.List.Sort

namespace Ufp.Theory.Ranked

set_option autoImplicit false

variable {α : Type} (key : α → Nat)

/-- `a` may stand before `b`. -/
def Before (a b : α) : Prop := key b ≤ key a

instance : DecidableRel (Before key) := fun a b => Nat.decLe (key b) (key a)

instance : Std.Total (Before key) := ⟨fun a b => Nat.le_total (key b) (key a)⟩

instance : IsTrans α (Before key) := ⟨fun _ _ _ ab bc => Nat.le_trans bc ab⟩

/-- Descending by key, stable. -/
def rank (l : List α) : List α := l.insertionSort (Before key)

variable {key}

theorem rank_cons (a : α) (l : List α) :
    rank key (a :: l) = (rank key l).orderedInsert (Before key) a := rfl

variable {l : List α} {a : α}

theorem mem_rank : a ∈ rank key l ↔ a ∈ l := List.mem_insertionSort _

theorem rank_sorted (l : List α) : (rank key l).Pairwise (Before key) :=
  List.pairwise_insertionSort _ l

theorem rank_eq_nil : rank key l = [] ↔ l = [] := by
  rw [← List.length_eq_zero_iff, rank, List.length_insertionSort, List.length_eq_zero_iff]

theorem filter_orderedInsert (p : α → Bool) (a : α) (sorted : l.Pairwise (Before key)) :
    (l.orderedInsert (Before key) a).filter p =
      if p a then (l.filter p).orderedInsert (Before key) a else l.filter p := by
  induction l with
  | nil => cases keep : p a <;> simp [keep]
  | cons b l ih =>
      obtain ⟨first, rest⟩ := List.pairwise_cons.mp sorted
      by_cases before : Before key a b
      · rw [List.orderedInsert_cons_of_le _ _ before]
        cases keep : p a with
        | false => simp [keep]
        | true =>
            -- everything kept of `b :: l` still comes after `a`
            have all : ∀ c ∈ (b :: l).filter p, Before key a c := by
              intro c member
              rcases List.mem_cons.mp (List.mem_filter.mp member).1 with rfl | later
              · exact before
              · exact Nat.le_trans (first c later) before
            rw [List.filter_cons_of_pos keep, if_pos rfl]
            cases kept : (b :: l).filter p with
            | nil => rfl
            | cons c tail =>
                rw [List.orderedInsert_cons_of_le _ _ (all c (by rw [kept]; exact List.mem_cons_self))]
      · rw [List.orderedInsert_of_not_le _ _ before]
        cases keep : p b with
        | false =>
            have gone : ¬ p b = true := by simp [keep]
            rw [List.filter_cons_of_neg gone, List.filter_cons_of_neg gone, ih rest]
        | true =>
            rw [List.filter_cons_of_pos keep, List.filter_cons_of_pos keep, ih rest,
              List.orderedInsert_of_not_le _ _ before]
            split <;> rfl

/-- Ranking what is kept, or keeping of what is ranked. -/
theorem rank_filter (p : α → Bool) (l : List α) :
    rank key (l.filter p) = (rank key l).filter p := by
  induction l with
  | nil => rfl
  | cons a l ih =>
      rw [rank_cons, filter_orderedInsert p a (rank_sorted l), ← ih]
      cases keep : p a with
      | false => simp [keep]
      | true => rw [List.filter_cons_of_pos keep, rank_cons, if_pos rfl]

/-- The first of the items above a bound is the first of all. -/
theorem head_of_filter (sorted : l.Pairwise (Before key)) {c : Nat}
    (found : (l.filter fun b => c < key b).head? = some a) : l.head? = some a := by
  cases l with
  | nil => simp at found
  | cons b l =>
      by_cases above : c < key b
      · simpa [above] using found
      · exfalso
        obtain ⟨first, -⟩ := List.pairwise_cons.mp sorted
        have member : a ∈ (b :: l).filter fun b => c < key b := List.mem_of_mem_head? found
        obtain ⟨later, large⟩ := List.mem_filter.mp member
        have low : key a ≤ key b := by
          rcases List.mem_cons.mp later with rfl | later
          · exact Nat.le_refl _
          · exact first a later
        simp only [decide_eq_true_eq] at large
        omega

/-- The first of the ranking: nothing has a greater key, and what stands before
it in the list has a smaller one. -/
theorem head_rank (first : (rank key l).head? = some a) :
    (∀ b ∈ l, key b ≤ key a) ∧ ∃ newer older, l = newer ++ a :: older ∧ ∀ b ∈ newer, key b < key a := by
  induction l generalizing a with
  | nil => simp [rank] at first
  | cons b l ih =>
      rw [rank_cons] at first
      cases ranked : rank key l with
      | nil =>
          have none : l = [] := rank_eq_nil.mp ranked
          subst none
          simp only [ranked, List.orderedInsert_nil, List.head?_cons, Option.some.injEq] at first
          subst first
          exact ⟨by simp, [], [], rfl, by simp⟩
      | cons c tail =>
          obtain ⟨bound, newer, older, split, below⟩ := ih (by rw [ranked]; rfl)
          rw [ranked] at first
          by_cases before : Before key b c
          · rw [List.orderedInsert_cons_of_le _ _ before] at first
            simp only [List.head?_cons, Option.some.injEq] at first
            subst first
            refine ⟨fun d member => ?_, [], l, rfl, by simp⟩
            rcases List.mem_cons.mp member with rfl | later
            · exact Nat.le_refl _
            · exact Nat.le_trans (bound d later) before
          · rw [List.orderedInsert_of_not_le _ _ before] at first
            simp only [List.head?_cons, Option.some.injEq] at first
            subst first
            have less : key b < key c := Nat.lt_of_not_le before
            refine ⟨fun d member => ?_, b :: newer, older, by rw [split]; rfl, fun d member => ?_⟩
            · rcases List.mem_cons.mp member with rfl | later
              · exact Nat.le_of_lt less
              · exact bound d later
            · rcases List.mem_cons.mp member with rfl | later
              · exact less
              · exact below d later

end Ufp.Theory.Ranked
