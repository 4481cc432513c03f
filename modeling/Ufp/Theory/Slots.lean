/-
# Ufp.Theory.Slots — what the cells of a table hold

A table is a function from indices to cells, and each cell holds a list of
items. `gather n f t` lists what the first `n` cells of `t` hold. Writing one
cell exchanges that cell's items and leaves the rest, up to order
(`gather_perm`, `gather_update`): the rule by which an ownership account over a
whole table is kept one cell at a time.
-/
import Mathlib.Data.List.Perm.Basic
import Mathlib.Data.List.Nodup

namespace Ufp.Theory.Slots

set_option autoImplicit false

variable {α β : Type} (n : Nat) (f : α → List β) (t : Nat → α)

/-- The items of the first `n` cells. -/
def gather : List β := (List.range n).flatMap fun i => f (t i)

/-- The items of the first `n` cells other than cell `k`. -/
def others (k : Nat) : List β := ((List.range n).erase k).flatMap fun i => f (t i)

variable {n f t}

theorem mem_gather {x : β} : x ∈ gather n f t ↔ ∃ k < n, x ∈ f (t k) := by
  simp [gather]

theorem gather_perm {k : Nat} (inside : k < n) : (gather n f t).Perm (f (t k) ++ others n f t k) :=
  (List.perm_cons_erase (List.mem_range.mpr inside)).flatMap_right _

theorem others_update (k : Nat) (x : α) : others n f (Function.update t k x) k = others n f t k := by
  refine List.flatMap_congr fun i member => ?_
  have ne : i ≠ k := (List.Nodup.mem_erase_iff List.nodup_range).mp member |>.1
  rw [Function.update_of_ne ne]

theorem gather_update {k : Nat} (inside : k < n) (x : α) :
    (gather n f (Function.update t k x)).Perm (f x ++ others n f t k) := by
  have split : (gather n f (Function.update t k x)).Perm _ := gather_perm inside
  rwa [Function.update_self, others_update] at split

theorem gather_eq_nil (empty : ∀ k < n, f (t k) = []) : gather n f t = [] :=
  List.flatMap_eq_nil_iff.mpr fun k member => empty k (List.mem_range.mp member)

end Ufp.Theory.Slots
