/-
# Ufp.Theory.Buckets — chained hash tables

A table is a function from bucket numbers to chains. `Keyed` says when two keys
are the same and which bucket a key goes to; `find`, `insert` and `remove` work
on the chain of a key's bucket. As long as no chain holds a key twice (`Ok`), the
table is a finite map: `find_insert` and `find_remove` say what each operation
does to the result of every lookup. `Placed` says that every entry is in the
bucket of its key; then no key is in the whole table twice (`distinct`).
-/
import Mathlib.Data.List.Basic
import Mathlib.Logic.Function.Basic

namespace Ufp.Theory.Buckets

set_option autoImplicit false

/-- The key of an entry, equality of keys, and the bucket of a key. -/
structure Keyed (κ ε : Type) where
  key : ε → κ
  same : κ → κ → Bool
  index : κ → Nat
  refl : ∀ a, same a a = true
  symm : ∀ {a b}, same a b = true → same b a = true
  trans : ∀ {a b c}, same a b = true → same b c = true → same a c = true
  index_eq : ∀ {a b}, same a b = true → index a = index b

variable {κ ε : Type} (s : Keyed κ ε) (t : Nat → List ε)

def find (k : κ) : Option ε := (t (s.index k)).find? fun e => s.same k (s.key e)

def insert (e : ε) : Nat → List ε :=
  Function.update t (s.index (s.key e)) (e :: t (s.index (s.key e)))

def remove (k : κ) : Nat → List ε :=
  Function.update t (s.index k) ((t (s.index k)).eraseP fun e => s.same k (s.key e))

/-- No chain holds a key twice. -/
def Ok : Prop := ∀ i, (t i).Pairwise fun a b => s.same (s.key a) (s.key b) = false

/-- Every entry is in the bucket of its key. -/
def Placed : Prop := ∀ i, ∀ e ∈ t i, s.index (s.key e) = i

variable {s t}

theorem Keyed.same_congr {a b c : κ} (same : s.same a b = true) : s.same a c = s.same b c := by
  rw [Bool.eq_iff_iff]
  exact ⟨fun left => s.trans (s.symm same) left, fun right => s.trans same right⟩

theorem find_congr {a b : κ} (same : s.same a b = true) : find s t a = find s t b := by
  unfold find
  rw [s.index_eq same]
  simp only [s.same_congr same]

theorem find_insert (e : ε) (k : κ) :
    find s (insert s t e) k = if s.same k (s.key e) = true then some e else find s t k := by
  unfold find insert
  by_cases bucket : s.index k = s.index (s.key e)
  · rw [bucket, Function.update_self, List.find?_cons]
    cases s.same k (s.key e) <;> rfl
  · rw [Function.update_of_ne bucket, if_neg fun same => bucket (s.index_eq same)]

theorem Ok.insert {e : ε} (ok : Ok s t) (absent : find s t (s.key e) = none) :
    Ok s (insert s t e) := by
  intro i
  unfold Buckets.insert
  by_cases bucket : i = s.index (s.key e)
  · subst bucket
    rw [Function.update_self, List.pairwise_cons]
    refine ⟨fun other member => ?_, ok _⟩
    simpa using List.find?_eq_none.mp absent other member
  · rw [Function.update_of_ne bucket]
    exact ok i

theorem Ok.remove (ok : Ok s t) (k : κ) : Ok s (remove s t k) := by
  intro i
  unfold Buckets.remove
  by_cases bucket : i = s.index k
  · subst bucket
    rw [Function.update_self]
    exact (ok _).sublist List.eraseP_sublist
  · rw [Function.update_of_ne bucket]
    exact ok i

/-- A chain without its entry for `k`: nothing is left for `k`, and the entries
for other keys stay. -/
theorem find?_eraseP {chain : List ε}
    (distinct : chain.Pairwise fun a b => s.same (s.key a) (s.key b) = false) (k k' : κ) :
    (chain.eraseP fun e => s.same k (s.key e)).find? (fun e => s.same k' (s.key e)) =
      if s.same k' k = true then none else chain.find? fun e => s.same k' (s.key e) := by
  induction chain with
  | nil => simp
  | cons e rest ih =>
      obtain ⟨apart, distinct'⟩ := List.pairwise_cons.mp distinct
      rw [List.eraseP_cons, List.find?_cons]
      cases here : s.same k (s.key e) with
      | true =>
          by_cases same : s.same k' k = true
          · rw [if_pos same, cond_true, List.find?_eq_none]
            intro other member both
            have twice := s.trans (s.symm here) (s.trans (s.symm same) both)
            rw [apart other member] at twice
            cases twice
          · have differ : s.same k' (s.key e) = false := by
              rw [Bool.eq_false_iff]
              exact fun both => same (s.trans both (s.symm here))
            rw [if_neg same, cond_true, differ]
      | false =>
          rw [cond_false, List.find?_cons]
          cases hit : s.same k' (s.key e) with
          | true =>
              have differ : ¬ s.same k' k = true := by
                intro same
                rw [s.trans (s.symm same) hit] at here
                cases here
              rw [if_neg differ]
          | false => exact ih distinct'

/-- Erasing the first entry that a search finds takes out that entry. -/
theorem perm_eraseP {chain : List ε} {p : ε → Bool} {e : ε} (found : chain.find? p = some e) :
    chain.Perm (e :: chain.eraseP p) := by
  induction chain with
  | nil => cases found
  | cons first rest ih =>
      rw [List.find?_cons] at found
      rw [List.eraseP_cons]
      cases hit : p first with
      | true =>
          rw [hit] at found
          obtain rfl := Option.some.inj found
          exact List.Perm.refl _
      | false =>
          rw [hit] at found
          exact ((ih found).cons first).trans (List.Perm.swap e first _)

theorem find_remove (ok : Ok s t) (k k' : κ) :
    find s (remove s t k) k' = if s.same k' k = true then none else find s t k' := by
  unfold find remove
  by_cases bucket : s.index k' = s.index k
  · rw [bucket, Function.update_self]
    exact find?_eraseP (ok _) k k'
  · rw [Function.update_of_ne bucket, if_neg fun same => bucket (s.index_eq same)]

theorem mem_insert {e other : ε} {i : Nat} (member : other ∈ insert s t e i) :
    other = e ∧ i = s.index (s.key e) ∨ other ∈ t i := by
  unfold insert at member
  by_cases bucket : i = s.index (s.key e)
  · subst bucket
    rw [Function.update_self, List.mem_cons] at member
    exact member.imp_left fun new => ⟨new, rfl⟩
  · rw [Function.update_of_ne bucket] at member
    exact .inr member

theorem mem_remove {k : κ} {other : ε} {i : Nat} (member : other ∈ remove s t k i) : other ∈ t i := by
  unfold remove at member
  by_cases bucket : i = s.index k
  · subst bucket
    rw [Function.update_self] at member
    exact List.mem_of_mem_eraseP member
  · rwa [Function.update_of_ne bucket] at member

theorem Placed.insert (placed : Placed s t) (e : ε) : Placed s (insert s t e) := by
  intro i other member
  rcases mem_insert member with ⟨rfl, rfl⟩ | old
  · rfl
  · exact placed i other old

theorem Placed.remove (placed : Placed s t) (k : κ) : Placed s (remove s t k) :=
  fun i other member => placed i other (mem_remove member)

/-- Two entries with one key would share a bucket, and no chain holds a key twice. -/
theorem distinct (ok : Ok s t) (placed : Placed s t) (n : Nat) :
    ((List.range n).flatMap t).Pairwise fun a b => s.same (s.key a) (s.key b) = false := by
  rw [List.pairwise_flatMap]
  refine ⟨fun i _ => ok i, List.nodup_range.imp fun {i j} apart a inI b inJ => ?_⟩
  rw [Bool.eq_false_iff]
  intro same
  apply apart
  rw [← placed i a inI, ← placed j b inJ]
  exact s.index_eq same

end Ufp.Theory.Buckets
