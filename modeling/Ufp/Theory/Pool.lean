/-
# Ufp.Theory.Pool — an allocator as its clients see it

A pool is its blocks: which are out, and which block each further allocation would
hand out, if any. Every pattern of refusals and every reuse of freed addresses is
such a sequence of answers. An allocator never hands out a block that is still out,
so an answer that names one is a refusal.

`refused` and `doubleFree` record history: whether an allocation was refused,
and whether a block that was not out was given back.
-/
import Mathlib.Logic.Function.Basic

namespace Ufp.Theory

set_option autoImplicit false

structure Pool where
  answer : Nat → Option Nat
  calls : Nat
  live : Nat → Bool
  refused : Bool
  doubleFree : Bool

namespace Pool

/-- A block is asked for. -/
def alloc (pool : Pool) : Option Nat × Pool :=
  match pool.answer pool.calls with
  | some blk =>
      if pool.live blk then (none, { pool with calls := pool.calls + 1, refused := true })
      else (some blk,
        { pool with calls := pool.calls + 1, live := Function.update pool.live blk true })
  | none => (none, { pool with calls := pool.calls + 1, refused := true })

/-- A block is given back. -/
def free (pool : Pool) (blk : Nat) : Pool :=
  if pool.live blk then { pool with live := Function.update pool.live blk false }
  else { pool with doubleFree := true }

/-- The next `n` allocations all succeed. -/
def grants : Nat → Pool → Bool
  | 0, _ => true
  | n + 1, pool =>
      match pool.alloc with
      | (some _, pool) => grants n pool
      | (none, _) => false

variable {pool pool' : Pool} {blk : Nat}

/-- A granted allocation takes a block that was not out, and changes nothing else. -/
theorem alloc_some (granted : pool.alloc = (some blk, pool')) :
    pool.live blk = false ∧ pool'.live = Function.update pool.live blk true ∧
      pool'.refused = pool.refused ∧ pool'.doubleFree = pool.doubleFree := by
  simp only [alloc] at granted
  split at granted
  · split at granted
    · simp at granted
    · rename_i idle
      simp only [Prod.mk.injEq, Option.some.injEq] at granted
      obtain ⟨rfl, rfl⟩ := granted
      exact ⟨by simpa using idle, rfl, rfl, rfl⟩
  · simp at granted

theorem alloc_none (denied : pool.alloc = (none, pool')) :
    pool'.live = pool.live ∧ pool'.refused = true ∧ pool'.doubleFree = pool.doubleFree := by
  simp only [alloc] at denied
  split at denied
  · split at denied
    · simp only [Prod.mk.injEq, true_and] at denied
      subst denied
      exact ⟨rfl, rfl, rfl⟩
    · simp at denied
  · simp only [Prod.mk.injEq, true_and] at denied
    subst denied
    exact ⟨rfl, rfl, rfl⟩

theorem free_live (out : pool.live blk = true) :
    pool.free blk = { pool with live := Function.update pool.live blk false } := if_pos out

theorem free_refused (pool : Pool) (blk : Nat) : (pool.free blk).refused = pool.refused := by
  unfold free
  split <;> rfl

/-- Freeing brings no block out. -/
theorem free_idle {other : Nat} (idle : pool.live other = false) :
    (pool.free blk).live other = false := by
  unfold free
  split
  · by_cases same : other = blk
    · subst same
      exact Function.update_self _ _ _
    · simpa [Function.update_of_ne same] using idle
  · exact idle

theorem grants_some (granted : pool.alloc = (some blk, pool')) (n : Nat) :
    pool.grants (n + 1) = pool'.grants n := by
  simp only [grants, granted]

theorem grants_none (denied : pool.alloc = (none, pool')) (n : Nat) :
    pool.grants (n + 1) = false := by
  simp only [grants, denied]

theorem grants_mono {m n : Nat} (fewer : m ≤ n) (granted : pool.grants n = true) :
    pool.grants m = true := by
  induction n generalizing m pool with
  | zero =>
      obtain rfl : m = 0 := by omega
      rfl
  | succ n ih =>
      cases m with
      | zero => rfl
      | succ m =>
          rcases answer : pool.alloc with ⟨found, pool'⟩
          cases found with
          | none =>
              rw [grants_none answer] at granted
              cases granted
          | some blk =>
              rw [grants_some answer] at granted ⊢
              exact ih (by omega) granted

theorem grants_false_mono {m n : Nat} (more : m ≤ n) (short : pool.grants m = false) :
    pool.grants n = false := by
  rw [Bool.eq_false_iff]
  intro enough
  rw [grants_mono more enough] at short
  cases short

/-- A pool that hands out ever new blocks grants everything. -/
theorem grants_fresh (answers : ∀ k, pool.answer k = some k)
    (fresh : ∀ b, pool.calls ≤ b → pool.live b = false) (n : Nat) : pool.grants n = true := by
  induction n generalizing pool with
  | zero => rfl
  | succ n ih =>
      have idle : ¬ pool.live pool.calls = true := by simp [fresh pool.calls (Nat.le_refl _)]
      have granted : pool.alloc = (some pool.calls,
          { pool with calls := pool.calls + 1, live := Function.update pool.live pool.calls true }) := by
        simp only [alloc, answers, if_neg idle]
      rw [grants_some granted]
      refine ih answers fun b later => ?_
      have later' : pool.calls + 1 ≤ b := later
      show Function.update pool.live pool.calls true b = false
      rw [Function.update_of_ne (by omega)]
      exact fresh b (by omega)

end Pool

end Ufp.Theory
