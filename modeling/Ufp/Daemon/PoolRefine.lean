/-
# Ufp.Daemon.PoolRefine — the buddy allocator is a pool of blocks

The tables of a thread are proved over `Pool`, which knows which blocks are out and what
each further allocation answers. Below it is `ufp_mem_alloc` and `ufp_mem_free` with the
node tree of `Ufp.Lib.Mem`. `pool_models_allocator` ties the two: for every run of calls
on the allocator whose splits are clean there are answers under which a pool returns the
same pointers, has the same blocks out, and sees no block freed twice. A result about all
pools is therefore one about the allocator.
-/
import Ufp.Theory.Pool
import Ufp.Lib.MemNodesRun

set_option autoImplicit false

/-! ## Runs of a pool -/

namespace Ufp.Theory.Pool

open Ufp.Lib.Mem (Call)

/-- A pool before its first call. -/
def fresh (answer : Nat → Option Nat) : Pool :=
  { answer, calls := 0, live := fun _ => false, refused := false, doubleFree := false }

/-- One call: the pointer an allocation returns, and the pool after it. -/
def obey (pool : Pool) : Call → List (Option Nat) × Pool
  | .alloc _ => ([pool.alloc.1], pool.alloc.2)
  | .allocAlign _ _ => ([pool.alloc.1], pool.alloc.2)
  | .free addr => ([], pool.free addr)
  | .store _ _ => ([], pool)

/-- A run: the pointers returned in order, and the last state. -/
def run : Pool → List Call → List (Option Nat) × Pool
  | pool, [] => ([], pool)
  | pool, call :: calls => ((pool.obey call).1 ++ ((pool.obey call).2.run calls).1, ((pool.obey call).2.run calls).2)

end Ufp.Theory.Pool

namespace Ufp.Daemon

open Ufp.Theory
open Ufp.Lib.Mem (Client Call Block Inv ufpMemAlloc ufpMemAllocAlign)

/-- The pointer that an allocation of the client returns. -/
def answerOf (page : Nat) (c : Client) : Call → List (Option Nat)
  | .alloc size => [(ufpMemAlloc c.pool size).1.map Prod.snd]
  | .allocAlign size align => [(ufpMemAllocAlign page c.pool size align).1.map Prod.snd]
  | .free _ => []
  | .store _ _ => []

/-- The pointers that the allocations of a run return, in order. -/
def answersOf (page : Nat) : Client → List Call → List (Option Nat)
  | _, [] => []
  | c, call :: calls =>
      answerOf page c call ++ (c.step page call).elim [] fun next => answersOf page next calls

/-! ## One call -/

/-- The blocks of the pool are those of the client, and none was freed twice. -/
structure SameBlocks (c : Client) (pool : Pool) : Prop where
  live : ∀ addr, pool.live addr = true ↔ ∃ b ∈ c.live, b.addr = addr
  single : pool.doubleFree = false

/-- The pool will answer `answers` next. -/
def Answers (pool : Pool) (answers : List (Option Nat)) : Prop :=
  ∀ j r, answers[j]? = some r → pool.answer (pool.calls + j) = r

section Step

variable {page size ptr : Nat} {c c' : Client} {pool : Pool}

/-- An allocation with the result of the client's allocator. -/
theorem SameBlocks.alloc (same : SameBlocks c pool) {payload : Nat}
    (result : Option (List Bool × Nat) × Ufp.Lib.Mem.Mpool) (inv : Inv size ptr (c.take payload result))
    (answers : pool.answer pool.calls = result.1.map Prod.snd) :
    pool.alloc.1 = result.1.map Prod.snd ∧ SameBlocks (c.take payload result) pool.alloc.2 ∧
      pool.alloc.2.calls = pool.calls + 1 ∧ pool.alloc.2.answer = pool.answer ∧
      pool.alloc.2.refused = (pool.refused || [result.1.map Prod.snd].any Option.isNone) := by
  obtain ⟨node, mpool⟩ := result
  cases node with
  | none =>
      have denied : pool.alloc = (none, { pool with calls := pool.calls + 1, refused := true }) := by
        rw [Pool.alloc, answers]
        rfl
      rw [denied]
      exact ⟨rfl, ⟨same.live, same.single⟩, rfl, rfl, (Bool.or_true _).symm⟩
  | some found =>
      obtain ⟨path, addr⟩ := found
      -- the new block is none of those that are out
      have idle : ¬ pool.live addr = true := by
        rw [same.live]
        rintro ⟨b, member, equal⟩
        have distinct := inv.addr_nodup
        exact (List.nodup_cons.mp distinct).1 (List.mem_map.mpr ⟨b, member, equal⟩)
      have granted : pool.alloc = (some addr,
          { pool with calls := pool.calls + 1, live := Function.update pool.live addr true }) := by
        rw [Pool.alloc, answers]
        exact if_neg idle
      rw [granted]
      refine ⟨rfl, ⟨fun other => ?_, same.single⟩, rfl, rfl, (Bool.or_false _).symm⟩
      by_cases here : other = addr
      · subst here
        exact iff_of_true (Function.update_self _ _ _) ⟨_, List.mem_cons_self, rfl⟩
      · have away : Function.update pool.live addr true other = pool.live other := Function.update_of_ne here _ _
        show Function.update pool.live addr true other = true ↔ _
        rw [away, same.live]
        constructor
        · rintro ⟨b, member, equal⟩
          exact ⟨b, List.mem_cons_of_mem _ member, equal⟩
        · rintro ⟨b, member, equal⟩
          rcases List.mem_cons.mp member with rfl | older
          · exact absurd equal.symm here
          · exact ⟨b, older, equal⟩

theorem SameBlocks.free (same : SameBlocks c pool) {addr : Nat} (out : ∃ b ∈ c.live, b.addr = addr)
    (mpool : Ufp.Lib.Mem.Mpool) :
    SameBlocks { pool := mpool, live := c.live.filter fun b => b.addr ≠ addr } (pool.free addr) := by
  rw [Pool.free_live ((same.live addr).mpr out)]
  refine ⟨fun other => ?_, same.single⟩
  show Function.update pool.live addr false other = true ↔ _
  by_cases here : other = addr
  · subst here
    rw [Function.update_self]
    refine iff_of_false Bool.false_ne_true ?_
    rintro ⟨b, member, equal⟩
    exact of_decide_eq_true (List.mem_filter.mp member).2 equal
  · rw [Function.update_of_ne here, same.live]
    constructor
    · rintro ⟨b, member, rfl⟩
      exact ⟨b, List.mem_filter.mpr ⟨member, decide_eq_true here⟩, rfl⟩
    · rintro ⟨b, member, equal⟩
      exact ⟨b, (List.mem_filter.mp member).1, equal⟩

/-- One call on both sides. -/
theorem SameBlocks.step (pageSize : 0 < page) (inv : Inv size ptr c) (same : SameBlocks c pool) {call : Call}
    (permitted : c.Permits page call) (clean : c.Clean page call) (ran : c.step page call = some c')
    (answers : Answers pool (answerOf page c call)) :
    (pool.obey call).1 = answerOf page c call ∧ SameBlocks c' (pool.obey call).2 ∧
      (pool.obey call).2.calls = pool.calls + (answerOf page c call).length ∧
      (pool.obey call).2.answer = pool.answer ∧
      (pool.obey call).2.refused = (pool.refused || (answerOf page c call).any Option.isNone) := by
  have inv' : Inv size ptr c' := inv.cleanNext pageSize ⟨call, permitted, clean, ran⟩
  cases call with
  | alloc payload =>
      obtain rfl := Option.some.inj ran
      obtain ⟨ret, blocks, rest⟩ := same.alloc (ufpMemAlloc c.pool payload) inv' (answers 0 _ rfl)
      exact ⟨congrArg (fun r => [r]) ret, blocks, rest⟩
  | allocAlign payload align =>
      obtain rfl := Option.some.inj ran
      obtain ⟨ret, blocks, rest⟩ :=
        same.alloc (ufpMemAllocAlign page c.pool payload align) inv' (answers 0 _ rfl)
      exact ⟨congrArg (fun r => [r]) ret, blocks, rest⟩
  | free addr =>
      obtain ⟨mpool, -, rfl⟩ := Option.map_eq_some_iff.mp ran
      refine ⟨rfl, same.free permitted mpool, ?_, ?_, ?_⟩
      · rw [Pool.obey, Pool.free_live ((same.live addr).mpr permitted)]
        rfl
      · rw [Pool.obey, Pool.free_live ((same.live addr).mpr permitted)]
      · exact (Pool.free_refused pool addr).trans (Bool.or_false _).symm
  | store addr byte =>
      obtain rfl := Option.some.inj ran
      exact ⟨rfl, ⟨same.live, same.single⟩, rfl, rfl, (Bool.or_false _).symm⟩

end Step

/-! ## Runs -/

section Runs

variable {page size ptr : Nat} {c c' : Client} {calls : List Call}

theorem SameBlocks.run (pageSize : 0 < page) (inv : Inv size ptr c) {pool : Pool} (same : SameBlocks c pool)
    (clean : c.CleanRun page calls c') (answers : Answers pool (answersOf page c calls)) :
    (pool.run calls).1 = answersOf page c calls ∧ SameBlocks c' (pool.run calls).2 ∧
      (pool.run calls).2.refused = (pool.refused || (answersOf page c calls).any Option.isNone) := by
  induction calls generalizing c pool with
  | nil =>
      obtain rfl : c = c' := clean
      exact ⟨rfl, same, (Bool.or_false _).symm⟩
  | cons call calls ih =>
      obtain ⟨permitted, tidy, next, ran, later⟩ := clean
      have split : answersOf page c (call :: calls) = answerOf page c call ++ answersOf page next calls := by
        rw [answersOf, ran]
        rfl
      rw [split] at answers ⊢
      have first : Answers pool (answerOf page c call) := by
        intro j r known
        have inside := (List.getElem?_eq_some_iff.mp known).1
        exact answers j r ((List.getElem?_append_left inside).trans known)
      obtain ⟨ret, blocks, count, script, refused⟩ := same.step pageSize inv permitted tidy ran first
      have rest : Answers (pool.obey call).2 (answersOf page next calls) := by
        intro j r known
        rw [script, count, Nat.add_assoc]
        refine answers _ r ?_
        rw [List.getElem?_append_right (Nat.le_add_right _ _), Nat.add_sub_cancel_left]
        exact known
      obtain ⟨rets, last, refused'⟩ :=
        ih (inv.cleanNext pageSize ⟨call, permitted, tidy, ran⟩) blocks later rest
      refine ⟨?_, last, ?_⟩
      · rw [Pool.run, ret, rets]
      · rw [Pool.run, refused', refused, List.any_append, Bool.or_assoc]

/-- **The allocator is a pool of blocks.** For every run of calls whose splits are clean
there are answers under which a pool of blocks returns the same pointers, has the same
blocks out in the end, records a refusal exactly when the allocator returned NULL, and
records no block freed twice. -/
theorem pool_models_allocator (pageSize : 0 < page) {malloc : Ufp.Lib.Mem.Malloc}
    (clean : (Client.start ptr size malloc).CleanRun page calls c) :
    ∃ answer, ((Pool.fresh answer).run calls).1 = answersOf page (.start ptr size malloc) calls ∧
      (∀ addr, ((Pool.fresh answer).run calls).2.live addr = true ↔ ∃ b ∈ c.live, b.addr = addr) ∧
      (((Pool.fresh answer).run calls).2.refused = true ↔
        none ∈ answersOf page (.start ptr size malloc) calls) ∧
      ((Pool.fresh answer).run calls).2.doubleFree = false := by
  let answers := answersOf page (.start ptr size malloc) calls
  let answer : Nat → Option Nat := fun k => answers[k]?.join
  have start : SameBlocks (.start ptr size malloc) (Pool.fresh answer) := by
    refine ⟨fun addr => iff_of_false Bool.false_ne_true ?_, rfl⟩
    rintro ⟨b, member, -⟩
    cases member
  have script : Answers (Pool.fresh answer) answers := by
    intro j r known
    show answers[0 + j]?.join = r
    rw [Nat.zero_add, known]
    rfl
  obtain ⟨rets, last, refused⟩ := start.run pageSize (Ufp.Lib.Mem.inv_start ptr size malloc) clean script
  refine ⟨answer, rets, last.live, ?_, last.single⟩
  rw [refused, show (Pool.fresh answer).refused = false from rfl, Bool.false_or, List.any_eq_true]
  constructor
  · rintro ⟨r, member, missing⟩
    rwa [Option.isNone_iff_eq_none.mp missing] at member
  · exact fun member => ⟨none, member, rfl⟩

end Runs

theorem pool_models_allocator_sample :
    ∃ answer, ((Pool.fresh answer).run [.alloc 20, .alloc 20, .free 4104]).1 = [some 4104, some 4136] ∧
      ((Pool.fresh answer).run [.alloc 20, .alloc 20, .free 4104]).2.live 4136 = true ∧
      ((Pool.fresh answer).run [.alloc 20, .alloc 20, .free 4104]).2.doubleFree = false := by
  obtain ⟨answer, rets, live, -, single⟩ := pool_models_allocator (by decide) Ufp.Lib.Mem.sampleOne_run
  have known : Ufp.Lib.Mem.sampleOne.live.map Block.addr = [4136] := by decide +kernel
  refine ⟨answer, rets.trans (by decide +kernel), (live 4136).mpr (List.mem_map.mp ?_), single⟩
  rw [known]
  exact List.mem_singleton.mpr rfl

end Ufp.Daemon
