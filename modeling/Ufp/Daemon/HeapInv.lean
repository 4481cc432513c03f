/-
# Ufp.Daemon.HeapInv — who owns the blocks of the pool

`HeapOk h blocks links` is the account of a prefix table and the heap behind it:
the blocks the table owns are out and distinct, and a linked `fib_entry` is out
and counts its links. `Pending` is the one entry that `fib_route_update` has made
and not yet linked everywhere. `Heap.Step` is what no table operation changes.

One lemma per heap operation keeps the account: allocation, `ufp_mem_free` of an
owned block, `fib_entry_pull` and `fib_entry_put`. The same operations keep an
account that leaves nothing out (`Exact`), so no block is lost.
-/
import Ufp.Daemon.Lpm
import Mathlib.Data.List.Perm.Basic
import Mathlib.Data.List.Count

namespace Ufp.Daemon

open Ufp.Theory (Pool)

set_option autoImplicit false

/-- Blocks owned and distinct; linked entries out and counting their links. -/
structure HeapOk (h : Heap) (blocks links : List Nat) : Prop where
  nodup : blocks.Nodup
  live : ∀ b ∈ blocks, h.pool.live b = true
  apart : ∀ b ∈ blocks, b ∉ links
  refs : ∀ a ∈ links, h.pool.live a = true ∧ (h.fibEntry a).refcount = links.count a

theorem heapOk_nil (h : Heap) : HeapOk h [] [] :=
  ⟨List.nodup_nil, fun _ member => (by cases member), fun _ member => (by cases member),
    fun _ member => (by cases member)⟩

/-- A `fib_entry` being added: out, owned by nobody else, counting its links. -/
structure Pending (h : Heap) (blocks links : List Nat) (ptr : Nat) : Prop where
  live : h.pool.live ptr = true
  apart : ptr ∉ blocks
  refs : (h.fibEntry ptr).refcount = links.count ptr

/-- Entries keep everything but their counters, and no block is freed twice. -/
structure Heap.Step (h h' : Heap) : Prop where
  entries : ∀ a, ∃ refcount, h'.fibEntry a = { h.fibEntry a with refcount }
  doubleFree : h'.pool.doubleFree = h.pool.doubleFree
  refused : h.pool.refused = true → h'.pool.refused = true

theorem Heap.Step.refl (h : Heap) : Heap.Step h h := ⟨fun _ => ⟨_, rfl⟩, rfl, id⟩

theorem Heap.Step.trans {h h' h'' : Heap} (first : Heap.Step h h') (second : Heap.Step h' h'') :
    Heap.Step h h'' := by
  refine ⟨fun a => ?_, second.doubleFree.trans first.doubleFree, second.refused ∘ first.refused⟩
  obtain ⟨n, one⟩ := first.entries a
  obtain ⟨m, two⟩ := second.entries a
  exact ⟨m, by rw [two, one]⟩

section HeapSteps

variable {h h' : Heap} {blocks links : List Nat} {b ptr : Nat}

theorem HeapOk.perm {blocks' links' : List Nat} (ok : HeapOk h blocks links)
    (sameBlocks : blocks.Perm blocks') (sameLinks : links.Perm links') :
    HeapOk h blocks' links' where
  nodup := sameBlocks.nodup_iff.mp ok.nodup
  live := fun b member => ok.live b (sameBlocks.mem_iff.mpr member)
  apart := fun b member linked => ok.apart b (sameBlocks.mem_iff.mpr member)
    (sameLinks.mem_iff.mpr linked)
  refs := fun a member => by
    rw [← sameLinks.count_eq]
    exact ok.refs a (sameLinks.mem_iff.mpr member)

theorem Pending.perm {blocks' links' : List Nat} (pending : Pending h blocks links ptr)
    (sameBlocks : blocks.Perm blocks') (sameLinks : links.Perm links') :
    Pending h blocks' links' ptr where
  live := pending.live
  apart := fun member => pending.apart (sameBlocks.mem_iff.mpr member)
  refs := by rw [← sameLinks.count_eq]; exact pending.refs

theorem Heap.alloc_some (granted : h.alloc = (some b, h')) :
    ∃ pool, h.pool.alloc = (some b, pool) ∧ h' = { h with pool } := by
  simp only [Heap.alloc, Prod.mk.injEq] at granted
  obtain ⟨found, rfl⟩ := granted
  exact ⟨_, Prod.ext found rfl, rfl⟩

theorem Heap.alloc_none (denied : h.alloc = (none, h')) :
    ∃ pool, h.pool.alloc = (none, pool) ∧ h' = { h with pool } := by
  simp only [Heap.alloc, Prod.mk.injEq] at denied
  obtain ⟨missed, rfl⟩ := denied
  exact ⟨_, Prod.ext missed rfl, rfl⟩

theorem Heap.Step.alloc_some (granted : h.alloc = (some b, h')) : Heap.Step h h' := by
  obtain ⟨pool, found, rfl⟩ := Heap.alloc_some granted
  obtain ⟨-, -, refused, doubleFree⟩ := Pool.alloc_some found
  exact ⟨fun _ => ⟨_, rfl⟩, doubleFree, fun was => refused.trans was⟩

theorem Heap.Step.alloc_none (denied : h.alloc = (none, h')) : Heap.Step h h' := by
  obtain ⟨pool, missed, rfl⟩ := Heap.alloc_none denied
  obtain ⟨-, refused, doubleFree⟩ := Pool.alloc_none missed
  exact ⟨fun _ => ⟨_, rfl⟩, doubleFree, fun _ => refused⟩

theorem HeapOk.alloc_some (ok : HeapOk h blocks links) (granted : h.alloc = (some b, h')) :
    HeapOk h' (b :: blocks) links ∧ b ∉ blocks ∧ b ∉ links ∧
      ∀ {ptr}, Pending h blocks links ptr → Pending h' (b :: blocks) links ptr := by
  obtain ⟨pool, found, rfl⟩ := Heap.alloc_some granted
  obtain ⟨idle, live, -, -⟩ := Pool.alloc_some found
  have fresh : ∀ a, h.pool.live a = true → a ≠ b := by
    rintro a out rfl
    rw [idle] at out
    cases out
  have keep : ∀ a, h.pool.live a = true → pool.live a = true := by
    intro a out
    rw [live, Function.update_of_ne (fresh a out)]
    exact out
  have newBlock : b ∉ blocks := fun member => fresh b (ok.live b member) rfl
  have newLink : b ∉ links := fun member => fresh b (ok.refs b member).1 rfl
  refine ⟨⟨List.nodup_cons.mpr ⟨newBlock, ok.nodup⟩, ?_, ?_, ?_⟩, newBlock, newLink, ?_⟩
  · intro a member
    rcases List.mem_cons.mp member with rfl | member
    · rw [live]
      exact Function.update_self _ _ _
    · exact keep a (ok.live a member)
  · intro a member
    rcases List.mem_cons.mp member with rfl | member
    · exact newLink
    · exact ok.apart a member
  · intro a member
    exact ⟨keep a (ok.refs a member).1, (ok.refs a member).2⟩
  · intro ptr pending
    refine ⟨keep ptr pending.live, ?_, pending.refs⟩
    rw [List.mem_cons, not_or]
    exact ⟨fresh ptr pending.live, pending.apart⟩

theorem HeapOk.alloc_none (ok : HeapOk h blocks links) (denied : h.alloc = (none, h')) :
    HeapOk h' blocks links ∧
      ∀ {ptr}, Pending h blocks links ptr → Pending h' blocks links ptr := by
  obtain ⟨pool, missed, rfl⟩ := Heap.alloc_none denied
  have live := (Pool.alloc_none missed).1
  refine ⟨⟨ok.nodup, fun b member => ?_, ok.apart, fun a member => ⟨?_, (ok.refs a member).2⟩⟩,
    fun pending => ⟨?_, pending.apart, pending.refs⟩⟩
  · rw [live]
    exact ok.live b member
  · rw [live]
    exact (ok.refs a member).1
  · rw [live]
    exact pending.live

/-- Freeing an owned block. -/
theorem HeapOk.free (ok : HeapOk h (b :: blocks) links) :
    HeapOk (h.free b) blocks links ∧ Heap.Step h (h.free b) ∧
      ∀ {ptr}, Pending h (b :: blocks) links ptr → Pending (h.free b) blocks links ptr := by
  obtain ⟨fresh, nodup⟩ := List.nodup_cons.mp ok.nodup
  have out : h.pool.live b = true := ok.live b List.mem_cons_self
  have keep : ∀ a, a ≠ b → h.pool.live a = true → (h.free b).pool.live a = true := by
    intro a ne live
    simp only [Heap.free, Pool.free_live out, Function.update_of_ne ne, live]
  refine ⟨⟨nodup, ?_, ?_, ?_⟩, ⟨fun _ => ⟨_, rfl⟩, ?_, fun was => ?_⟩, ?_⟩
  · intro a member
    exact keep a (fun same => fresh (same ▸ member)) (ok.live a (List.mem_cons_of_mem _ member))
  · intro a member
    exact ok.apart a (List.mem_cons_of_mem _ member)
  · intro a member
    refine ⟨keep a ?_ (ok.refs a member).1, (ok.refs a member).2⟩
    rintro rfl
    exact ok.apart a List.mem_cons_self member
  · simp only [Heap.free, Pool.free_live out]
  · simp only [Heap.free, Pool.free_refused, was]
  · intro ptr pending
    obtain ⟨ne, apart⟩ := not_or.mp (fun either => pending.apart (List.mem_cons.mpr either))
    exact ⟨keep ptr ne pending.live, apart, pending.refs⟩

/-- Filling in the entry in an owned block: nobody links it yet. -/
theorem HeapOk.setEntry (ok : HeapOk h (ptr :: blocks) links) {entry : FibEntry} (unlinked : entry.refcount = 0) :
    HeapOk (h.setEntry ptr entry) blocks links ∧ Pending (h.setEntry ptr entry) blocks links ptr := by
  obtain ⟨fresh, nodup⟩ := List.nodup_cons.mp ok.nodup
  have newLink : ptr ∉ links := ok.apart ptr List.mem_cons_self
  refine ⟨⟨nodup, fun b member => ok.live b (List.mem_cons_of_mem _ member),
    fun b member => ok.apart b (List.mem_cons_of_mem _ member), fun a member => ⟨(ok.refs a member).1, ?_⟩⟩,
    ok.live ptr List.mem_cons_self, fresh, ?_⟩
  · have ne : a ≠ ptr := fun same => newLink (same ▸ member)
    simp only [Heap.setEntry, Function.update_of_ne ne]
    exact (ok.refs a member).2
  · simp [Heap.setEntry, unlinked, List.count_eq_zero.mpr newLink]

/-- A counter that is set leaves every entry as it is but for the counter. -/
theorem recounted (entries : Nat → FibEntry) (ptr count a : Nat) : ∃ refcount,
    Function.update entries ptr { entries ptr with refcount := count } a = { entries a with refcount } := by
  by_cases same : a = ptr
  · exact ⟨count, by rw [same, Function.update_self]⟩
  · exact ⟨_, Function.update_of_ne same _ _⟩

theorem Heap.Step.pull (h : Heap) (ptr : Nat) : Heap.Step h (fibEntryPull h ptr) := ⟨recounted _ _ _, rfl, id⟩

/-- Linking the entry being added. -/
theorem HeapOk.pull (ok : HeapOk h blocks links) (pending : Pending h blocks links ptr) :
    HeapOk (fibEntryPull h ptr) blocks (ptr :: links) ∧
      Pending (fibEntryPull h ptr) blocks (ptr :: links) ptr := by
  have self : ((fibEntryPull h ptr).fibEntry ptr).refcount = (ptr :: links).count ptr := by
    simp [fibEntryPull, Heap.setEntry, pending.refs]
  refine ⟨⟨ok.nodup, ok.live, ?_, ?_⟩, ⟨pending.live, pending.apart, self⟩⟩
  · intro b member linked
    rcases List.mem_cons.mp linked with rfl | linked
    · exact pending.apart member
    · exact ok.apart b member linked
  · intro a member
    by_cases same : a = ptr
    · subst same
      exact ⟨pending.live, self⟩
    · have old : a ∈ links := (List.mem_cons.mp member).resolve_left same
      refine ⟨(ok.refs a old).1, ?_⟩
      have other : ptr ≠ a := Ne.symm same
      simp only [fibEntryPull, Heap.setEntry, Function.update_of_ne same]
      rw [List.count_cons_of_ne other]
      exact (ok.refs a old).2

theorem fibEntryPut_refused (h : Heap) (ptr : Nat) :
    (fibEntryPut h ptr).pool.refused = h.pool.refused := by
  simp only [fibEntryPut]
  split_ifs <;> first | rfl | exact Pool.free_refused _ _

/-- Unlinking: the last link to go frees the entry. -/
theorem HeapOk.put (ok : HeapOk h blocks (ptr :: links)) :
    HeapOk (fibEntryPut h ptr) blocks links ∧ Heap.Step h (fibEntryPut h ptr) ∧
      (ptr ∉ links → (fibEntryPut h ptr).pool.live ptr = false) := by
  obtain ⟨out, counted⟩ := ok.refs ptr List.mem_cons_self
  rw [List.count_cons_self] at counted
  have apart : ∀ b ∈ blocks, b ∉ links := fun b member linked =>
    ok.apart b member (List.mem_cons_of_mem _ linked)
  have refs : ∀ a ∈ links, a ≠ ptr →
      h.pool.live a = true ∧ (h.fibEntry a).refcount = links.count a := by
    intro a member ne
    have old := ok.refs a (List.mem_cons_of_mem _ member)
    rwa [List.count_cons_of_ne (Ne.symm ne)] at old
  have down : (if (h.fibEntry ptr).refcount = 0 then 2 ^ 32 - 1 else (h.fibEntry ptr).refcount - 1) =
      links.count ptr := by
    rw [counted, if_neg (Nat.succ_ne_zero _), Nat.add_sub_cancel]
  simp only [fibEntryPut, down]
  by_cases last : links.count ptr = 0
  · have gone : ptr ∉ links := List.count_eq_zero.mp last
    have freed : h.pool.free ptr = { h.pool with live := Function.update h.pool.live ptr false } :=
      Pool.free_live out
    simp only [last, if_true, Heap.setEntry, Heap.free, freed]
    refine ⟨⟨ok.nodup, ?_, apart, ?_⟩, ⟨recounted _ _ _, rfl, id⟩, fun _ => Function.update_self _ _ _⟩
    · intro b member
      have ne : b ≠ ptr := fun same => ok.apart b member (same ▸ List.mem_cons_self)
      simp only [Function.update_of_ne ne]
      exact ok.live b member
    · intro a member
      have ne : a ≠ ptr := fun same => gone (same ▸ member)
      simp only [Function.update_of_ne ne]
      exact refs a member ne
  · have still : ptr ∈ links := List.count_pos_iff.mp (Nat.pos_of_ne_zero last)
    simp only [last, if_false, Heap.setEntry]
    refine ⟨⟨ok.nodup, ok.live, apart, ?_⟩, ⟨recounted _ _ _, rfl, id⟩, fun gone => absurd still gone⟩
    intro a member
    by_cases same : a = ptr
    · subst same
      exact ⟨out, by simp⟩
    · simp only [Function.update_of_ne same]
      exact refs a member same

end HeapSteps

/-! ## Accounts that leave nothing out -/

/-- Nothing is out but the blocks, the linked entries and what others own. -/
structure Exact (other : Nat → Prop) (h : Heap) (blocks links : List Nat) : Prop
    extends HeapOk h blocks links where
  only : ∀ b, h.pool.live b = true → b ∈ blocks ∨ b ∈ links ∨ other b

theorem HeapOk.exact {h : Heap} {blocks links : List Nat} (ok : HeapOk h blocks links) :
    Exact (fun _ => True) h blocks links :=
  ⟨ok, fun _ _ => .inr (.inr trivial)⟩

section ExactSteps

variable {other : Nat → Prop} {h h' : Heap} {blocks links : List Nat} {b ptr : Nat}

theorem Exact.perm {blocks' links' : List Nat} (exact : Exact other h blocks links)
    (sameBlocks : blocks.Perm blocks') (sameLinks : links.Perm links') : Exact other h blocks' links' := by
  refine ⟨exact.toHeapOk.perm sameBlocks sameLinks, fun b live => ?_⟩
  rw [← sameBlocks.mem_iff, ← sameLinks.mem_iff]
  exact exact.only b live

theorem Heap.free_live {a : Nat} (live : (h.free b).pool.live a = true) : a ≠ b ∧ h.pool.live a = true := by
  have before : h.pool.live a = true := by
    by_contra dead
    have idle : h.pool.live a = false := by simpa using dead
    simp [Heap.free, Pool.free_idle idle] at live
  refine ⟨?_, before⟩
  rintro rfl
  simp [Heap.free, Pool.free_live before] at live

/-- An entry that is put is out afterwards only if it was before. -/
theorem fibEntryPut_live {a : Nat} (live : (fibEntryPut h ptr).pool.live a = true) : h.pool.live a = true := by
  simp only [fibEntryPut] at live
  generalize (if (h.fibEntry ptr).refcount = 0 then _ else _) = refcount at live
  split at live
  · exact (Heap.free_live live).2
  · exact live

theorem Exact.alloc_some (exact : Exact other h blocks links) (granted : h.alloc = (some b, h')) :
    Exact other h' (b :: blocks) links := by
  refine ⟨(exact.toHeapOk.alloc_some granted).1, fun a live => ?_⟩
  obtain ⟨pool, found, rfl⟩ := Heap.alloc_some granted
  by_cases same : a = b
  · exact .inl (List.mem_cons.mpr (.inl same))
  · rw [(Pool.alloc_some found).2.1, Function.update_of_ne same] at live
    exact (exact.only a live).imp_left (List.mem_cons_of_mem _)

theorem Exact.alloc_none (exact : Exact other h blocks links) (denied : h.alloc = (none, h')) :
    Exact other h' blocks links := by
  refine ⟨(exact.toHeapOk.alloc_none denied).1, fun a live => ?_⟩
  obtain ⟨pool, missed, rfl⟩ := Heap.alloc_none denied
  rw [(Pool.alloc_none missed).1] at live
  exact exact.only a live

theorem Exact.free (exact : Exact other h (b :: blocks) links) : Exact other (h.free b) blocks links := by
  refine ⟨exact.toHeapOk.free.1, fun a live => ?_⟩
  obtain ⟨ne, live⟩ := Heap.free_live live
  exact (exact.only a live).imp_left fun member => (List.mem_cons.mp member).resolve_left ne

theorem Exact.pull (exact : Exact other h blocks links) (pending : Pending h blocks links ptr) :
    Exact other (fibEntryPull h ptr) blocks (ptr :: links) :=
  ⟨(exact.toHeapOk.pull pending).1, fun a live =>
    (exact.only a live).imp_right (Or.imp_left (List.mem_cons_of_mem _))⟩

theorem Exact.put (exact : Exact other h blocks (ptr :: links)) :
    Exact other (fibEntryPut h ptr) blocks links := by
  obtain ⟨ok, -, last⟩ := exact.toHeapOk.put
  refine ⟨ok, fun a live => ?_⟩
  have before := exact.only a (fibEntryPut_live live)
  refine before.imp_right (Or.imp_left fun member => ?_)
  rcases List.mem_cons.mp member with rfl | member
  · -- the entry itself stays out only while it is linked
    by_contra gone
    rw [last gone] at live
    cases live
  · exact member

end ExactSteps

/-- A heap with nothing out, whose pool answers with `answer`. -/
def sampleHeap (answer : Nat → Option Nat) : Heap :=
  { pool := { answer, calls := 0, live := fun _ => false, refused := false, doubleFree := false }
    fibEntry := fun _ => ⟨fun _ => 0, 0, fun _ => 0, 0, .link, 0, 0⟩ }

end Ufp.Daemon
