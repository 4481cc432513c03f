/-
# Ufp.Lib.Mem — the buddy allocator of `lib/lib_mem.c`

A pool is one address range handed out by a binary tree of `struct ufp_mnode`.
A node pointer is the node's position: the child indices read down from the
root, so `parent` and `index` need no field. The nodes themselves come from
`malloc`, whose answers are a script (`Malloc.grant`); the pool's own bytes are
a memory of cells, because `ufp_mem_free` finds its node through a pointer that
`ufp_mem_alloc` stored in front of the block.

* `ufpMemAllocRec` is `_ufp_mem_alloc`, with its eager split, the fall back to
  the second child and the release of a half-made pair of children;
* `ufpMemFreeRec` is `_ufp_mem_free`, walking up as long as the buddy is free.

Sizes and addresses are naturals: the callers below pass sums that fit `size_t`
into a pool that lies inside the address space.
-/
import Mathlib.Algebra.Order.Ring.Nat
import Mathlib.Data.Nat.Log
import Mathlib.Logic.Function.Basic

namespace Ufp.Lib.Mem

set_option autoImplicit false

/-! ## Nodes -/

/-- `struct ufp_mnode` with everything below it; `null` is the NULL pointer. -/
inductive Mnode where
  | null
  | node (allocated : Bool) (size ptr : Nat) (child0 child1 : Mnode)
  deriving DecidableEq, Repr

/-- A node pointer: child indices from the root, `false` for `child[0]`. -/
abbrev Path := List Bool

namespace Mnode

/-- The `allocated` flag; it is never read through a NULL pointer. -/
def allocated : Mnode → Bool
  | .null => false
  | .node allocated _ _ _ _ => allocated

def size : Mnode → Nat
  | .null => 0
  | .node _ size _ _ _ => size

def ptr : Mnode → Nat
  | .null => 0
  | .node _ _ ptr _ _ => ptr

def child (index : Bool) : Mnode → Mnode
  | .null => .null
  | .node _ _ _ child0 child1 => if index then child1 else child0

/-- The node a pointer refers to. -/
def get : Mnode → Path → Mnode
  | t, [] => t
  | t, index :: path => (t.child index).get path

/-- Write through a node pointer. -/
def modify (f : Mnode → Mnode) : Path → Mnode → Mnode
  | [], t => f t
  | _ :: _, .null => .null
  | false :: path, .node a s p child0 child1 => .node a s p (modify f path child0) child1
  | true :: path, .node a s p child0 child1 => .node a s p child0 (modify f path child1)

/-- `node->allocated = 0`. -/
def clear : Mnode → Mnode
  | .null => .null
  | .node _ s p child0 child1 => .node false s p child0 child1

/-- Both children released: `ufp_mnode_release` also resets the parent's links. -/
def dropChildren : Mnode → Mnode
  | .null => .null
  | .node a s p _ _ => .node a s p .null .null

/-- Bounds the search: a subtree is walked, an unallocated node is halved. -/
def weight : Mnode → Nat
  | .null => 0
  | .node true _ _ child0 child1 => 1 + child0.weight + child1.weight
  | .node false size _ _ _ => size

end Mnode

/-- The `n`-th call of `malloc` succeeds iff `grant n`. -/
structure Malloc where
  grant : Nat → Bool
  next : Nat

def Malloc.advance (m : Malloc) (n : Nat) : Malloc := { m with next := m.next + n }

/-- `ufp_mnode_alloc`. -/
def ufpMnodeAlloc (m : Malloc) (ptr size : Nat) : Mnode × Malloc :=
  (if m.grant m.next then .node false size ptr .null .null else .null, m.advance 1)

/-- The splitting loop of `_ufp_mem_alloc`: the two children on success, what
the loop leaves in `node->child` on failure. -/
def ufpMemSplit (m : Malloc) (size ptr : Nat) (child1 : Mnode) :
    Except (Mnode × Mnode) (Mnode × Mnode) × Malloc :=
  match ufpMnodeAlloc m ptr (size / 2) with
  -- `child[0]` has been overwritten with NULL, `child[1]` not yet
  | (.null, m) => (.error (.null, child1), m)
  | (child0, m) =>
      match ufpMnodeAlloc m (ptr + size / 2) (size / 2) with
      | (.null, m) => (.error (.null, .null), m)
      | (child1, m) => (.ok (child0, child1), m)

/-- A node as `ufp_mnode_alloc` initialises it. -/
def Mnode.leaf (allocated : Bool) (size ptr : Nat) : Mnode := .node allocated size ptr .null .null

theorem ufpMemSplit_eq (m : Malloc) (size ptr : Nat) (child1 : Mnode) :
    ufpMemSplit m size ptr child1 =
      if m.grant m.next then
        if m.grant (m.next + 1) then
          (.ok (.leaf false (size / 2) ptr, .leaf false (size / 2) (ptr + size / 2)), m.advance 2)
        else (.error (.null, .null), m.advance 2)
      else (.error (.null, child1), m.advance 1) := by
  cases first : m.grant m.next with
  | false => simp [ufpMemSplit, ufpMnodeAlloc, first]
  | true =>
      cases second : m.grant (m.next + 1) <;>
        simp [ufpMemSplit, ufpMnodeAlloc, Malloc.advance, Mnode.leaf, first, second]

/-- The children the search descends into: an allocated node keeps its own. -/
def ufpMemChildren (m : Malloc) (allocated : Bool) (size ptr : Nat) (child0 child1 : Mnode) :
    Except (Mnode × Mnode) (Mnode × Mnode) × Malloc :=
  if allocated then (.ok (child0, child1), m) else ufpMemSplit m size ptr child1

theorem ufpMemChildren_weight {m m' : Malloc} {allocated : Bool} {size ptr request : Nat}
    {child0 child1 left right : Mnode} (positive : 0 < request) (large : ¬ size / 2 < request)
    (made : ufpMemChildren m allocated size ptr child0 child1 = (.ok (left, right), m')) :
    left.weight < (Mnode.node allocated size ptr child0 child1).weight ∧
      right.weight < (Mnode.node allocated size ptr child0 child1).weight := by
  cases allocated with
  | true =>
      simp only [ufpMemChildren, if_true, Prod.mk.injEq, Except.ok.injEq] at made
      obtain ⟨⟨rfl, rfl⟩, -⟩ := made
      simp only [Mnode.weight]
      omega
  | false =>
      simp only [ufpMemChildren, Bool.false_eq_true, if_false, ufpMemSplit_eq] at made
      split at made <;> (try split at made) <;>
        simp only [Prod.mk.injEq, Except.ok.injEq, reduceCtorEq, false_and] at made
      obtain ⟨⟨rfl, rfl⟩, -⟩ := made
      simp only [Mnode.leaf, Mnode.weight]
      omega

/-- `_ufp_mem_alloc`: the node found, the tree and the script after the call. -/
def ufpMemAllocRec (node : Mnode) (request : Nat) (positive : 0 < request) (m : Malloc) :
    Option Path × Mnode × Malloc :=
  match node with
  | .null => (none, .null, m)
  | .node allocated size ptr child0 child1 =>
      if _ : size / 2 < request then
        if !allocated && request ≤ size then (some [], .node true size ptr child0 child1, m)
        else (none, .node allocated size ptr child0 child1, m)
      else
        match _ : ufpMemChildren m allocated size ptr child0 child1 with
        | (.error (left, right), m) => (none, .node allocated size ptr left right, m)
        | (.ok (left, right), m) =>
            match ufpMemAllocRec left request positive m with
            | (some path, left, m) => (some (false :: path), .node true size ptr left right, m)
            | (none, left, m) =>
                match ufpMemAllocRec right request positive m with
                | (some path, right, m) => (some (true :: path), .node true size ptr left right, m)
                -- the flag is left alone, and so are children made above
                | (none, right, m) => (none, .node allocated size ptr left right, m)
termination_by node.weight
decreasing_by
  · exact (ufpMemChildren_weight positive ‹_› ‹_›).1
  · exact (ufpMemChildren_weight positive ‹_› ‹_›).2

/-- `_ufp_mem_free`, on the position read from the node up: the head is
`node->index` and the tail is `node->parent`. -/
def ufpMemFreeRec : Mnode → List Bool → Mnode
  | root, [] => root.clear
  | root, index :: parent =>
      let root := root.modify Mnode.clear (index :: parent).reverse
      if (root.get ((!index) :: parent).reverse).allocated then root
      else ufpMemFreeRec (root.modify Mnode.dropChildren parent.reverse) parent

/-! ## The pool's memory -/

/-- One byte of the pool: the client's, or byte `offset` of a stored node pointer. -/
inductive Cell where
  | data (byte : UInt8)
  | header (node : Path) (offset : Nat)
  deriving DecidableEq

/-- `sizeof(void *)`. -/
def sizeHeader : Nat := 8

/-- `*header = node`. -/
def storeHeader (mem : Nat → Cell) (addr : Nat) (node : Path) : Nat → Cell := fun a =>
  if addr ≤ a ∧ a < addr + sizeHeader then .header node (a - addr) else mem a

/-- `*header`, when its eight bytes are those of one node pointer. -/
def loadHeader (mem : Nat → Cell) (addr : Nat) : Option Path :=
  match mem addr with
  | .header node 0 =>
      if ∀ k ∈ List.range sizeHeader, mem (addr + k) = .header node k then some node else none
  | _ => none

/-- `struct ufp_mpool`, its memory and the `malloc` its nodes come from. -/
structure Mpool where
  node : Mnode
  mem : Nat → Cell
  malloc : Malloc

/-- `ufp_mem_init` on `[ptr, ptr + size)`; the memory holds no header yet. -/
def ufpMemInit (ptr size : Nat) (malloc : Malloc) : Mpool :=
  { node := .node false size ptr .null .null, mem := fun _ => .data 0, malloc }

def ufpMemAlloc (pool : Mpool) (size : Nat) : Option (Path × Nat) × Mpool :=
  match ufpMemAllocRec pool.node (sizeHeader + size) (by unfold sizeHeader; omega) pool.malloc with
  | (none, node, malloc) => (none, { pool with node, malloc })
  | (some path, node, malloc) =>
      let header := (node.get path).ptr
      (some (path, header + sizeHeader),
        { node, mem := storeHeader pool.mem header path, malloc })

/-- `ufp_mem_alloc_align`; `page` is `getpagesize()`. -/
def ufpMemAllocAlign (page : Nat) (pool : Mpool) (size align : Nat) :
    Option (Path × Nat) × Mpool :=
  let align := max align page
  match ufpMemAllocRec pool.node (align + sizeHeader + size) (by unfold sizeHeader; omega)
      pool.malloc with
  | (none, node, malloc) => (none, { pool with node, malloc })
  | (some path, node, malloc) =>
      let ptr := (node.get path).ptr
      let offset := align - (ptr + sizeHeader) % align
      (some (path, ptr + offset + sizeHeader),
        { node, mem := storeHeader pool.mem (ptr + offset) path, malloc })

/-- `ufp_mem_free`; `none` when no node pointer is stored in front of `addr`. -/
def ufpMemFree (pool : Mpool) (addr : Nat) : Option Mpool :=
  (loadHeader pool.mem (addr - sizeHeader)).map fun node =>
    { pool with node := ufpMemFreeRec pool.node node.reverse }

end Ufp.Lib.Mem
