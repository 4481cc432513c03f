/-
# Ufp.Daemon.Lpm — the multi-level prefix table, `src/lpm.c`

The table has 65536 nodes for the first 16 bits of an address; a node may have a
next table of 256 nodes for the next 8 bits, and so on. Each node holds a list
of entries in descending order of prefix length. A route is linked in every node
of its level that its prefix covers.

A node is a value: `leaf` has no next table, `inner` owns one, kept in a pool
block. An entry is its pool block and the `fib_entry` it points to; the
`fib_entry` itself lives in `Heap.fibEntry` under its block. The callbacks of
`struct lpm_table` are the ones `fib_alloc` installs, and are called by name.
A function's return value 0 is `true`, and -1 is `false` or `none`.
-/
import Ufp.Theory.Pool
import Mathlib.Algebra.Order.Ring.Nat

namespace Ufp.Daemon

open Ufp.Theory (Pool)

set_option autoImplicit false

/-- What an address or prefix pointer points to. -/
abbrev Bytes := Nat → UInt8

/-! ## Forwarding entries -/

/-- `enum fib_type`. -/
inductive FibType where
  | forward
  | link
  | localhost
  deriving DecidableEq

/-- `struct fib_entry`. `refcount` counts table slots, of which there are at most
65536, so it does not overflow. -/
structure FibEntry where
  prefixBytes : Bytes
  prefixLen : Nat
  nexthop : Bytes
  portIndex : Int
  type : FibType
  id : Int
  refcount : Nat

/-- The pool that `ufp_mem_alloc` and `ufp_mem_free` work on, as the tables see it, and the
`fib_entry` in each of its blocks. -/
structure Heap where
  pool : Pool
  fibEntry : Nat → FibEntry

namespace Heap

def alloc (h : Heap) : Option Nat × Heap := (h.pool.alloc.1, { h with pool := h.pool.alloc.2 })

def free (h : Heap) (blk : Nat) : Heap := { h with pool := h.pool.free blk }

def setEntry (h : Heap) (ptr : Nat) (entry : FibEntry) : Heap :=
  { h with fibEntry := Function.update h.fibEntry ptr entry }

end Heap

/-- `fib_entry_identify`; `true` for its return value 0. -/
def fibEntryIdentify (entry : FibEntry) (id : Int) (prefixLen : Nat) : Bool :=
  entry.id == id && entry.prefixLen == prefixLen

/-- `fib_entry_compare`. -/
def fibEntryCompare (entry : FibEntry) (prefixLen : Nat) : Bool := entry.prefixLen > prefixLen

/-- `fib_entry_pull`. -/
def fibEntryPull (h : Heap) (ptr : Nat) : Heap :=
  h.setEntry ptr { h.fibEntry ptr with refcount := (h.fibEntry ptr).refcount + 1 }

/-- `fib_entry_put`; the counter is an `unsigned int`. -/
def fibEntryPut (h : Heap) (ptr : Nat) : Heap :=
  let refcount := if (h.fibEntry ptr).refcount = 0 then 2 ^ 32 - 1 else (h.fibEntry ptr).refcount - 1
  let h := h.setEntry ptr { h.fibEntry ptr with refcount }
  if refcount = 0 then h.free ptr else h

/-! ## Nodes -/

/-- `struct lpm_entry`. -/
structure LpmEntry where
  blk : Nat
  ptr : Nat
  deriving DecidableEq

/-- `struct lpm_node`. -/
inductive Node where
  | leaf (head : List LpmEntry)
  | inner (head : List LpmEntry) (blk : Nat) (table : Nat → Node)

/-- The nodes of a table, by index. -/
abbrev Table := Nat → Node

namespace Node

def head : Node → List LpmEntry
  | .leaf head => head
  | .inner head _ _ => head

def setHead : Node → List LpmEntry → Node
  | .leaf _, head => .leaf head
  | .inner _ blk table, head => .inner head blk table

/-- Neither a next table nor entries. -/
def isEmpty : Node → Bool
  | .leaf [] => true
  | _ => false

end Node

/-- `TABLE_SIZE_16`. -/
def tableSize16 : Nat := 2 ^ 16

/-- `TABLE_SIZE_8`. -/
def tableSize8 : Nat := 2 ^ 8

/-- The scan for a node or entry in a next table. -/
def tableEmpty (table : Table) : Bool := (List.range tableSize8).all fun i => (table i).isEmpty

/-- A 32-bit word of an address in host order. -/
def ntohl (bytes : Bytes) (word : Nat) : Nat :=
  (bytes (4 * word)).toNat * 2 ^ 24 + (bytes (4 * word + 1)).toNat * 2 ^ 16 +
    (bytes (4 * word + 2)).toNat * 2 ^ 8 + (bytes (4 * word + 3)).toNat

/-- `lpm_index`. -/
def lpmIndex (bytes : Bytes) (offset range : Nat) : Nat :=
  let shift := 32 - (offset % 32 + range)
  let word := offset >>> 5
  let mask := (1 <<< range) - 1
  (ntohl bytes word >>> shift) &&& mask

/-- `index & ~(range - 1)` on 32-bit words. -/
def maskIndex (index range : Nat) : Nat := index &&& (2 ^ 32 - range)

/-! ## Entries of one node -/

/-- The scan of `lpm_entry_insert`: `after` is the position behind `prior`. -/
def lpmEntryScan (h : Heap) (id : Int) (prefixLen : Nat) : List LpmEntry → Nat → Nat → Option Nat
  | [], _, after => some after
  | entry :: rest, position, after =>
      if fibEntryIdentify (h.fibEntry entry.ptr) id prefixLen then none
      else lpmEntryScan h id prefixLen rest (position + 1)
        (if fibEntryCompare (h.fibEntry entry.ptr) prefixLen then position + 1 else after)

/-- `lpm_entry_insert`. -/
def lpmEntryInsert (h : Heap) (head : List LpmEntry) (id : Int) (prefixLen : Nat)
    (entry : LpmEntry) : Option (List LpmEntry × Heap) :=
  match lpmEntryScan h id prefixLen head 0 0 with
  | none => none
  | some after => some (head.take after ++ entry :: head.drop after, fibEntryPull h entry.ptr)

/-- `lpm_entry_delete`. -/
def lpmEntryDelete (h : Heap) (id : Int) (prefixLen : Nat) :
    List LpmEntry → Option (List LpmEntry × Heap)
  | [] => none
  | entry :: rest =>
      if fibEntryIdentify (h.fibEntry entry.ptr) id prefixLen then
        some (rest, (fibEntryPut h entry.ptr).free entry.blk)
      else
        match lpmEntryDelete h id prefixLen rest with
        | none => none
        | some (rest, h) => some (entry :: rest, h)

/-- `lpm_entry_delete_all`. -/
def lpmEntryDeleteAll (h : Heap) (head : List LpmEntry) : Heap :=
  head.foldl (fun h entry => (fibEntryPut h entry.ptr).free entry.blk) h

/-! ## Lookup -/

/-- `_lpm_lookup`; a node without a next table has nothing below it. -/
def lpmLookupRec (dst : Bytes) : Node → Nat → Option (List LpmEntry)
  | .leaf _, _ => none
  | .inner _ _ table, offset =>
      let index := lpmIndex dst offset 8
      match lpmLookupRec dst (table index) (offset + 8) with
      | some head => some head
      | none => if (table index).head.isEmpty then none else some (table index).head

/-- `lpm_lookup`. -/
def lpmLookup (table : Table) (dst : Bytes) : Option LpmEntry :=
  let node := table (lpmIndex dst 0 16)
  let head := match lpmLookupRec dst node 16 with
    | some head => head
    | none => node.head
  head.head?

/-! ## Adding a route -/

/-- The loop that links `ptr` into the nodes `index | i`, with `todo` nodes to
go. It also returns how many nodes it has linked. -/
def fillLoop (id : Int) (prefixLen ptr index : Nat) :
    Nat → Nat → Table → Heap → Bool × Nat × Table × Heap
  | 0, i, table, h => (true, i, table, h)
  | todo + 1, i, table, h =>
      match h.alloc with
      | (none, h) => (false, i, table, h)
      | (some blk, h) =>
          match lpmEntryInsert h (table (index ||| i)).head id prefixLen ⟨blk, ptr⟩ with
          | none => (false, i, table, h.free blk)
          | some (head, h) =>
              fillLoop id prefixLen ptr index todo (i + 1)
                (Function.update table (index ||| i) ((table (index ||| i)).setHead head)) h

/-- `err_lpm_add_self`: unlink the first `todo` nodes from `i` on; the result of
`lpm_entry_delete` is not looked at. -/
def rollbackLoop (id : Int) (prefixLen index : Nat) : Nat → Nat → Table → Heap → Table × Heap
  | 0, _, table, h => (table, h)
  | todo + 1, i, table, h =>
      match lpmEntryDelete h id prefixLen (table (index ||| i)).head with
      | none => rollbackLoop id prefixLen index todo (i + 1) table h
      | some (head, h) =>
          rollbackLoop id prefixLen index todo (i + 1)
            (Function.update table (index ||| i) ((table (index ||| i)).setHead head)) h

/-- The next table of `parent`, made if there is none. -/
def ensureTable (parent : Node) (h : Heap) : Option (Nat × Table) × Heap :=
  match parent with
  | .inner _ blk table => (some (blk, table), h)
  | .leaf _ =>
      match h.alloc with
      | (none, h) => (none, h)
      | (some blk, h) => (some (blk, fun _ => .leaf []), h)

/-- `err_lpm_add` of `_lpm_add`: drop the next table if nothing is left in it. -/
def pruneTable (head : List LpmEntry) (blk : Nat) (table : Table) (h : Heap) : Node × Heap :=
  if tableEmpty table then (.leaf head, h.free blk) else (.inner head blk table, h)

/-- `_lpm_add`. Its `entry_allocated` is never incremented. -/
def lpmAddRec (bytes : Bytes) (prefixLen : Nat) (id : Int) (ptr : Nat) (parent : Node)
    (offset : Nat) (h : Heap) : Bool × Node × Heap :=
  match ensureTable parent h with
  | (none, h) => (false, parent, h)
  | (some (blk, table), h) =>
      let index := lpmIndex bytes offset 8
      if prefixLen - offset > 8 then
        match lpmAddRec bytes prefixLen id ptr (table index) (offset + 8) h with
        | (true, node, h) => (true, .inner parent.head blk (Function.update table index node), h)
        | (false, node, h) =>
            (false, pruneTable parent.head blk (Function.update table index node) h)
      else
        let range := 1 <<< (8 - (prefixLen - offset))
        let index := maskIndex index range
        match fillLoop id prefixLen ptr index range 0 table h with
        | (true, _, table, h) => (true, .inner parent.head blk table, h)
        | (false, _, table, h) =>
            let entryAllocated := 0
            let (table, h) := rollbackLoop id prefixLen index entryAllocated 0 table h
            (false, pruneTable parent.head blk table h)
  termination_by prefixLen - offset

/-- `lpm_add`. -/
def lpmAdd (table : Table) (bytes : Bytes) (prefixLen : Nat) (id : Int) (ptr : Nat) (h : Heap) :
    Bool × Table × Heap :=
  let index := lpmIndex bytes 0 16
  if prefixLen > 16 then
    let (ret, node, h) := lpmAddRec bytes prefixLen id ptr (table index) 16 h
    (ret, Function.update table index node, h)
  else
    let range := 1 <<< (16 - prefixLen)
    let index := maskIndex index range
    match fillLoop id prefixLen ptr index range 0 table h with
    | (true, _, table, h) => (true, table, h)
    | (false, entryAllocated, table, h) =>
        (false, rollbackLoop id prefixLen index entryAllocated 0 table h)

/-! ## Deleting a route -/

/-- The loop that unlinks a route from the nodes `index | i`. -/
def deleteLoop (id : Int) (prefixLen index : Nat) : Nat → Nat → Table → Heap → Bool × Table × Heap
  | 0, _, table, h => (true, table, h)
  | todo + 1, i, table, h =>
      match lpmEntryDelete h id prefixLen (table (index ||| i)).head with
      | none => (false, table, h)
      | some (head, h) =>
          deleteLoop id prefixLen index todo (i + 1)
            (Function.update table (index ||| i) ((table (index ||| i)).setHead head)) h

/-- `_lpm_delete`. -/
def lpmDeleteRec (bytes : Bytes) (prefixLen : Nat) (id : Int) (parent : Node) (offset : Nat)
    (h : Heap) : Bool × Node × Heap :=
  match parent with
  | .leaf head => (false, .leaf head, h)
  | .inner head blk table =>
      let index := lpmIndex bytes offset 8
      if prefixLen - offset > 8 then
        match lpmDeleteRec bytes prefixLen id (table index) (offset + 8) h with
        | (true, node, h) => (true, pruneTable head blk (Function.update table index node) h)
        | (false, node, h) => (false, .inner head blk (Function.update table index node), h)
      else
        let range := 1 <<< (8 - (prefixLen - offset))
        let index := maskIndex index range
        match deleteLoop id prefixLen index range 0 table h with
        | (true, table, h) => (true, pruneTable head blk table h)
        | (false, table, h) => (false, .inner head blk table, h)
  termination_by prefixLen - offset

/-- `lpm_delete`. -/
def lpmDelete (table : Table) (bytes : Bytes) (prefixLen : Nat) (id : Int) (h : Heap) :
    Bool × Table × Heap :=
  let index := lpmIndex bytes 0 16
  if prefixLen > 16 then
    let (ret, node, h) := lpmDeleteRec bytes prefixLen id (table index) 16 h
    (ret, Function.update table index node, h)
  else
    let range := 1 <<< (16 - prefixLen)
    let index := maskIndex index range
    deleteLoop id prefixLen index range 0 table h

/-- `_lpm_delete_all`: free all that is below a node. -/
def lpmDeleteAllRec : Node → Heap → Heap
  | .leaf _, h => h
  | .inner _ blk table, h =>
      ((List.range tableSize8).foldl
        (fun h i => lpmEntryDeleteAll (lpmDeleteAllRec (table i) h) (table i).head) h).free blk

/-- `lpm_delete_all`. -/
def lpmDeleteAll (table : Table) (h : Heap) : Heap :=
  (List.range tableSize16).foldl
    (fun h i => lpmEntryDeleteAll (lpmDeleteAllRec (table i) h) (table i).head) h

end Ufp.Daemon
