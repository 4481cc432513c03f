/-
# Ufp.Daemon.Fib — the forwarding information base, `src/fib.c`

A FIB is a prefix table in a pool block. `fib_route_update` makes a `fib_entry`
and links it into the table; the table's slots count the references to it, and
the last one to go frees it.
-/
import Ufp.Daemon.Lpm

namespace Ufp.Daemon

set_option autoImplicit false

/-- The address families `fib_route_update` tells apart. -/
inductive Family where
  | inet
  | inet6
  | other
  deriving DecidableEq

/-- The bytes of an address; `none` is the `default` branch. -/
def Family.bytes : Family → Option Nat
  | .inet => some 4
  | .inet6 => some 16
  | .other => none

/-- `memcpy` of `n` bytes. -/
def memcpy (dst src : Bytes) (n : Nat) : Bytes := fun i => if i < n then src i else dst i

/-- `struct fib`, in its block. -/
structure Fib where
  blk : Nat
  table : Table

/-- `fib_alloc`. -/
def fibAlloc (h : Heap) : Option Fib × Heap :=
  match h.alloc with
  | (none, h) => (none, h)
  | (some blk, h) => (some ⟨blk, fun _ => .leaf []⟩, h)

/-- `fib_release`. -/
def fibRelease (fib : Fib) (h : Heap) : Heap := (lpmDeleteAll fib.table h).free fib.blk

/-- `fib_route_update`. -/
def fibRouteUpdate (fib : Fib) (family : Family) (type : FibType) (bytes : Bytes)
    (prefixLen : Nat) (nexthop : Bytes) (portIndex id : Int) (h : Heap) : Bool × Fib × Heap :=
  match h.alloc with
  | (none, h) => (false, fib, h)
  | (some ptr, h) =>
      match family.bytes with
      | none => (false, fib, h.free ptr)
      | some size =>
          let old := h.fibEntry ptr
          let h := h.setEntry ptr
            { nexthop := memcpy old.nexthop nexthop size
              prefixBytes := memcpy old.prefixBytes bytes size
              prefixLen, portIndex, type, id, refcount := 0 }
          match lpmAdd fib.table bytes prefixLen id ptr h with
          | (true, table, h) => (true, { fib with table }, h)
          | (false, table, h) => (false, { fib with table }, h.free ptr)

/-- `fib_route_delete`; the family is only printed. -/
def fibRouteDelete (fib : Fib) (bytes : Bytes) (prefixLen : Nat) (id : Int) (h : Heap) :
    Bool × Fib × Heap :=
  let (ret, table, h) := lpmDelete fib.table bytes prefixLen id h
  (ret, { fib with table }, h)

/-- `fib_lookup`: the block of the `fib_entry` found. -/
def fibLookup (fib : Fib) (destination : Bytes) : Option Nat :=
  match lpmLookup fib.table destination with
  | none => none
  | some entry => some entry.ptr

end Ufp.Daemon
