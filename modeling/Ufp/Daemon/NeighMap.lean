/-
# Ufp.Daemon.NeighMap — a neighbour table is a finite map

`MacMap` is what a neighbour table is for: a partial map from the addresses of a
family to link-layer addresses, with the answers that `neigh_add`, `neigh_delete`
and `neigh_lookup` should give. A run of calls on a new table gives the same
answers (`neighTable_refines_map`), and wherever it stops, each entry is in the
bucket of the address in its own block, and no address is in the table twice.
-/
import Ufp.Daemon.Tables
import Mathlib.Data.Fintype.Basic

namespace Ufp.Daemon

open Ufp.Theory

set_option autoImplicit false

/-! ## Calls and answers -/

inductive NeighCall where
  | add (dst mac : Bytes)
  | delete (dst : Bytes)
  | lookup (dst : Bytes)

/-- What a caller sees: a return value, which is `true` for 0, or the link-layer
address in the entry that a lookup returned. -/
inductive NeighAnswer where
  | returned (ret : Bool)
  | found (mac : Option (List UInt8))
  deriving DecidableEq

/-- A table of one family, and the memory its entries come from. -/
structure NeighState where
  neigh : NeighTable
  heap : Heap

namespace NeighState

/-- One call on a table of `family`. -/
def call (family : Family) (st : NeighState) : NeighCall → NeighAnswer × NeighState
  | .add dst mac =>
      let (ret, neigh, heap) := neighAdd st.neigh family dst mac st.heap
      (.returned ret, ⟨neigh, heap⟩)
  | .delete dst =>
      let (ret, neigh, heap) := neighDelete st.neigh dst st.heap
      (.returned ret, ⟨neigh, heap⟩)
  | .lookup dst => (.found ((neighLookup st.neigh dst).map fun entry => macBytes entry.dstMac), st)

def run (family : Family) (st : NeighState) : List NeighCall → List NeighAnswer × NeighState
  | [] => ([], st)
  | c :: calls =>
      let (answer, st) := st.call family c
      let (answers, st) := st.run family calls
      (answer :: answers, st)

/-- The block that a call takes is granted. -/
def GrantedAt (st : NeighState) : NeighCall → Prop
  | .add _ _ => st.heap.alloc.1.isSome = true
  | _ => True

instance (st : NeighState) : (c : NeighCall) → Decidable (st.GrantedAt c)
  | .add _ _ => inferInstanceAs (Decidable (_ = true))
  | .delete _ => .isTrue trivial
  | .lookup _ => .isTrue trivial

/-- Every block that a run takes is granted. -/
def Granted (family : Family) : NeighState → List NeighCall → Prop
  | _, [] => True
  | st, c :: calls => st.GrantedAt c ∧ Granted family (st.call family c).2 calls

end NeighState

/-! ## Finite maps -/

/-- An address of `n` bytes. -/
abbrev Addr (n : Nat) : Type := Fin n → UInt8

def addrOf (n : Nat) (dst : Bytes) : Addr n := fun i => dst i

theorem addrOf_eq_iff {n : Nat} {a b : Bytes} : addrOf n a = addrOf n b ↔ AddrSame n a b :=
  ⟨fun equal i inside => congrFun equal ⟨i, inside⟩, fun same => funext fun i => same i i.isLt⟩

/-- The bound addresses, each with its link-layer address. -/
abbrev MacMap (n : Nat) : Type := Addr n → Option (List UInt8)

namespace MacMap

variable {n : Nat}

def call (macs : MacMap n) : NeighCall → NeighAnswer × MacMap n
  | .add dst mac =>
      if macs (addrOf n dst) = none then
        (.returned true, Function.update macs (addrOf n dst) (some (macBytes mac)))
      else (.returned false, macs)
  | .delete dst =>
      if macs (addrOf n dst) = none then (.returned false, macs)
      else (.returned true, Function.update macs (addrOf n dst) none)
  | .lookup dst => (.found (macs (addrOf n dst)), macs)

def run (macs : MacMap n) : List NeighCall → List NeighAnswer × MacMap n
  | [] => ([], macs)
  | c :: calls =>
      let (answer, macs) := macs.call c
      let (answers, macs) := macs.run calls
      (answer :: answers, macs)

end MacMap

/-! ## The refinement -/

/-- The entries of all buckets. -/
def NeighTable.entries (neigh : NeighTable) : List (HashEntry NeighEntry) :=
  (List.range (2 ^ hashBit)).flatMap neigh.table.head

/-- The table holds the map: every lookup finds what is bound. The key of an entry
is the address in the entry's own block and its hash is the entry's bucket, which is
a bucket of the table for every key; no address is there twice. The blocks of the
table and of its entries are out, and each is there once. -/
structure NeighState.Holds {n : Nat} (st : NeighState) (macs : MacMap n) : Prop where
  lookup : ∀ a, (neighLookup st.neigh a).map (fun entry => macBytes entry.dstMac) = macs (addrOf n a)
  own : ∀ i, ∀ e ∈ st.neigh.table.head i, e.key = e.owner.dstAddr
  placed : ∀ i, ∀ e ∈ st.neigh.table.head i, st.neigh.table.hashKeyGenerate e.key hashBit = i
  bounded : ∀ key, st.neigh.table.hashKeyGenerate key hashBit < 2 ^ hashBit
  unique : st.neigh.entries.Pairwise fun e e' => ¬ AddrSame n e.key e'.key
  blocks : (st.neigh.blk :: st.neigh.entries.map fun e => e.owner.blk).Nodup
  live : ∀ b ∈ st.neigh.blk :: st.neigh.entries.map (fun e => e.owner.blk), st.heap.pool.live b = true

/-- What a run keeps. -/
structure NeighState.Inv {n : Nat} (st : NeighState) (macs : MacMap n) : Prop where
  ok : st.neigh.Ok n
  bounded : st.neigh.Bounded
  own : ∀ i, ∀ e ∈ st.neigh.table.head i, e.key = e.owner.dstAddr
  placed : Buckets.Placed ok.keyed st.neigh.table.head
  macs : ∀ a, (st.neigh.mac a).map macBytes = macs (addrOf n a)
  heap : HeapOk st.heap (st.neigh.blk :: st.neigh.blocks) []

theorem NeighTable.map_entries (neigh : NeighTable) :
    (neigh.entries.map fun e => e.owner.blk) = neigh.blocks := List.map_flatMap

theorem NeighTable.map_lookup (neigh : NeighTable) (a : Bytes) :
    (neighLookup neigh a).map (fun entry => macBytes entry.dstMac) = (neigh.mac a).map macBytes := by
  rw [NeighTable.mac, Option.map_map]
  rfl

namespace NeighState.Inv

variable {n : Nat} {family : Family} {st : NeighState} {macs : MacMap n}

theorem holds (inv : st.Inv macs) : st.Holds macs where
  lookup := fun a => (st.neigh.map_lookup a).trans (inv.macs a)
  own := inv.own
  placed := inv.placed
  bounded := inv.bounded
  unique := by
    refine (Buckets.distinct inv.ok.buckets inv.placed _).imp fun {e e'} differ same => ?_
    rw [inv.ok.keyed_key, inv.ok.keyed_key, inv.ok.same_iff.mpr same] at differ
    cases differ
  blocks := by
    rw [NeighTable.map_entries]
    exact inv.heap.nodup
  live := by
    rw [NeighTable.map_entries]
    exact inv.heap.live

theorem bound_iff (inv : st.Inv macs) (dst : Bytes) : st.neigh.mac dst = none ↔ macs (addrOf n dst) = none := by
  rw [← inv.macs, Option.map_eq_none_iff]

/-- A table that holds what `NeighDone` says holds the updated map. -/
theorem update_macs (inv : st.Inv macs) {neigh' : NeighTable} {dst : Bytes} {mac : Option (List UInt8)}
    (done : NeighDone n st.neigh neigh' dst mac) (a : Bytes) :
    (neigh'.mac a).map macBytes = Function.update macs (addrOf n dst) mac (addrOf n a) := by
  rw [done.macs, Function.update_apply, inv.macs]
  simp only [addrOf_eq_iff]

theorem add (inv : st.Inv macs) (size : family.bytes = some n) (dst mac : Bytes)
    (granted : st.heap.alloc.1.isSome = true) :
    (st.call family (.add dst mac)).1 = (macs.call (.add dst mac)).1 ∧
      (st.call family (.add dst mac)).2.Inv (macs.call (.add dst mac)).2 := by
  rcases neighAdd_cases inv.ok size dst mac st.heap with
    ⟨h', denied, run⟩ | ⟨blk, h', answer, ⟨bound, run⟩ | ⟨free, run⟩⟩
  · rw [denied] at granted
    cases granted
  · have refuse : macs.call (.add dst mac) = (.returned false, macs) :=
      if_neg fun free => bound ((inv.bound_iff dst).mpr free)
    rw [refuse]
    simp only [NeighState.call, run]
    exact ⟨trivial, inv.ok, inv.bounded, inv.own, inv.placed, inv.macs,
      (inv.heap.alloc_some answer).1.free.1⟩
  · obtain ⟨done, blk', granted', blocks⟩ := neighAdd_done inv.ok inv.bounded size (by rw [run])
    rw [run] at done blocks granted'
    obtain rfl : blk' = blk := Option.some.inj (congrArg Prod.fst (granted'.symm.trans answer))
    have bind : macs.call (.add dst mac) =
        (.returned true, Function.update macs (addrOf n dst) (some (macBytes mac))) :=
      if_pos ((inv.bound_iff dst).mp free)
    rw [bind]
    simp only [NeighState.call, run]
    refine ⟨trivial, done.ok, done.bounded, fun i e member => ?_, inv.placed.insert _, inv.update_macs done, ?_⟩
    · rcases Buckets.mem_insert member with ⟨rfl, -⟩ | old
      · rfl
      · exact inv.own i e old
    · have swap : (blk' :: st.neigh.blk :: st.neigh.blocks).Perm (st.neigh.blk :: _) :=
        (List.Perm.swap _ _ _).trans (blocks.symm.cons _)
      exact (inv.heap.alloc_some answer).1.perm swap (List.Perm.refl _)

theorem delete (inv : st.Inv macs) (dst : Bytes) :
    (st.call family (.delete dst)).1 = (macs.call (.delete dst)).1 ∧
      (st.call family (.delete dst)).2.Inv (macs.call (.delete dst)).2 := by
  rcases neighDelete_cases inv.ok dst st.heap with ⟨absent, run⟩ | ⟨target, found, run⟩
  · have refuse : macs.call (.delete dst) = (.returned false, macs) :=
      if_pos ((inv.bound_iff dst).mp (inv.ok.mac_none.mpr absent))
    rw [refuse]
    simp only [NeighState.call, run]
    exact ⟨trivial, inv⟩
  · obtain ⟨done, blk, freed, blocks⟩ := neighDelete_done inv.ok inv.bounded (by rw [run])
    rw [run] at done blocks freed
    have unbind : macs.call (.delete dst) =
        (.returned true, Function.update macs (addrOf n dst) none) := by
      refine if_neg fun free => ?_
      rw [← inv.bound_iff, inv.ok.mac_none, found] at free
      cases free
    rw [unbind]
    simp only [NeighState.call, run]
    refine ⟨trivial, done.ok, done.bounded, fun i e member => inv.own i e (Buckets.mem_remove member),
      inv.placed.remove dst, inv.update_macs done, ?_⟩
    have owned := inv.heap.perm ((blocks.cons st.neigh.blk).trans (List.Perm.swap _ _ _)) (List.Perm.refl _)
    have kept := owned.free.1
    rw [← freed] at kept
    exact kept

/-- One call. -/
theorem call (inv : st.Inv macs) (size : family.bytes = some n) {c : NeighCall} (granted : st.GrantedAt c) :
    (st.call family c).1 = (macs.call c).1 ∧ (st.call family c).2.Inv (macs.call c).2 := by
  cases c with
  | add dst mac => exact inv.add size dst mac granted
  | delete dst => exact inv.delete dst
  | lookup dst =>
      refine ⟨?_, inv⟩
      show NeighAnswer.found _ = NeighAnswer.found _
      rw [inv.holds.lookup]

/-- Any number of calls. -/
theorem run (inv : st.Inv macs) (size : family.bytes = some n) {calls : List NeighCall}
    (granted : st.Granted family calls) :
    (st.run family calls).1 = (macs.run calls).1 ∧ (st.run family calls).2.Inv (macs.run calls).2 := by
  induction calls generalizing st macs with
  | nil => exact ⟨rfl, inv⟩
  | cons c calls ih =>
      obtain ⟨answer, inv'⟩ := inv.call size granted.1
      obtain ⟨answers, last⟩ := ih inv' granted.2
      refine ⟨?_, last⟩
      show (st.call family c).1 :: ((st.call family c).2.run family calls).1 =
        (macs.call c).1 :: ((macs.call c).2.run calls).1
      rw [answer, answers]

end NeighState.Inv

/-- A new table holds the empty map. -/
theorem neighAlloc_inv {n : Nat} {family : Family} {heap : Heap} {st : NeighState}
    (size : family.bytes = some n) (made : neighAlloc family heap = (some st.neigh, st.heap)) :
    st.Inv (fun _ => none : MacMap n) := by
  obtain ⟨ok, unbound⟩ := neighAlloc_spec size made
  obtain ⟨bounded, blocks⟩ := neighAlloc_bounded made
  have empty : ∀ i, st.neigh.table.head i = [] ∧ heap.alloc = (some st.neigh.blk, st.heap) := by
    obtain ⟨blk, answer, ⟨-, table⟩ | ⟨-, table⟩⟩ := neighAlloc_cases made
    · rw [table]
      exact fun _ => ⟨rfl, answer⟩
    · rw [table]
      exact fun _ => ⟨rfl, answer⟩
  have none : ∀ {i e}, e ∉ st.neigh.table.head i := fun {i e} member => by
    rw [(empty i).1] at member
    cases member
  refine ⟨ok, bounded, fun i e member => absurd member none, fun i e member => absurd member none,
    fun a => by rw [unbound]; rfl, ?_⟩
  rw [blocks]
  exact ((heapOk_nil heap).alloc_some (empty 0).2).1

/-- **A neighbour table refines a finite map.** Let a table of a family be made and
called any number of times, in any order and with any addresses, each entry's block
granted. Then the calls return what the map says: `neigh_add` 0 just when the address
was unbound, `neigh_delete` 0 just when it was bound, `neigh_lookup` the address it
is bound to. The table left behind holds the map, each entry is in the bucket of its
own key, and no key is there twice. A call that returns -1 changes no chain. -/
theorem neighTable_refines_map {n : Nat} {family : Family} (size : family.bytes = some n) {heap : Heap}
    {st : NeighState} (made : neighAlloc family heap = (some st.neigh, st.heap))
    {calls : List NeighCall} (granted : st.Granted family calls) :
    (st.run family calls).1 = (MacMap.run (fun _ => none : MacMap n) calls).1 ∧
      (st.run family calls).2.Holds (MacMap.run (fun _ => none : MacMap n) calls).2 ∧
      ∀ c, ((st.run family calls).2.call family c).1 = .returned false →
        ((st.run family calls).2.call family c).2.neigh = (st.run family calls).2.neigh := by
  obtain ⟨answers, inv⟩ := (neighAlloc_inv size made).run size granted
  refine ⟨answers, inv.holds, fun c failed => ?_⟩
  generalize (st.run family calls).2 = last at inv failed ⊢
  cases c with
  | add dst mac =>
      rcases neighAdd_cases inv.ok size dst mac last.heap with
        ⟨h', -, run⟩ | ⟨blk, h', -, ⟨-, run⟩ | ⟨-, run⟩⟩
      · simp only [NeighState.call, run]
      · simp only [NeighState.call, run]
      · simp only [NeighState.call, run, NeighAnswer.returned.injEq, Bool.true_eq_false] at failed
  | delete dst =>
      rcases neighDelete_cases inv.ok dst last.heap with ⟨-, run⟩ | ⟨target, -, run⟩
      · simp only [NeighState.call, run]
      · simp only [NeighState.call, run, NeighAnswer.returned.injEq, Bool.true_eq_false] at failed
  | lookup dst => rfl

/-- A new table of IPv4 addresses. -/
def sampleNeighState : NeighState :=
  ⟨((neighAlloc .inet (sampleHeap some)).1).get (by decide +kernel), (neighAlloc .inet (sampleHeap some)).2⟩

def sampleNeighCalls : List NeighCall :=
  [.add (fun _ => 10) (fun _ => 1), .add (fun _ => 10) (fun _ => 2), .lookup (fun _ => 10),
    .delete (fun _ => 10), .delete (fun _ => 10), .lookup (fun _ => 10)]

theorem neighTable_refines_map_sample :
    sampleNeighState.Granted .inet sampleNeighCalls ∧
      (sampleNeighState.run .inet sampleNeighCalls).1 =
        [.returned true, .returned false, .found (some [1, 1, 1, 1, 1, 1]), .returned true, .returned false,
          .found none] := by
  have made : neighAlloc .inet (sampleHeap some) = (some sampleNeighState.neigh, sampleNeighState.heap) := rfl
  have granted : sampleNeighState.Granted .inet sampleNeighCalls :=
    ⟨by decide +kernel, by decide +kernel, trivial, trivial, trivial, trivial, trivial⟩
  have size : Family.inet.bytes = some 4 := rfl
  refine ⟨granted, (neighTable_refines_map size made granted).1.trans ?_⟩
  decide +kernel

end Ufp.Daemon
