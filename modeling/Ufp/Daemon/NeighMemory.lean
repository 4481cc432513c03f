/-
# Ufp.Daemon.NeighMemory — the neighbour tables in memory

`hash.c` and `neigh.c` over memory: chains are hlists, an entry is found through the
links of its block, its key is a pointer into that block, and what a block holds when it
comes from the pool or has gone back to it is anybody's guess. Any number of tables live
in one memory and draw on one pool.

The tables of `Ufp.Daemon.Neigh` have chains that are lists, with the contents of each
entry beside it. Here the two are put side by side: `Sim` says that the memory holds the
tables, with an owner for every block that is in use.

* `Sim.alloc`, `Sim.free`, `Sim.write`: blocks that no table owns;
* `Sim.relink`: one chain changes, the other chains of all tables stay;
* `Sim.link`, `Sim.unlink`: an entry comes into a chain or leaves it.

`Ufp.Daemon.NeighMemorySim` follows the calls and whole runs of them.
-/
import Ufp.Daemon.ThreadLife
import Ufp.Lib.Hlist

namespace Ufp.Daemon.InMemory

open Ufp.Theory Ufp.Lib.Hlist
open Ufp.Theory.BackLinked (Cell)

set_option autoImplicit false

/-! ## Memory -/

/-- What the memory of a block holds: the heads of a `struct neigh_table`, and the fields of a
`struct neigh_entry`. -/
structure Fields where
  first : Nat → Option Nat
  next : Option Nat
  prev : Cell (Nat × Nat) Nat
  key : Nat
  dstMac : Bytes
  dstAddr : Bytes

/-- Heads are named by their table's block and their index, entries by their block. `key`
is the block into whose `dst_addr` the key of an entry points. `dirt` is what a block
turns out to hold, each time one comes from the pool or goes back. -/
structure Memory where
  pool : Heap
  links : BackLinked.Heap (Nat × Nat) Nat
  key : Nat → Nat
  dstMac : Nat → Bytes
  dstAddr : Nat → Bytes
  dirt : Nat → Fields
  time : Nat

namespace Memory

/-- The fields of a block hold anything. -/
def scribble (blk : Nat) (mem : Memory) : Memory :=
  let fields := mem.dirt mem.time
  { mem with
    links :=
      { cell := fun
          | .first (b, i) => if b = blk then fields.first i else mem.links.cell (.first (b, i))
          | .next n => if n = blk then fields.next else mem.links.cell (.next n)
        prev := Function.update mem.links.prev blk fields.prev }
    key := Function.update mem.key blk fields.key
    dstMac := Function.update mem.dstMac blk fields.dstMac
    dstAddr := Function.update mem.dstAddr blk fields.dstAddr
    time := mem.time + 1 }

/-- `ufp_mem_alloc`. -/
def alloc (mem : Memory) : Option Nat × Memory :=
  match mem.pool.alloc with
  | (none, pool) => (none, { mem with pool })
  | (some blk, pool) => (some blk, scribble blk { mem with pool })

/-- `ufp_mem_free`. -/
def free (blk : Nat) (mem : Memory) : Memory := scribble blk { mem with pool := mem.pool.free blk }

end Memory

/-! ## `hash.c` -/

/-- `struct hash_table`, with the block that holds its heads. -/
structure HashTable where
  blk : Nat
  hashEntryDelete : Nat → Memory → Memory
  hashKeyGenerate : Bytes → Nat → Nat
  hashKeyCompare : Bytes → Bytes → Bool

/-- `hlist_for_each` with a body that leaves the loop at the first node it looks for. The
outer `none` means that `fuel` is used up. -/
def findLoop {η ν : Type} (found : ν → Bool) (heap : BackLinked.Heap η ν) : Nat → Option ν → Option (Option ν)
  | _, none => some none
  | 0, some _ => none
  | fuel + 1, some entry =>
      if found entry then some (some entry) else findLoop found heap fuel (heap.cell (.next entry))

section Hash

variable (fuel : Nat) (table : HashTable)

/-- The first `n` turns of the loop of `hash_init`. -/
@[irreducible] def initHeads (blk n : Nat) (links : BackLinked.Heap (Nat × Nat) Nat) :
    BackLinked.Heap (Nat × Nat) Nat :=
  (List.range n).foldl (fun links i => hlistInit (blk, i) links) links

/-- `hash_init`. -/
def hashInit (blk : Nat) (mem : Memory) : Memory := { mem with links := initHeads blk (2 ^ hashBit) mem.links }

/-- `hash_entry_init`. -/
def hashEntryInit (entry key : Nat) (mem : Memory) : Memory :=
  { mem with key := Function.update mem.key entry key }

/-- The search of a chain for a key. -/
def chainFind (key : Bytes) (mem : Memory) : Option (Option Nat) :=
  findLoop (fun entry => table.hashKeyCompare key (mem.dstAddr (mem.key entry))) mem.links fuel
    (mem.links.cell (.first (table.blk, table.hashKeyGenerate key hashBit)))

/-- `hash_add`; its key is a pointer into a block. -/
def hashAdd (key entryNew : Nat) (mem : Memory) : Option (Bool × Memory) :=
  let mem := hashEntryInit entryNew key mem
  (chainFind fuel table (mem.dstAddr key) mem).map fun
    | some _ => (false, mem)
    | none =>
        let head := (table.blk, table.hashKeyGenerate (mem.dstAddr key) hashBit)
        (true, { mem with links := hlistAddFirst head entryNew mem.links })

/-- `hlist_del` and `hash_entry_delete`. -/
def entryDelete (entry : Nat) (mem : Memory) : Memory :=
  table.hashEntryDelete entry { mem with links := hlistDel entry mem.links }

/-- `hash_delete`. -/
def hashDelete (key : Bytes) (mem : Memory) : Option (Bool × Memory) :=
  (chainFind fuel table key mem).map fun
    | none => (false, mem)
    | some target => (true, entryDelete table target mem)

/-- `hash_lookup`. -/
def hashLookup (key : Bytes) (mem : Memory) : Option (Option Nat) := chainFind fuel table key mem

/-- The inner loop of `hash_delete_all`, an `hlist_for_each_safe`, from its test on; `temp`
keeps its value. -/
def deleteChain : Nat → Option Nat → Option Nat → Memory → Option (Option Nat × Memory)
  | _, none, temp, mem => some (temp, mem)
  | 0, some _, _, _ => none
  | fuel + 1, some entry, temp, mem =>
      let mem := entryDelete table entry mem
      deleteChain fuel temp (readNext mem.links temp temp) mem

/-- The outer loop of `hash_delete_all`, from bucket `i` on. -/
def deleteChains : (todo i : Nat) → Option Nat → Memory → Option Memory
  | 0, _, _, mem => some mem
  | todo + 1, i, temp, mem =>
      let entry := mem.links.cell (.first (table.blk, i))
      (deleteChain table fuel entry (readNext mem.links entry temp) mem).bind fun (temp, mem) =>
        deleteChains todo (i + 1) temp mem

/-- `hash_delete_all`; `temp` starts out with anything. -/
def hashDeleteAll (temp : Option Nat) (mem : Memory) : Option Memory :=
  deleteChains fuel table (2 ^ hashBit) 0 temp mem

end Hash

/-! ## `neigh.c` -/

section Neigh

variable (fuel : Nat) (table : HashTable)

/-- `neigh_entry_delete`. -/
def neighEntryDelete (entry : Nat) (mem : Memory) : Memory := mem.free entry

/-- `neigh_alloc`. -/
def neighAlloc (family : Family) (mem : Memory) : Option HashTable × Memory :=
  match mem.alloc with
  | (none, mem) => (none, mem)
  | (some blk, mem) =>
      let mem := hashInit blk mem
      match family with
      | .inet => (some ⟨blk, neighEntryDelete, neighKeyGenerateV4, neighKeyCompareV4⟩, mem)
      | .inet6 => (some ⟨blk, neighEntryDelete, neighKeyGenerateV6, neighKeyCompareV6⟩, mem)
      | .other => (none, mem.free blk)

/-- `neigh_release`. -/
def neighRelease (temp : Option Nat) (mem : Memory) : Option Memory :=
  (hashDeleteAll fuel table temp mem).map fun mem => mem.free table.blk

/-- The `memcpy`s of `neigh_add`. -/
def neighFill (entry size : Nat) (dstAddr macAddr : Bytes) (mem : Memory) : Memory :=
  { mem with
    dstMac := Function.update mem.dstMac entry (memcpy (mem.dstMac entry) macAddr ethAlen)
    dstAddr := Function.update mem.dstAddr entry (memcpy (mem.dstAddr entry) dstAddr size) }

/-- `neigh_add`. -/
def neighAdd (family : Family) (dstAddr macAddr : Bytes) (mem : Memory) : Option (Bool × Memory) :=
  match mem.alloc with
  | (none, mem) => some (false, mem)
  | (some entry, mem) =>
      match family.bytes with
      | none => some (false, mem.free entry)
      | some size =>
          (hashAdd fuel table entry entry (neighFill entry size dstAddr macAddr mem)).map fun
            | (true, mem) => (true, mem)
            | (false, mem) => (false, mem.free entry)

/-- `neigh_delete`. -/
def neighDelete (dstAddr : Bytes) (mem : Memory) : Option (Bool × Memory) := hashDelete fuel table dstAddr mem

/-- `neigh_lookup`. -/
def neighLookup (dstAddr : Bytes) (mem : Memory) : Option (Option Nat) := hashLookup fuel table dstAddr mem

end Neigh

/-! ## Runs -/

/-- A call on table `t`. -/
inductive TableUse where
  | alloc (t : Nat) (family : Family)
  | add (t : Nat) (dst mac : Bytes)
  | delete (t : Nat) (dst : Bytes)
  | lookup (t : Nat) (dst : Bytes)
  | release (t : Nat)

/-- A return value, which is `true` for 0 or a pointer; or the block that a lookup returned, with the
link-layer address in it. -/
inductive Reply where
  | returned (ret : Bool)
  | found (entry : Option (Nat × List UInt8))
  deriving DecidableEq

/-- Tables with lists as their chains, by number. -/
structure OnLists where
  heap : Heap
  table : Nat → Option (Family × NeighTable)

/-- Tables in memory. -/
structure InMem where
  mem : Memory
  table : Nat → Option (Family × HashTable)

def OnLists.set (st : OnLists) (t : Nat) (table : Option (Family × NeighTable)) (heap : Heap) : OnLists :=
  ⟨heap, Function.update st.table t table⟩

variable {st : OnLists} {t : Nat} {table : Option (Family × NeighTable)} {heap : Heap}

theorem OnLists.set_self :
    (st.set t table heap).table t = table := Function.update_self ..

theorem OnLists.set_of_ne {t' : Nat} (differs : t' ≠ t) :
    (st.set t table heap).table t' = st.table t' := Function.update_of_ne differs ..

theorem OnLists.set_heap :
    (st.set t table heap).heap = heap := rfl

theorem OnLists.set_set {table' : Option (Family × NeighTable)} {heap' : Heap} :
    (st.set t table heap).set t table' heap' = st.set t table' heap' := by
  rw [set, set, set, Function.update_idem]

def InMem.set (ms : InMem) (t : Nat) (table : Option (Family × HashTable)) (mem : Memory) : InMem :=
  ⟨mem, Function.update ms.table t table⟩

/-- One call; tables are made where there is none, and used where there is one. -/
def OnLists.call (st : OnLists) : TableUse → Reply × OnLists
  | .alloc t family =>
      match st.table t with
      | some _ => (.returned false, st)
      | none =>
          match Daemon.neighAlloc family st.heap with
          | (none, heap) => (.returned false, { st with heap })
          | (some neigh, heap) => (.returned true, st.set t (some (family, neigh)) heap)
  | .add t dst mac =>
      match st.table t with
      | none => (.returned false, st)
      | some (family, neigh) =>
          let (ret, neigh, heap) := Daemon.neighAdd neigh family dst mac st.heap
          (.returned ret, st.set t (some (family, neigh)) heap)
  | .delete t dst =>
      match st.table t with
      | none => (.returned false, st)
      | some (family, neigh) =>
          let (ret, neigh, heap) := Daemon.neighDelete neigh dst st.heap
          (.returned ret, st.set t (some (family, neigh)) heap)
  | .lookup t dst =>
      match st.table t with
      | none => (.returned false, st)
      | some (_, neigh) =>
          (.found ((Daemon.neighLookup neigh dst).map fun entry => (entry.blk, macBytes entry.dstMac)), st)
  | .release t =>
      match st.table t with
      | none => (.returned false, st)
      | some (_, neigh) => (.returned true, st.set t none (Daemon.neighRelease neigh st.heap))

/-- The same call in memory; `temp` is what the variable of that name holds at first. -/
def InMem.call (fuel : Nat) (temp : Option Nat) (ms : InMem) : TableUse → Option (Reply × InMem)
  | .alloc t family =>
      match ms.table t with
      | some _ => some (.returned false, ms)
      | none =>
          match neighAlloc family ms.mem with
          | (none, mem) => some (.returned false, { ms with mem })
          | (some table, mem) => some (.returned true, ms.set t (some (family, table)) mem)
  | .add t dst mac =>
      match ms.table t with
      | none => some (.returned false, ms)
      | some (family, table) =>
          (neighAdd fuel table family dst mac ms.mem).map fun (ret, mem) => (.returned ret, { ms with mem })
  | .delete t dst =>
      match ms.table t with
      | none => some (.returned false, ms)
      | some (_, table) =>
          (neighDelete fuel table dst ms.mem).map fun (ret, mem) => (.returned ret, { ms with mem })
  | .lookup t dst =>
      match ms.table t with
      | none => some (.returned false, ms)
      | some (_, table) =>
          (neighLookup fuel table dst ms.mem).map fun entry =>
            (.found (entry.map fun blk => (blk, macBytes (ms.mem.dstMac blk))), ms)
  | .release t =>
      match ms.table t with
      | none => some (.returned false, ms)
      | some (_, table) =>
          (neighRelease fuel table temp ms.mem).map fun mem => (.returned true, ms.set t none mem)

def OnLists.run (st : OnLists) : List TableUse → List Reply × OnLists
  | [] => ([], st)
  | use :: uses =>
      let (reply, st) := st.call use
      let (replies, st) := st.run uses
      (reply :: replies, st)

def InMem.run (fuel : Nat) (temp : Option Nat) (ms : InMem) : List TableUse → Option (List Reply × InMem)
  | [] => some ([], ms)
  | use :: uses =>
      (ms.call fuel temp use).bind fun (reply, ms) =>
        (ms.run fuel temp uses).map fun (replies, ms) => (reply :: replies, ms)

/-! ## Lists in memory -/

section Links

variable {η ν : Type} {heap : BackLinked.Heap η ν} {c : Cell η ν} {nodes : List ν} {found : ν → Bool} {fuel : Nat}

/-- The search returns the first node of the chain that it looks for. -/
theorem findLoop_chain (chain : BackLinked.Chain heap c nodes) (enough : nodes.length ≤ fuel) :
    findLoop found heap fuel (heap.cell c) = some (nodes.find? found) := by
  induction nodes generalizing c fuel with
  | nil =>
      rw [chain.cell_first]
      cases fuel <;> rfl
  | cons n nodes ih =>
      obtain ⟨points, -, later⟩ := chain
      obtain ⟨fuel, rfl⟩ := Nat.exists_eq_add_one.mpr (Nat.zero_lt_of_lt enough)
      rw [points, findLoop, List.find?_cons]
      cases found n with
      | true => rfl
      | false => exact ih later (Nat.le_of_succ_le_succ enough)

/-- Setting up the heads of a table touches no other hlist. -/
theorem initHeads_hlist {links : BackLinked.Heap (Nat × Nat) Nat} (blk n : Nat) :
    (∀ i < n, IsHlist (initHeads blk n links) (blk, i) []) ∧
      ∀ head nodes, head.1 ≠ blk → IsHlist links head nodes → IsHlist (initHeads blk n links) head nodes := by
  unfold initHeads
  induction n with
  | zero => exact ⟨nofun, fun _ _ _ hlist => hlist⟩
  | succ n ih =>
      obtain ⟨empty, others⟩ := ih
      rw [List.range_succ, List.foldl_append]
      have last := fun heap => @hlistInit_becomes (Nat × Nat) Nat heap (blk, n) _ _
      refine ⟨fun i inside => ?_, fun head nodes apart hlist => ?_⟩
      · by_cases here : i = n
        · subst here
          exact (last _).hlist
        · refine ((last _).others (blk, i) [] ?_ (empty i (by omega)) nofun).1
          exact fun same => here (Prod.mk.inj same).2
      · refine ((last _).others head nodes ?_ (others head nodes apart hlist) fun _ _ => List.not_mem_nil).1
        exact fun same => apart (congrArg Prod.fst same)

theorem hashInit_links (blk : Nat) (mem : Memory) :
    ∃ links, hashInit blk mem = { mem with links } ∧ (∀ i < 2 ^ hashBit, IsHlist links (blk, i) []) ∧
      ∀ head nodes, head.1 ≠ blk → IsHlist mem.links head nodes → IsHlist links head nodes :=
  ⟨_, rfl, initHeads_hlist blk _⟩

end Links

/-! ## Memory holds tables -/

/-- Who uses a block: table `t` for its heads, or for an entry of bucket `i`. -/
inductive Owner where
  | table (t : Nat)
  | entry (t i : Nat)
  deriving DecidableEq

def Owner.of : Owner → Nat
  | .table t => t
  | .entry t _ => t

/-- The blocks of a chain. -/
def blks (entries : List (HashEntry NeighEntry)) : List Nat := entries.map fun entry => entry.owner.blk

/-- The block of an entry holds the entry; bytes beyond the address are not looked at. -/
structure Memory.Holds (mem : Memory) (n : Nat) (entry : HashEntry NeighEntry) : Prop where
  key : mem.key entry.owner.blk = entry.owner.blk
  dstAddr : AddrSame n (mem.dstAddr entry.owner.blk) entry.key
  dstMac : macBytes (mem.dstMac entry.owner.blk) = macBytes entry.owner.dstMac

/-- Memory holds table `t`, whose addresses have `n` bytes and whose chains have at most
`bound` entries. -/
structure Held (mem : Memory) (own : Nat → Option Owner) (bound t n : Nat) (neigh : NeighTable) : Prop where
  compare : ∀ a b, neigh.table.hashKeyCompare a b = decide (AddrSame n a b)
  generate : ∀ {a b}, AddrSame n a b →
    neigh.table.hashKeyGenerate a hashBit = neigh.table.hashKeyGenerate b hashBit
  bounded : neigh.Bounded
  plain : neigh.Plain
  owned : own neigh.blk = some (.table t)
  chain : ∀ i < 2 ^ hashBit, IsHlist mem.links (neigh.blk, i) (blks (neigh.table.head i))
  entry : ∀ i < 2 ^ hashBit, ∀ entry ∈ neigh.table.head i,
    own entry.owner.blk = some (.entry t i) ∧ mem.Holds n entry
  short : ∀ i < 2 ^ hashBit, (neigh.table.head i).length ≤ bound

/-- The table as the code in memory has it. -/
def pointers (neigh : NeighTable) : HashTable :=
  ⟨neigh.blk, neighEntryDelete, neigh.table.hashKeyGenerate, neigh.table.hashKeyCompare⟩

/-- The memory holds all tables, and blocks with an owner are out. -/
structure Sim (st : OnLists) (ms : InMem) (own : Nat → Option Owner) (bound : Nat) : Prop where
  pool : ms.mem.pool = st.heap
  table : ∀ t, ms.table t = (st.table t).map fun (family, neigh) => (family, pointers neigh)
  live : ∀ b, own b ≠ none → st.heap.pool.live b = true
  held : ∀ t family neigh, st.table t = some (family, neigh) →
    ∃ n, family.bytes = some n ∧ Held ms.mem own bound t n neigh

section Held

variable {mem mem' : Memory} {own own' : Nat → Option Owner} {bound bound' t n : Nat} {neigh : NeighTable}

/-- A table does not depend on what is not its own. -/
theorem Held.frame (held : Held mem own bound t n neigh) (more : bound ≤ bound')
    (links : ∀ i nodes, (∀ b ∈ nodes, own b = some (.entry t i)) → IsHlist mem.links (neigh.blk, i) nodes →
      IsHlist mem'.links (neigh.blk, i) nodes)
    (fields : ∀ b i, own b = some (.entry t i) →
      mem'.key b = mem.key b ∧ mem'.dstAddr b = mem.dstAddr b ∧ mem'.dstMac b = mem.dstMac b)
    (kept : ∀ b o, own b = some o → o.of = t → own' b = some o) : Held mem' own' bound' t n neigh where
  compare := held.compare
  generate := held.generate
  bounded := held.bounded
  plain := held.plain
  owned := kept _ _ held.owned rfl
  chain := fun i inside => by
    refine links i _ (fun b among => ?_) (held.chain i inside)
    obtain ⟨entry, member, rfl⟩ := List.mem_map.mp among
    exact (held.entry i inside entry member).1
  entry := fun i inside entry member => by
    obtain ⟨owned, holds⟩ := held.entry i inside entry member
    obtain ⟨key, dstAddr, dstMac⟩ := fields _ _ owned
    exact ⟨kept _ _ owned rfl, key.trans holds.key, dstAddr ▸ holds.dstAddr, dstMac ▸ holds.dstMac⟩
  short := fun i inside => Nat.le_trans (held.short i inside) more

theorem scribble_hlist {b : Nat} {head : Nat × Nat} {nodes : List Nat} (apart : head.1 ≠ b) (absent : b ∉ nodes)
    (hlist : IsHlist mem.links head nodes) : IsHlist (mem.scribble b).links head nodes := by
  have other : ∀ m ∈ nodes, m ≠ b := fun m member same => absent (same ▸ member)
  refine ⟨hlist.chain.congr (fun d inside => ?_) fun m inside => ?_, hlist.nodup⟩
  · rcases BackLinked.mem_cells.mp inside with rfl | ⟨m, member, rfl⟩
    · exact if_neg apart
    · exact if_neg (other m member)
  · exact Function.update_of_ne (other m inside) ..

/-- A block of nobody's may hold anything. -/
theorem Held.scribble {b : Nat} (held : Held mem own bound t n neigh) (free : own b = none) :
    Held (mem.scribble b) own bound t n neigh := by
  have other : ∀ {b' o}, own b' = some o → b' ≠ b := by
    rintro b' o owned rfl
    rw [free] at owned
    cases owned
  refine held.frame (Nat.le_refl _) (fun i nodes owned hlist => ?_) (fun b' i owned => ?_) fun _ _ owned _ => owned
  · exact scribble_hlist (other held.owned) (fun member => other (owned b member) rfl) hlist
  · have apart := other owned
    exact ⟨Function.update_of_ne apart .., Function.update_of_ne apart .., Function.update_of_ne apart ..⟩

theorem Held.withPool (held : Held mem own bound t n neigh) (pool : Heap) :
    Held { mem with pool } own bound t n neigh :=
  held.frame (Nat.le_refl _) (fun _ _ _ hlist => hlist) (fun _ _ _ => ⟨rfl, rfl, rfl⟩) fun _ _ owned _ => owned

end Held

/-- The hlist of bucket `i` of table `t` has become `entries`. Blocks of other buckets and
tables keep their owners. -/
structure Relinks (mem : Memory) (own own' : Nat → Option Owner) (t i blk : Nat)
    (entries : List (HashEntry NeighEntry)) (links : BackLinked.Heap (Nat × Nat) Nat) : Prop where
  becomes : ∃ fresh, Becomes mem.links links (blk, i) (blks entries) fresh ∧ ∀ b ∈ fresh, own b = none
  kept : ∀ b o, own b = some o → o ≠ .entry t i → own' b = some o
  owned : ∀ entry ∈ entries, own' entry.owner.blk = some (.entry t i)

section Relinks

variable {mem : Memory} {own own' : Nat → Option Owner} {bound bound' t i n : Nat} {neigh : NeighTable}
variable {entries : List (HashEntry NeighEntry)} {links : BackLinked.Heap (Nat × Nat) Nat}

/-- Another hlist whose nodes have an owner stays. -/
theorem Relinks.others {blk : Nat} (relinks : Relinks mem own own' t i blk entries links) {head : Nat × Nat}
    {nodes : List Nat} {o : Owner} (apart : head ≠ (blk, i)) (owned : ∀ b ∈ nodes, own b = some o)
    (hlist : IsHlist mem.links head nodes) : IsHlist links head nodes := by
  obtain ⟨fresh, becomes, free⟩ := relinks.becomes
  refine (becomes.others head nodes apart hlist fun b member new => ?_).1
  have mine := owned b member
  rw [free b new] at mine
  cases mine

/-- The table of the bucket. -/
theorem Held.relink (held : Held mem own bound t n neigh)
    (relinks : Relinks mem own own' t i neigh.blk entries links) (holds : ∀ entry ∈ entries, mem.Holds n entry)
    (short : entries.length ≤ bound') (more : bound ≤ bound') :
    Held { mem with links } own' bound' t n (neigh.withHead (Function.update neigh.table.head i entries)) where
  compare := held.compare
  generate := held.generate
  bounded := held.bounded
  plain := held.plain
  owned := relinks.kept _ _ held.owned nofun
  chain := fun j small => by
    show IsHlist links (neigh.blk, j) (blks (Function.update neigh.table.head i entries j))
    by_cases bucket : j = i
    · subst bucket
      obtain ⟨fresh, becomes, -⟩ := relinks.becomes
      rw [Function.update_self]
      exact becomes.hlist
    · rw [Function.update_of_ne bucket]
      refine relinks.others (o := .entry t j) (fun same => bucket (Prod.mk.inj same).2) (fun b among => ?_)
        (held.chain j small)
      obtain ⟨entry, member, rfl⟩ := List.mem_map.mp among
      exact (held.entry j small entry member).1
  entry := fun j small entry member => by
    change entry ∈ Function.update neigh.table.head i entries j at member
    by_cases bucket : j = i
    · subst bucket
      rw [Function.update_self] at member
      exact ⟨relinks.owned entry member, (holds entry member).key, (holds entry member).dstAddr,
        (holds entry member).dstMac⟩
    · rw [Function.update_of_ne bucket] at member
      obtain ⟨before, content⟩ := held.entry j small entry member
      refine ⟨relinks.kept _ _ before fun same => bucket (Owner.entry.inj same).2, ?_⟩
      exact ⟨content.key, content.dstAddr, content.dstMac⟩
  short := fun j small => by
    show (Function.update neigh.table.head i entries j).length ≤ bound'
    by_cases bucket : j = i
    · subst bucket
      rwa [Function.update_self]
    · rw [Function.update_of_ne bucket]
      exact Nat.le_trans (held.short j small) more

/-- Any other table. -/
theorem Held.aside {t' blk : Nat} (held : Held mem own bound t' n neigh)
    (relinks : Relinks mem own own' t i blk entries links) (owned : own blk = some (.table t)) (differs : t' ≠ t)
    (more : bound ≤ bound') : Held { mem with links } own' bound' t' n neigh := by
  have apart : neigh.blk ≠ blk := by
    rintro rfl
    exact differs (Owner.table.inj (Option.some.inj (held.owned.symm.trans owned)))
  refine held.frame more (fun j nodes theirs hlist => ?_) (fun _ _ _ => ⟨rfl, rfl, rfl⟩) fun b o theirs of => ?_
  · exact relinks.others (fun same => apart (Prod.mk.inj same).1) theirs hlist
  · refine relinks.kept b o theirs ?_
    rintro rfl
    exact differs of.symm

end Relinks

/-! ## Blocks that no table owns -/

namespace Sim

variable {st : OnLists} {ms : InMem} {own own' : Nat → Option Owner} {bound bound' : Nat} {b : Nat}

/-- Each table is kept, with its block and its entries. -/
theorem keep (sim : Sim st ms own bound) (mem : Memory) (heap : Heap) (pool : mem.pool = heap)
    (live : ∀ b, own b ≠ none → heap.pool.live b = true)
    (held : ∀ t n neigh, Held ms.mem own bound t n neigh → Held mem own bound t n neigh) :
    Sim { st with heap } { ms with mem } own bound where
  pool := pool
  table := sim.table
  live := live
  held := fun t family neigh here => by
    obtain ⟨n, size, known⟩ := sim.held t family neigh here
    exact ⟨n, size, held t n neigh known⟩

theorem unowned (sim : Sim st ms own bound) (idle : st.heap.pool.live b = false) : own b = none := by
  by_contra owned
  rw [sim.live b owned] at idle
  cases idle

/-- `ufp_mem_alloc` is refused in both, or gives both a block that nobody owns. -/
theorem alloc (sim : Sim st ms own bound) :
    (∃ heap mem, st.heap.alloc = (none, heap) ∧ ms.mem.alloc = (none, mem) ∧
      Sim { st with heap } { ms with mem } own bound) ∨
    ∃ b heap mem, st.heap.alloc = (some b, heap) ∧ ms.mem.alloc = (some b, mem) ∧ own b = none ∧
      heap.pool.live b = true ∧ Sim { st with heap } { ms with mem } own bound := by
  rcases answer : st.heap.alloc with ⟨_ | b, heap⟩
  · left
    obtain ⟨pool, denied, rfl⟩ := Heap.alloc_none answer
    refine ⟨_, { ms.mem with pool := { st.heap with pool } }, rfl, ?_, ?_⟩
    · rw [Memory.alloc, sim.pool, answer]
    · refine sim.keep _ _ rfl (fun b owned => ?_) fun t n neigh held => ?_
      · show pool.live b = true
        rw [(Pool.alloc_none denied).1]
        exact sim.live b owned
      · exact held.withPool _
  · right
    obtain ⟨pool, granted, rfl⟩ := Heap.alloc_some answer
    obtain ⟨idle, live, -, -⟩ := Pool.alloc_some granted
    have free := sim.unowned idle
    refine ⟨b, _, Memory.scribble b { ms.mem with pool := { st.heap with pool } }, rfl, ?_, free, ?_, ?_⟩
    · rw [Memory.alloc, sim.pool, answer]
    · show pool.live b = true
      rw [live, Function.update_self]
    · refine sim.keep _ _ rfl (fun b' owned => ?_) fun t n neigh held => ?_
      · show pool.live b' = true
        rw [live]
        by_cases same : b' = b
        · rw [same, Function.update_self]
        · rw [Function.update_of_ne same]
          exact sim.live b' owned
      · exact (held.withPool _).scribble free

/-- `ufp_mem_free` of a block that nobody owns any more. -/
theorem free (sim : Sim st ms own bound) (free : own b = none) :
    Sim { st with heap := st.heap.free b } { ms with mem := ms.mem.free b } own bound := by
  refine sim.keep _ _ ?_ (fun b' owned => ?_) fun t n neigh held => ?_
  · show ms.mem.pool.free b = _
    rw [sim.pool]
  · have other : b' ≠ b := by
      rintro rfl
      exact owned free
    show (st.heap.pool.free b).live b' = true
    unfold Pool.free
    split
    · exact (Function.update_of_ne other ..).trans (sim.live b' owned)
    · exact sim.live b' owned
  · exact (held.withPool _).scribble free

/-- Stores to the fields of a block that nobody owns. -/
theorem write (sim : Sim st ms own bound) (free : own b = none) (mem : Memory) (pool : mem.pool = ms.mem.pool)
    (links : mem.links = ms.mem.links)
    (fields : ∀ b' ≠ b, mem.key b' = ms.mem.key b' ∧ mem.dstAddr b' = ms.mem.dstAddr b' ∧
      mem.dstMac b' = ms.mem.dstMac b') : Sim st { ms with mem } own bound := by
  refine sim.keep mem st.heap (pool.trans sim.pool) sim.live fun t n neigh held => ?_
  refine held.frame (Nat.le_refl _) (fun _ _ _ hlist => links ▸ hlist) (fun b' i owned => fields b' ?_)
    fun _ _ owned _ => owned
  rintro rfl
  rw [free] at owned
  cases owned

theorem mono (sim : Sim st ms own bound) (more : bound ≤ bound') : Sim st ms own bound' where
  pool := sim.pool
  table := sim.table
  live := sim.live
  held := fun t family neigh here => by
    obtain ⟨n, size, held⟩ := sim.held t family neigh here
    exact ⟨n, size, held.frame more (fun _ _ _ hlist => hlist) (fun _ _ _ => ⟨rfl, rfl, rfl⟩) fun _ _ owned _ => owned⟩

/-! ## One chain changes -/

variable {t i : Nat} {family : Family} {neigh : NeighTable} {entries : List (HashEntry NeighEntry)}

/-- The hlist of one bucket has become another one. -/
theorem relink (sim : Sim st ms own bound) (here : st.table t = some (family, neigh))
    {links : BackLinked.Heap (Nat × Nat) Nat} (relinks : Relinks ms.mem own own' t i neigh.blk entries links)
    (live : ∀ b, own' b ≠ none → st.heap.pool.live b = true)
    (holds : ∀ n, family.bytes = some n → ∀ entry ∈ entries, ms.mem.Holds n entry)
    (short : entries.length ≤ bound') (more : bound ≤ bound') :
    Sim (st.set t (some (family, neigh.withHead (Function.update neigh.table.head i entries))) st.heap)
      { ms with mem := { ms.mem with links } } own' bound' := by
  obtain ⟨n, size, held⟩ := sim.held t family neigh here
  refine ⟨sim.pool, fun t' => ?_, live, fun t' family' neigh' there => ?_⟩
  · rw [sim.table]
    by_cases same : t' = t
    · subst same
      rw [OnLists.set_self, here]
      rfl
    · rw [OnLists.set_of_ne same]
  · by_cases same : t' = t
    · subst same
      rw [OnLists.set_self] at there
      obtain ⟨rfl, rfl⟩ := Prod.mk.inj (Option.some.inj there)
      exact ⟨n, size, held.relink relinks (holds n size) short more⟩
    · rw [OnLists.set_of_ne same] at there
      obtain ⟨n', size', held'⟩ := sim.held t' family' neigh' there
      exact ⟨n', size', held'.aside relinks held.owned same more⟩

/-- `hlist_add_first` of a block that nobody owns, with an entry in it. -/
theorem link (sim : Sim st ms own bound) (entry : HashEntry NeighEntry)
    (here : st.table t = some (family, neigh)) (inside : i < 2 ^ hashBit) (free : own entry.owner.blk = none)
    (live : st.heap.pool.live entry.owner.blk = true)
    (holds : ∀ n, family.bytes = some n → ms.mem.Holds n entry) :
    Sim (st.set t (some (family, neigh.withHead (Function.update neigh.table.head i (entry :: neigh.table.head i))))
        st.heap)
      { ms with mem := { ms.mem with links := hlistAddFirst (neigh.blk, i) entry.owner.blk ms.mem.links } }
      (Function.update own entry.owner.blk (some (.entry t i))) (bound + 1) := by
  obtain ⟨n, size, held⟩ := sim.held t family neigh here
  have other : ∀ {b o}, own b = some o → b ≠ entry.owner.blk := by
    rintro b o owned rfl
    rw [free] at owned
    cases owned
  have absent : entry.owner.blk ∉ blks (neigh.table.head i) := by
    intro among
    obtain ⟨old, member, same⟩ := List.mem_map.mp among
    exact other (held.entry i inside old member).1 same
  have relinks : Relinks ms.mem own (Function.update own entry.owner.blk (some (.entry t i))) t i neigh.blk
      (entry :: neigh.table.head i) (hlistAddFirst (neigh.blk, i) entry.owner.blk ms.mem.links) := by
    refine ⟨⟨_, hlistAddFirst_becomes (held.chain i inside) absent, fun b new => ?_⟩, fun b o owned _ => ?_,
      fun e member => ?_⟩
    · rw [List.mem_singleton.mp new]
      exact free
    · exact (Function.update_of_ne (other owned) ..).trans owned
    · rcases List.mem_cons.mp member with rfl | old
      · exact Function.update_self ..
      · have owned := (held.entry i inside e old).1
        exact (Function.update_of_ne (other owned) ..).trans owned
  refine sim.relink here relinks ?_ ?_ ?_ (Nat.le_succ _)
  · intro b owned
    by_cases same : b = entry.owner.blk
    · rw [same]
      exact live
    · rw [Function.update_of_ne same] at owned
      exact sim.live b owned
  · intro n' size' e member
    obtain rfl := Option.some.inj (size.symm.trans size')
    rcases List.mem_cons.mp member with rfl | old
    · exact holds n size
    · exact (held.entry i inside e old).2
  · exact Nat.succ_le_succ (held.short i inside)

/-- `hlist_del` of an entry of table `t`, and `neigh_entry_delete`. -/
theorem unlink (sim : Sim st ms own bound) (here : st.table t = some (family, neigh)) (inside : i < 2 ^ hashBit)
    {front back : List (HashEntry NeighEntry)} {entry : HashEntry NeighEntry}
    (chain : neigh.table.head i = front ++ entry :: back) :
    Sim (st.set t (some (family, neigh.withHead (Function.update neigh.table.head i (front ++ back))))
        (st.heap.free entry.owner.blk))
      { ms with mem := entryDelete (pointers neigh) entry.owner.blk ms.mem }
      (Function.update own entry.owner.blk none) bound := by
  obtain ⟨n, size, held⟩ := sim.held t family neigh here
  have hlist := held.chain i inside
  have among : ∀ e ∈ front ++ back, e ∈ neigh.table.head i := by
    rw [chain]
    simp only [List.mem_append, List.mem_cons]
    tauto
  have mine : own entry.owner.blk = some (.entry t i) :=
    (held.entry i inside entry (by rw [chain]; exact List.mem_append_right _ List.mem_cons_self)).1
  have split : blks (neigh.table.head i) = blks front ++ entry.owner.blk :: blks back := by
    rw [chain, blks, List.map_append, List.map_cons]
    rfl
  rw [split] at hlist
  have away : ∀ e ∈ front ++ back, e.owner.blk ≠ entry.owner.blk := by
    intro e member same
    have once := (List.nodup_middle.mp hlist.nodup).notMem
    refine once (same ▸ ?_)
    rw [blks, blks, ← List.map_append]
    exact List.mem_map_of_mem member
  have becomes := hlistDel_becomes hlist
  rw [blks, blks, ← List.map_append] at becomes
  have relinks : Relinks ms.mem own (Function.update own entry.owner.blk none) t i neigh.blk (front ++ back)
      (hlistDel entry.owner.blk ms.mem.links) := by
    refine ⟨⟨[], becomes, nofun⟩, fun b o owned differs => ?_, fun e member => ?_⟩
    · refine (Function.update_of_ne ?_ ..).trans owned
      rintro rfl
      exact differs (Option.some.inj (owned.symm.trans mine))
    · exact (Function.update_of_ne (away e member) ..).trans (held.entry i inside e (among e member)).1
  refine (sim.relink here relinks ?_ ?_ ?_ (Nat.le_refl _)).free (Function.update_self ..)
  · intro b owned
    refine sim.live b fun free => owned ?_
    by_cases same : b = entry.owner.blk
    · rw [same, Function.update_self]
    · rw [Function.update_of_ne same, free]
  · intro n' size' e member
    obtain rfl := Option.some.inj (size.symm.trans size')
    exact (held.entry i inside e (among e member)).2
  · refine Nat.le_trans ?_ (held.short i inside)
    rw [chain]
    simp

end Sim

end Ufp.Daemon.InMemory
