/-
# Ufp.Lib.MemNodesRun — whole runs of the buddy allocator over pointers

The allocator of `lib/lib_mem.c` as it is: structs of nodes that point at each other, and
in front of each block a pointer to its struct. `NodeClient` runs any sequence of
allocations, frees and stores on it, next to the `Client` of `Ufp.Lib.MemSafety`, whose
nodes are positions.

`mnode_structs_safe`: in every run whose splits are clean, no call touches a struct that
is not in use, the blocks are those of the other client, the structs in use are the nodes
of its tree, and `ufp_mem_destroy` frees each of them once.
-/
import Ufp.Lib.MemCanon
import Ufp.Lib.MemNodesSim
import Mathlib.Data.Finset.Card
import Mathlib.Data.Finset.Lattice.Fold
import Mathlib.Order.Lattice.Nat

namespace Ufp.Lib.Mem

set_option autoImplicit false

/-! ## The pool -/

/-- One byte of the pool: the client's, or byte `offset` of a pointer to a struct. -/
inductive PtrCell where
  | data (byte : UInt8)
  | header (node offset : Nat)
  deriving DecidableEq

/-- `*header = node`. -/
def storePtr (mem : Nat → PtrCell) (addr node : Nat) : Nat → PtrCell := fun a =>
  if addr ≤ a ∧ a < addr + sizeHeader then .header node (a - addr) else mem a

/-- `*header`, when its eight bytes are those of one pointer. -/
def loadPtr (mem : Nat → PtrCell) (addr : Nat) : Option Nat :=
  match mem addr with
  | .header node 0 =>
      if ∀ k ∈ List.range sizeHeader, mem (addr + k) = .header node k then some node else none
  | _ => none

/-- `struct ufp_mpool` with its structs and its memory. -/
structure NodePool where
  heap : NodeHeap
  node : Nat
  mem : Nat → PtrCell

namespace NodePool

def ufpMemInit (heap : NodeHeap) (ptr size : Nat) : Option NodePool :=
  match heap.ufpMnodeAlloc none ptr size false with
  | (none, _) => none
  | (some node, heap) => some { heap, node, mem := fun _ => .data 0 }

def ufpMemDestroy (fuel : Nat) (pool : NodePool) : Option NodeHeap := pool.heap.ufpMemDestroyRec fuel pool.node

/-- The rest of both allocation functions: the header goes `offset` bytes into the node. -/
def finish (pool : NodePool) (offset : Nat → Nat) : Option Nat × NodeHeap → Option (Option Nat × NodePool)
  | (none, heap) => some (none, { pool with heap })
  | (some node, heap) => do
      let cell ← heap.read node
      let header := cell.ptr + offset cell.ptr
      some (some (header + sizeHeader), { pool with heap, mem := storePtr pool.mem header node })

def ufpMemAlloc (fuel : Nat) (pool : NodePool) (size : Nat) : Option (Option Nat × NodePool) :=
  (pool.heap.ufpMemAllocRec fuel (some pool.node) (sizeHeader + size)).bind (pool.finish fun _ => 0)

def ufpMemAllocAlign (page fuel : Nat) (pool : NodePool) (size align : Nat) : Option (Option Nat × NodePool) :=
  let align := max align page
  (pool.heap.ufpMemAllocRec fuel (some pool.node) (align + sizeHeader + size)).bind
    (pool.finish fun ptr => align - (ptr + sizeHeader) % align)

def ufpMemFree (fuel : Nat) (pool : NodePool) (addr : Nat) : Option NodePool := do
  let node ← loadPtr pool.mem (addr - sizeHeader)
  let heap ← pool.heap.ufpMemFreeRec fuel node
  some { pool with heap }

end NodePool

/-- The same on the tree: what both functions do with the result of the search. -/
def Mpool.finish (pool : Mpool) (offset : Nat → Nat) : Option Path × Mnode × Malloc → Option (Path × Nat) × Mpool
  | (none, tree, malloc) => (none, { pool with node := tree, malloc })
  | (some path, tree, malloc) =>
      let header := (tree.get path).ptr + offset (tree.get path).ptr
      (some (path, header + sizeHeader), { node := tree, mem := storeHeader pool.mem header path, malloc })

theorem ufpMemAlloc_finish (pool : Mpool) (size : Nat) (positive : 0 < sizeHeader + size) :
    ufpMemAlloc pool size =
      pool.finish (fun _ => 0) (ufpMemAllocRec pool.node (sizeHeader + size) positive pool.malloc) := by
  unfold ufpMemAlloc
  rcases ufpMemAllocRec pool.node (sizeHeader + size) positive pool.malloc with ⟨_ | path, tree, malloc⟩
  · rfl
  · rfl

theorem ufpMemAllocAlign_finish (page : Nat) (pool : Mpool) (size align : Nat)
    (positive : 0 < max align page + sizeHeader + size) :
    ufpMemAllocAlign page pool size align =
      pool.finish (fun ptr => max align page - (ptr + sizeHeader) % max align page)
        (ufpMemAllocRec pool.node (max align page + sizeHeader + size) positive pool.malloc) := by
  unfold ufpMemAllocAlign
  dsimp only
  rcases ufpMemAllocRec pool.node (max align page + sizeHeader + size) positive pool.malloc with
    ⟨_ | path, tree, malloc⟩
  · rfl
  · rfl

/-- A pool with the pointers and sizes of the blocks that are out. -/
structure NodeClient where
  pool : NodePool
  live : List (Nat × Nat)

namespace NodeClient

/-- Record what an allocation returned for a request of `size` bytes. -/
def take (n : NodeClient) (size : Nat) : Option Nat × NodePool → NodeClient
  | (none, pool) => { n with pool }
  | (some addr, pool) => { pool, live := (addr, size) :: n.live }

/-- One call; `none` when it goes through a pointer to nowhere. -/
def step (page fuel : Nat) (n : NodeClient) : Call → Option NodeClient
  | .alloc size => (n.pool.ufpMemAlloc fuel size).map (n.take size)
  | .allocAlign size align => (n.pool.ufpMemAllocAlign page fuel size align).map (n.take size)
  | .free addr =>
      (n.pool.ufpMemFree fuel addr).map fun pool => { pool, live := n.live.filter fun b => b.1 ≠ addr }
  | .store addr byte =>
      some { n with pool := { n.pool with mem := Function.update n.pool.mem addr (.data byte) } }

def run (page fuel : Nat) : NodeClient → List Call → Option NodeClient
  | n, [] => some n
  | n, call :: calls => (n.step page fuel call).bind fun n => n.run page fuel calls

end NodeClient

/-- A run of permitted calls whose splits are clean. -/
def Client.CleanRun (page : Nat) : Client → List Call → Client → Prop
  | c, [], c' => c = c'
  | c, call :: calls, c' =>
      c.Permits page call ∧ c.Clean page call ∧ ∃ next, c.step page call = some next ∧ next.CleanRun page calls c'

/-! ## Pointers in memory -/

theorem loadPtr_eq_some {mem : Nat → PtrCell} {addr node : Nat} :
    loadPtr mem addr = some node ↔ ∀ k < sizeHeader, mem (addr + k) = .header node k := by
  unfold loadPtr
  constructor
  · intro loaded
    split at loaded
    · split at loaded
      · rename_i stored
        obtain rfl := Option.some.inj loaded
        exact fun k bound => stored k (List.mem_range.mpr bound)
      · cases loaded
    · cases loaded
  · intro stored
    have first : mem addr = .header node 0 := stored 0 (by decide)
    rw [first]
    exact if_pos fun k member => stored k (List.mem_range.mp member)

theorem loadPtr_store_self (mem : Nat → PtrCell) (addr node : Nat) :
    loadPtr (storePtr mem addr node) addr = some node := by
  rw [loadPtr_eq_some]
  intro k bound
  simp [storePtr, bound]

/-- A pointer is read as before when its bytes are. -/
theorem loadPtr_congr {mem mem' : Nat → PtrCell} {addr node : Nat} (loaded : loadPtr mem addr = some node)
    (same : ∀ k < sizeHeader, mem' (addr + k) = mem (addr + k)) : loadPtr mem' addr = some node := by
  rw [loadPtr_eq_some] at loaded ⊢
  exact fun k bound => (same k bound).trans (loaded k bound)

open Layout

/-! ## How deep a tree is -/

/-- Each step down halves the size. -/
theorem HandedOut.depth {size ptr : Nat} {t : Mnode} (shape : Shape size ptr t) {path : Path} {s p : Nat}
    (out : HandedOut t path s p) : s * 2 ^ path.length ≤ size := by
  induction shape generalizing path with
  | leaf allocated size ptr =>
      cases path with
      | nil =>
          obtain ⟨-, rfl, -⟩ : allocated = true ∧ size = s ∧ ptr = p := by
            simpa [HandedOut, Mnode.get, Mnode.leaf] using out
          simp
      | cons index path => exact absurd out (handedOut_leaf_cons allocated size ptr index path s p)
  | split low high used ih0 ih1 =>
      rename_i size ptr left right
      cases path with
      | nil => exact absurd out (handedOut_split low s p)
      | cons index path =>
          rw [handedOut_cons] at out
          have half : s * 2 ^ path.length ≤ size / 2 := by
            cases index with
            | false => exact ih0 out
            | true => exact ih1 out
          rw [List.length_cons, Nat.pow_succ, ← Nat.mul_assoc]
          omega

theorem Shape.height_le {size ptr : Nat} {t : Mnode} (shape : Shape size ptr t) (solid : t.Solid) :
    t.height ≤ size + 1 := by
  induction shape with
  | leaf allocated size ptr =>
      show max 0 0 + 1 ≤ size + 1
      omega
  | split low high used ih0 ih1 =>
      rename_i size ptr left right
      obtain ⟨solid0, solid1⟩ := solid.children low
      have below0 := ih0 solid0
      have below1 := ih1 solid1
      -- one of the halves holds a block, which has a byte
      have half : 0 < size / 2 := by
        rcases used with used | used
        · obtain ⟨s, p, path, out⟩ := low.occupied used
          have inside := out.inside low
          have positive := solid0 s p ⟨path, out⟩
          omega
        · obtain ⟨s, p, path, out⟩ := high.occupied used
          have inside := out.inside high
          have positive := solid1 s p ⟨path, out⟩
          omega
      show max left.height right.height + 1 ≤ size + 1
      omega

/-- The nodes of a tree. -/
def Mnode.count : Mnode → Nat
  | .null => 0
  | .node _ _ _ child0 child1 => child0.count + child1.count + 1

theorem Layout.nodes_length (t : Layout) : t.nodes.length = t.erase.count := by
  induction t with
  | null => rfl
  | node addr a s p child0 child1 ih0 ih1 =>
      rw [nodes, erase, Mnode.count, List.length_cons, List.length_append, ih0, ih1]

/-- The struct behind a position. -/
theorem Layout.Held.at {h : NodeHeap} {parent : Option Nat} {index : Bool} {t : Layout}
    (held : t.Held h parent index) {path : Path} {x : Nat} (found : t.addrAt path = some x) :
    x ∈ h.live ∧ (h.cell x).ptr = (t.erase.get path).ptr := by
  induction path generalizing t parent index with
  | nil =>
      cases t with
      | null => cases found
      | node addr a s p child0 child1 =>
          obtain rfl : addr = x := Option.some.inj found
          obtain ⟨⟨here, filled, -⟩, -⟩ := held
          exact ⟨here, by rw [filled]; rfl⟩
  | cons i path ih =>
      cases t with
      | null => cases found
      | node addr a s p child0 child1 =>
          cases i with
          | false => exact ih ((held_fork (i := false)).mp held).2.1.1 found
          | true => exact ih ((held_fork (i := true)).mp held).2.1.1 found

theorem Layout.addrAt_some {t : Layout} {path : Path} (node : t.erase.get path ≠ .null) :
    ∃ x, t.addrAt path = some x := by
  induction path generalizing t with
  | nil =>
      cases t with
      | null => exact absurd rfl node
      | node addr a s p child0 child1 => exact ⟨addr, rfl⟩
  | cons i path ih =>
      cases t with
      | null => exact absurd (get_null _) node
      | node addr a s p child0 child1 => cases i <;> exact ih node

/-! ## One call -/

/-- The two clients agree: the structs in use are the nodes of the tree, and in front of
each block there is a pointer to its struct. -/
structure Refines (c : Client) (n : NodeClient) (t : Layout) : Prop where
  held : t.Held n.pool.heap none false
  root : t.addr = some n.pool.node
  tree : t.erase = c.pool.node
  malloc : n.pool.heap.malloc = c.pool.malloc
  all : ∀ x ∈ n.pool.heap.live, x ∈ t.nodes
  live : n.live = c.live.map fun b => (b.addr, b.size)
  header : ∀ b ∈ c.live, ∃ x, t.addrAt b.node = some x ∧ loadPtr n.pool.mem b.start = some x

section Calls

variable {page fuel size ptr : Nat} {c c' : Client} {n : NodeClient} {t t' : Layout} {h' : NodeHeap}

/-- No struct is in use but those of the new tree. -/
theorem Layout.Becomes.all {h : NodeHeap} {parent : Option Nat} {index : Bool} {t : Layout}
    (becomes : Becomes h h' parent index t t') (all : ∀ x ∈ h.live, x ∈ t.nodes) : ∀ x ∈ h'.live, x ∈ t'.nodes := by
  intro x known
  rcases (becomes.live x).mp known with new | ⟨old, out⟩
  · exact new
  · exact absurd (all x old) out

/-- A search over the pointers, from the root. -/
theorem Refines.search (inv : Inv size ptr c) (refines : Refines c n t) (room : size < fuel) {request : Nat}
    (positive : 0 < request) :
    ∃ path ret t' h', n.pool.heap.ufpMemAllocRec fuel (some n.pool.node) request = some (ret, h') ∧
      ufpMemAllocRec c.pool.node request positive c.pool.malloc = (path, t'.erase, h'.malloc) ∧
      t'.Returns ret path ∧ Grows n.pool.heap h' none false t t' := by
  have fits : t.Fits size := .inr ⟨ptr, refines.tree.symm ▸ inv.shape⟩
  have sim := (allocRec_sim room fits : Simulates positive _ t) _ _ _ refines.held
  rwa [refines.root, refines.tree, refines.malloc] at sim

/-- The search has found nothing. -/
theorem Refines.missed (refines : Refines c n t) (grows : Grows n.pool.heap h' none false t t') :
    Refines { c with pool := { c.pool with node := t'.erase, malloc := h'.malloc } }
      { n with pool := { n.pool with heap := h' } } t' where
  held := grows.becomes.held
  root := grows.becomes.root.trans refines.root
  tree := rfl
  malloc := rfl
  all := grows.becomes.all refines.all
  live := refines.live
  header := fun b member => by
    obtain ⟨x, found, loaded⟩ := refines.header b member
    exact ⟨x, grows.sub _ _ found, loaded⟩

/-- The search has found a node: the new block's header goes into it, and reaches no other. -/
theorem Refines.placed (refines : Refines c n t) {path : Path} {x header payload : Nat}
    (grows : Grows n.pool.heap h' none false t t') (found : t'.addrAt path = some x)
    (inv : Inv size ptr
      { pool := { node := t'.erase, mem := storeHeader c.pool.mem header path, malloc := h'.malloc }
        live := ⟨path, header + sizeHeader, payload⟩ :: c.live }) :
    Refines
      { pool := { node := t'.erase, mem := storeHeader c.pool.mem header path, malloc := h'.malloc }
        live := ⟨path, header + sizeHeader, payload⟩ :: c.live }
      { pool := { n.pool with heap := h', mem := storePtr n.pool.mem header x }
        live := (header + sizeHeader, payload) :: n.live } t' where
  held := grows.becomes.held
  root := grows.becomes.root.trans refines.root
  tree := rfl
  malloc := rfl
  all := grows.becomes.all refines.all
  live := by rw [List.map_cons, refines.live]
  header := fun b member => by
    rcases List.mem_cons.mp member with rfl | older
    · exact ⟨x, found, loadPtr_store_self _ _ _⟩
    · obtain ⟨y, known, loaded⟩ := refines.header b older
      refine ⟨y, grows.sub _ _ known, loadPtr_congr loaded fun k bound => if_neg ?_⟩
      have ne : b.node ≠ path := by
        rintro rfl
        exact (List.nodup_cons.mp inv.distinct).1 (List.mem_map.mpr ⟨b, older, rfl⟩)
      have apart := inv.apart member List.mem_cons_self ne
      obtain ⟨s, p, -, low, -⟩ := inv.within b member
      simp only [Block.Apart, Block.start, Block.stop] at apart ⊢
      omega

/-- Both allocation functions, given where the header goes. -/
theorem Refines.finish (inv : Inv size ptr c) (refines : Refines c n t) (room : size < fuel) {request : Nat}
    (positive : 0 < request) (payload : Nat) (offset : Nat → Nat)
    (kept : Inv size ptr (c.take payload
      (c.pool.finish offset (ufpMemAllocRec c.pool.node request positive c.pool.malloc)))) :
    ∃ n' t', ((n.pool.heap.ufpMemAllocRec fuel (some n.pool.node) request).bind (n.pool.finish offset)).map
        (n.take payload) = some n' ∧
      Refines (c.take payload (c.pool.finish offset (ufpMemAllocRec c.pool.node request positive c.pool.malloc)))
        n' t' := by
  obtain ⟨path, ret, t', h', searched, tree, returns, grows⟩ := refines.search inv room positive
  rw [tree] at kept ⊢
  rw [searched, Option.bind_some]
  cases path with
  | none =>
      obtain rfl : ret = none := returns
      exact ⟨_, t', rfl, refines.missed grows⟩
  | some path =>
      obtain ⟨real, found⟩ := returns
      obtain ⟨x, rfl⟩ := Option.ne_none_iff_exists'.mp real
      obtain ⟨here, same⟩ := grows.becomes.held.at found
      refine ⟨_, t', ?_, refines.placed grows found kept⟩
      rw [NodePool.finish, NodeHeap.read_live here]
      dsimp only [Option.bind_eq_bind, Option.bind_some, Option.map_some]
      rw [same]
      rfl

/-- `ufp_mem_free`: the pointer in front of the block is that of its struct. -/
theorem Refines.free (inv : Inv size ptr c) (refines : Refines c n t) (room : size < fuel) {b : Block}
    (member : b ∈ c.live) (kept : ∀ b' ∈ c.live, b'.addr ≠ b.addr →
      ∃ s p, HandedOut (ufpMemFreeRec c.pool.node b.node.reverse) b'.node s p) :
    ∃ pool t', n.pool.ufpMemFree fuel b.addr = some pool ∧
      Refines
        { pool := { c.pool with node := ufpMemFreeRec c.pool.node b.node.reverse }
          live := c.live.filter fun b' => b'.addr ≠ b.addr }
        { pool, live := n.live.filter fun b' => b'.1 ≠ b.addr } t' := by
  obtain ⟨x, found, loaded⟩ := refines.header b member
  obtain ⟨s, p, out, -⟩ := inv.within b member
  rw [← refines.tree] at kept out ⊢
  have shape : Shape size ptr t.erase := refines.tree.symm ▸ inv.shape
  have solid : 0 < s := by
    have all := inv.solid
    rw [← refines.tree] at all
    exact all s p ⟨b.node, out⟩
  have short : b.node.length < fuel := by
    have deep := out.depth shape
    have grows : b.node.length < 2 ^ b.node.length := Nat.lt_two_pow_self
    have more : 2 ^ b.node.length ≤ s * 2 ^ b.node.length := Nat.le_mul_of_pos_left _ solid
    omega
  obtain ⟨h', t', ran, tree, shrinks⟩ := freeRec_root shape out refines.held found short
  refine ⟨{ n.pool with heap := h' }, t', ?_, ?_⟩
  · show (loadPtr n.pool.mem b.start).bind _ = _
    rw [loaded, Option.bind_some]
    show (n.pool.heap.ufpMemFreeRec fuel x).bind _ = _
    rw [ran, Option.bind_some]
  · refine ⟨shrinks.becomes.held, shrinks.becomes.root.trans refines.root, tree,
      shrinks.malloc.trans refines.malloc, shrinks.becomes.all refines.all, ?_, fun b' member' => ?_⟩
    · rw [refines.live, List.filter_map]
      rfl
    · obtain ⟨member', other⟩ := List.mem_filter.mp member'
      obtain ⟨s', p', stays⟩ := kept b' member' (of_decide_eq_true other)
      rw [← tree] at stays
      obtain ⟨y, known⟩ := @addrAt_some t' b'.node (by rw [stays]; exact Mnode.noConfusion)
      obtain ⟨z, before, loaded'⟩ := refines.header b' member'
      obtain rfl : y = z := Option.some.inj ((shrinks.sub _ _ known).symm.trans before)
      exact ⟨y, known, loaded'⟩

/-- A store into a payload reaches no pointer. -/
theorem Refines.store (inv : Inv size ptr c) (refines : Refines c n t) {addr : Nat} {byte : UInt8}
    (permitted : c.Permits page (.store addr byte)) :
    Refines { c with pool := { c.pool with mem := Function.update c.pool.mem addr (.data byte) } }
      { n with pool := { n.pool with mem := Function.update n.pool.mem addr (.data byte) } } t := by
  obtain ⟨b, member, low, high⟩ := permitted
  refine { refines with header := fun b' member' => ?_ }
  obtain ⟨x, found, loaded⟩ := refines.header b' member'
  refine ⟨x, found, loadPtr_congr loaded fun k bound => Function.update_of_ne ?_ _ _⟩
  obtain ⟨s', p', -, header', -⟩ := inv.within b' member'
  have apart : b = b' ∨ b.Apart b' := by
    by_cases same : b.node = b'.node
    · exact .inl (inv.eq_of_node member member' same)
    · exact .inr (inv.apart member member' same)
  unfold Block.start
  rcases apart with rfl | apart
  · omega
  · simp only [Block.Apart, Block.start, Block.stop] at apart high
    omega

/-- One call of both clients. -/
theorem Refines.step (pageSize : 0 < page) (inv : Inv size ptr c) (refines : Refines c n t) (room : size < fuel)
    {call : Call} (permitted : c.Permits page call) (clean : c.Clean page call)
    (ran : c.step page call = some c') : ∃ n' t', n.step page fuel call = some n' ∧ Refines c' n' t' := by
  have inv' : Inv size ptr c' := inv.cleanNext pageSize ⟨call, permitted, clean, ran⟩
  cases call with
  | alloc payload =>
      have positive : 0 < sizeHeader + payload := by unfold sizeHeader; omega
      obtain rfl := Option.some.inj ran
      rw [ufpMemAlloc_finish c.pool payload positive] at inv' ⊢
      exact refines.finish inv room positive payload _ inv'
  | allocAlign payload align =>
      have positive : 0 < max align page + sizeHeader + payload := by unfold sizeHeader; omega
      obtain rfl := Option.some.inj ran
      rw [ufpMemAllocAlign_finish page c.pool payload align positive] at inv' ⊢
      exact refines.finish inv room positive payload _ inv'
  | free addr =>
      obtain ⟨b, member, rfl⟩ := permitted
      obtain ⟨freed, ok⟩ := inv.free_node member
      have kept : ∀ b' ∈ c.live, b'.addr ≠ b.addr →
          ∃ s p, HandedOut (ufpMemFreeRec c.pool.node b.node.reverse) b'.node s p := by
        intro b' member' other
        obtain ⟨s, p, out, -⟩ := inv.within b' member'
        refine ⟨s, p, (ok.others _ _ _).mpr ⟨out, fun same => other ?_⟩⟩
        rw [inv.eq_of_node member' member same]
      obtain ⟨pool, t', ran', refines'⟩ := refines.free inv room member kept
      simp only [Client.step, freed, Option.map_some, Option.some.injEq] at ran
      subst ran
      refine ⟨_, t', ?_, refines'⟩
      rw [NodeClient.step, ran', Option.map_some]
  | store addr byte =>
      obtain rfl := Option.some.inj ran
      exact ⟨_, t, rfl, refines.store inv permitted⟩

end Calls

/-! ## Runs -/

section Runs

variable {page fuel size ptr : Nat} {c c' : Client} {n : NodeClient} {t : Layout} {calls : List Call}

theorem Refines.run (pageSize : 0 < page) (room : size < fuel) (inv : Inv size ptr c) (refines : Refines c n t)
    (run : c.CleanRun page calls c') :
    ∃ n' t', n.run page fuel calls = some n' ∧ Inv size ptr c' ∧ Refines c' n' t' := by
  induction calls generalizing c n t with
  | nil =>
      obtain rfl : c = c' := run
      exact ⟨n, t, rfl, inv, refines⟩
  | cons call calls ih =>
      obtain ⟨permitted, clean, next, ran, later⟩ := run
      obtain ⟨n₁, t₁, stepped, refines₁⟩ := refines.step pageSize inv room permitted clean ran
      have inv₁ := inv.cleanNext pageSize ⟨call, permitted, clean, ran⟩
      obtain ⟨n', t', rest, kept⟩ := ih inv₁ refines₁ later
      exact ⟨n', t', by rw [NodeClient.run, stepped, Option.bind_some, rest], kept⟩

/-- A pool with its first struct. -/
theorem refines_start {heap : NodeHeap} (empty : heap.live = ∅) {pool : NodePool}
    (made : NodePool.ufpMemInit heap ptr size = some pool) :
    ∃ t, Refines (.start ptr size pool.heap.malloc) ⟨pool, []⟩ t := by
  cases granted : heap.malloc.grant heap.malloc.next with
  | false =>
      rw [NodePool.ufpMemInit, NodeHeap.ufpMnodeAlloc_none granted] at made
      cases made
  | true =>
      obtain ⟨addr, h', allocated, out, live, cell, others, malloc⟩ :=
        NodeHeap.ufpMnodeAlloc_some granted none ptr size false
      rw [NodePool.ufpMemInit, allocated] at made
      obtain rfl := Option.some.inj made
      have only : ∀ x, x ∈ h'.live ↔ x = addr := fun x => by rw [live, empty]; simp
      refine ⟨leaf addr false size ptr, held_leaf.mpr ⟨(only addr).mpr rfl, cell⟩, rfl, rfl, rfl, ?_, rfl, ?_⟩
      · intro x known
        exact List.mem_singleton.mpr ((only x).mp known)
      · intro b member
        cases member

/-- The structs in use are the nodes of the tree, and destroying it leaves none. -/
theorem Refines.destroy (inv : Inv size ptr c) (refines : Refines c n t) (room : size < fuel) :
    n.pool.heap.live.card = c.pool.node.count ∧
      ∃ h, n.pool.ufpMemDestroy fuel = some h ∧ h.live = ∅ := by
  have exact_nodes : n.pool.heap.live = t.nodes.toFinset := by
    ext x
    rw [List.mem_toFinset]
    exact ⟨refines.all x, refines.held.stored.live⟩
  constructor
  · rw [exact_nodes, List.toFinset_card_of_nodup refines.held.distinct, t.nodes_length, refines.tree]
  · have low : t.erase.height ≤ fuel := by
      have height := inv.shape.height_le inv.solid
      rw [refines.tree]
      omega
    obtain ⟨h, ran, gone⟩ := destroyRec_sim low n.pool.heap none false n.pool.node refines.held refines.root
      fun x same => by cases same
    refine ⟨h, ran, Finset.eq_empty_of_forall_notMem fun x known => ?_⟩
    obtain ⟨old, out⟩ := (gone.live x).mp known
    exact out (refines.all x old)

/-- **The node structs are handled safely.** In every run whose splits are clean, the code
over pointers touches no struct that is not in use and frees none twice; it hands out the
blocks of the tree model; the structs in use are the nodes of the tree; and at any time
`ufp_mem_destroy` frees each of them once. -/
theorem mnode_structs_safe (pageSize : 0 < page) (room : size < fuel) {heap : NodeHeap} (empty : heap.live = ∅)
    {pool : NodePool} (made : NodePool.ufpMemInit heap ptr size = some pool)
    (run : (Client.start ptr size pool.heap.malloc).CleanRun page calls c) :
    ∃ n, NodeClient.run page fuel ⟨pool, []⟩ calls = some n ∧
      n.live = (c.live.map fun b => (b.addr, b.size)) ∧
      n.pool.heap.live.card = c.pool.node.count ∧
      ∃ h, n.pool.ufpMemDestroy fuel = some h ∧ h.live = ∅ := by
  obtain ⟨t, start⟩ := refines_start empty made
  obtain ⟨n, t', ran, inv, refines⟩ := start.run pageSize room (inv_start ptr size _) run
  exact ⟨n, ran, refines.live, refines.destroy inv room⟩

end Runs

/-- No struct yet, and a `malloc` that always grants, above all structs in use. -/
def sampleNodes : NodeHeap where
  live := ∅
  cell := fun _ => ⟨none, none, none, false, false, 0, 0⟩
  malloc := ⟨fun _ => true, 0⟩
  placement :=
    { pick := fun _ used => used.sup id + 1
      fresh := fun _ used member => by
        have below : id (used.sup id + 1) ≤ used.sup id := Finset.le_sup member
        exact absurd below (Nat.not_succ_le_self _) }

/-- The pool of 256 bytes that `ufp_mem_init` makes with them. -/
def sampleNodePool : NodePool := (NodePool.ufpMemInit sampleNodes 4096 256).get (by decide +kernel)

/-- The tree after two allocations. -/
def sampleTwo : Client :=
  let c := (Client.start 4096 256 sampleNodePool.heap.malloc).take 20
    (ufpMemAlloc (Client.start 4096 256 sampleNodePool.heap.malloc).pool 20)
  c.take 20 (ufpMemAlloc c.pool 20)

/-- And after the first block is freed. -/
def sampleOne : Client := (sampleTwo.step 64 (.free 4104)).get (by decide +kernel)

theorem sampleOne_run :
    (Client.start 4096 256 sampleNodePool.heap.malloc).CleanRun 64 [.alloc 20, .alloc 20, .free 4104] sampleOne := by
  have first : ∀ k, (Client.start 4096 256 sampleNodePool.heap.malloc).pool.malloc.grant k = true := fun _ => rfl
  have next : (Client.start 4096 256 sampleNodePool.heap.malloc).step 64 (.alloc 20) = some _ := rfl
  have second := fun k => (congrFun (Client.step_grant next) k).trans (first k)
  refine ⟨by simp [Client.Permits, sizeHeader], Client.clean_of_granted _ _ first _, _, next,
    by simp [Client.Permits, sizeHeader], Client.clean_of_granted _ _ second _, sampleTwo, rfl, ?_, trivial,
    sampleOne, (Option.some_get _).symm, rfl⟩
  have live : sampleTwo.live.map Block.addr = [4136, 4104] := by decide +kernel
  have member : 4104 ∈ sampleTwo.live.map Block.addr := by rw [live]; decide
  obtain ⟨b, known, same⟩ := List.mem_map.mp member
  exact ⟨b, known, same⟩

/-- Two blocks, and the first of them freed: the root and three splits are in use. -/
theorem mnode_structs_safe_sample :
    ∃ n, NodeClient.run 64 300 ⟨sampleNodePool, []⟩ [.alloc 20, .alloc 20, .free 4104] = some n ∧
      n.live = [(4136, 20)] ∧ n.pool.heap.live.card = 7 ∧
      ∃ h, n.pool.ufpMemDestroy 300 = some h ∧ h.live = ∅ := by
  have made : NodePool.ufpMemInit sampleNodes 4096 256 = some sampleNodePool := (Option.some_get _).symm
  have room : 256 < 300 := by decide
  obtain ⟨n, ran, live, card, destroyed⟩ := mnode_structs_safe (by decide) room rfl made sampleOne_run
  exact ⟨n, ran, live.trans (by decide +kernel), card.trans (by decide +kernel), destroyed⟩

/-- Without clean splits there is no such safety: `malloc` refuses below the split root,
then at the root, which keeps its second child only. That child is handed out below a
root that is out as a whole, and freeing it reads `buddy->allocated` through NULL. -/
example :
    ((NodePool.ufpMemInit { sampleNodes with malloc := ⟨fun k => k < 3 || 5 < k, 0⟩ } 4096 64).bind fun pool =>
      (NodeClient.run 4096 100 ⟨pool, []⟩ [.alloc 8, .alloc 8, .alloc 40, .alloc 20]).map fun n =>
        (n.live, (n.pool.ufpMemFree 100 4136).isNone)) = some ([(4136, 20), (4104, 40)], true) := by
  decide +kernel

end Ufp.Lib.Mem
