/-
# Ufp.Lib.MemSafety — whole runs of the pool's clients

A `Client` is the pool with the blocks handed out and not freed yet. A run is
any sequence of allocations, frees of live pointers and stores into live
payloads. `Inv` ties the two sides: the live blocks sit in the handed-out
leaves, one each, and the eight bytes in front of every block still name its
leaf, so `ufp_mem_free` finds the right node.

* `live_blocks_safe`: with `malloc` succeeding, live blocks stay inside the pool
  and apart, aligned allocations are aligned, and a free releases its own node.
* `failed_alloc_clean`: with `malloc` failing anywhere, the same separation and
  an unchanged tree on NULL, as long as no call splits a node it then abandons.
-/
import Ufp.Lib.MemTree
import Mathlib.Logic.Relation
import Mathlib.Data.List.Nodup

namespace Ufp.Lib.Mem

set_option autoImplicit false

/-! ## Clients -/

/-- A live block: its node, the pointer the client holds and the payload size. -/
structure Block where
  node : Path
  addr : Nat
  size : Nat
  deriving DecidableEq

/-- First byte of the stored node pointer. -/
def Block.start (b : Block) : Nat := b.addr - sizeHeader

/-- One past the last payload byte. -/
def Block.stop (b : Block) : Nat := b.addr + b.size

def Block.Apart (b b' : Block) : Prop := b.stop ≤ b'.start ∨ b'.stop ≤ b.start

instance (b b' : Block) : Decidable (b.Apart b') := by unfold Block.Apart; infer_instance

structure Client where
  pool : Mpool
  live : List Block

inductive Call where
  | alloc (size : Nat)
  | allocAlign (size align : Nat)
  | free (addr : Nat)
  | store (addr : Nat) (byte : UInt8)

/-- Record what an allocation returned for a request of `size` bytes. -/
def Client.take (c : Client) (size : Nat) : Option (Path × Nat) × Mpool → Client
  | (none, pool) => { c with pool }
  | (some (node, addr), pool) => { pool, live := ⟨node, addr, size⟩ :: c.live }

/-- One call; `none` only when `ufp_mem_free` reads no node pointer. -/
def Client.step (page : Nat) (c : Client) : Call → Option Client
  | .alloc size => some (c.take size (ufpMemAlloc c.pool size))
  | .allocAlign size align => some (c.take size (ufpMemAllocAlign page c.pool size align))
  | .free addr =>
      (ufpMemFree c.pool addr).map fun pool =>
        { pool, live := c.live.filter fun b => b.addr ≠ addr }
  | .store addr byte =>
      some { c with pool := { c.pool with mem := Function.update c.pool.mem addr (.data byte) } }

/-- Sums fit `size_t`, only live pointers are freed, only live payload is written. -/
def Client.Permits (page : Nat) (c : Client) : Call → Prop
  | .alloc size => sizeHeader + size < 2 ^ 64
  | .allocAlign size align => max align page + sizeHeader + size < 2 ^ 64
  | .free addr => ∃ b ∈ c.live, b.addr = addr
  | .store addr _ => ∃ b ∈ c.live, b.addr ≤ addr ∧ addr < b.stop

/-- The call leaves no children behind under an unallocated node. -/
def Client.Clean (page : Nat) (c : Client) : Call → Prop
  | .alloc size => CleanSplits (c.pool.node.candidates (sizeHeader + size)) c.pool.malloc
  | .allocAlign size align =>
      CleanSplits (c.pool.node.candidates (max align page + sizeHeader + size)) c.pool.malloc
  | _ => True

/-- One permitted call. -/
def Client.Next (page : Nat) (c c' : Client) : Prop :=
  ∃ call, c.Permits page call ∧ c.step page call = some c'

/-- One permitted call whose splits are clean. -/
def Client.CleanNext (page : Nat) (c c' : Client) : Prop :=
  ∃ call, c.Permits page call ∧ c.Clean page call ∧ c.step page call = some c'

/-- A client before its first call. -/
def Client.start (ptr size : Nat) (malloc : Malloc) : Client :=
  { pool := ufpMemInit ptr size malloc, live := [] }

/-! ## Headers in memory -/

variable {size ptr page addr payload : Nat} {c c' : Client} {b b' : Block} {mem : Nat → Cell}

theorem loadHeader_eq_some {node : Path} :
    loadHeader mem addr = some node ↔ ∀ k < sizeHeader, mem (addr + k) = .header node k := by
  unfold loadHeader
  constructor
  · intro loaded
    split at loaded
    · split at loaded
      · rename_i stored
        simp only [Option.some.injEq] at loaded
        subst loaded
        exact fun k bound => stored k (List.mem_range.mpr bound)
      · simp at loaded
    · simp at loaded
  · intro stored
    have first : mem addr = .header node 0 := stored 0 (by decide)
    rw [first]
    exact if_pos fun k member => stored k (List.mem_range.mp member)

theorem loadHeader_store_self (mem : Nat → Cell) (addr : Nat) (node : Path) :
    loadHeader (storeHeader mem addr node) addr = some node := by
  rw [loadHeader_eq_some]
  intro k bound
  simp [storeHeader, bound]

theorem loadHeader_store_apart {other : Nat} (node : Path)
    (apart : other + sizeHeader ≤ addr ∨ addr + sizeHeader ≤ other) :
    loadHeader (storeHeader mem addr node) other = loadHeader mem other := by
  have same : ∀ k < sizeHeader, storeHeader mem addr node (other + k) = mem (other + k) := by
    intro k bound
    unfold storeHeader
    rw [if_neg]
    omega
  ext found
  rw [loadHeader_eq_some, loadHeader_eq_some]
  exact forall₂_congr fun k bound => by rw [same k bound]

theorem loadHeader_update_apart {other : Nat} (cell : Cell) (apart : addr < other ∨ other + sizeHeader ≤ addr) :
    loadHeader (Function.update mem addr cell) other = loadHeader mem other := by
  have same : ∀ k < sizeHeader, Function.update mem addr cell (other + k) = mem (other + k) := by
    intro k bound
    exact Function.update_of_ne (by omega) _ _
  ext found
  rw [loadHeader_eq_some, loadHeader_eq_some]
  exact forall₂_congr fun k bound => by rw [same k bound]

/-! ## The invariant -/

/-- `b` and its stored pointer lie in the handed-out node `b` names. -/
def Block.Within (b : Block) (t : Mnode) : Prop :=
  ∃ s p, HandedOut t b.node s p ∧ p + sizeHeader ≤ b.addr ∧ b.stop ≤ p + s

structure Inv (size ptr : Nat) (c : Client) : Prop where
  shape : Shape size ptr c.pool.node
  distinct : (c.live.map Block.node).Nodup
  backed : ∀ path s p, HandedOut c.pool.node path s p → path ∈ c.live.map Block.node
  within : ∀ b ∈ c.live, b.Within c.pool.node
  header : ∀ b ∈ c.live, loadHeader c.pool.mem b.start = some b.node

theorem inv_start (ptr size : Nat) (malloc : Malloc) : Inv size ptr (.start ptr size malloc) where
  shape := .leaf false size ptr
  distinct := List.nodup_nil
  backed := fun path s p out => absurd out (handedOut_free size ptr path s p)
  within := by simp [Client.start]
  header := by simp [Client.start]

/-- Blocks in different nodes keep their headers and payloads apart. -/
theorem Block.Within.apart {t : Mnode} (shape : Shape size ptr t) (within : b.Within t) (within' : b'.Within t)
    (ne : b.node ≠ b'.node) : b.Apart b' := by
  obtain ⟨s, p, out, low, high⟩ := within
  obtain ⟨s', p', out', low', high'⟩ := within'
  have := out.disjoint shape out' ne
  unfold Block.Apart Block.start
  omega

theorem Inv.apart (inv : Inv size ptr c) (member : b ∈ c.live) (member' : b' ∈ c.live) (ne : b.node ≠ b'.node) :
    b.Apart b' :=
  (inv.within b member).apart inv.shape (inv.within b' member') ne

theorem Inv.eq_of_node (inv : Inv size ptr c) (member : b ∈ c.live) (member' : b' ∈ c.live) (same : b.node = b'.node) :
    b = b' :=
  List.inj_on_of_nodup_map inv.distinct member member' same

/-- Two live blocks with one pointer are one block. -/
theorem Inv.eq_of_addr (inv : Inv size ptr c) (member : b ∈ c.live) (member' : b' ∈ c.live) (same : b.addr = b'.addr) :
    b = b' := by
  by_contra ne
  have apart := inv.apart member member' (fun node => ne (inv.eq_of_node member member' node))
  obtain ⟨s, p, -, low, -⟩ := inv.within b member
  unfold Block.Apart Block.start Block.stop sizeHeader at apart
  unfold sizeHeader at low
  omega

theorem Inv.pairwise (inv : Inv size ptr c) : c.live.Pairwise Block.Apart := by
  have distinct : c.live.Pairwise fun b b' => b.node ≠ b'.node :=
    List.pairwise_map.mp inv.distinct
  exact distinct.imp_of_mem fun member member' ne => inv.apart member member' ne

/-! ## One call -/

/-- A new block placed in the leaf a search handed out. -/
theorem Inv.place (inv : Inv size ptr c) {request : Nat} {t' : Mnode} {path : Path} {s p : Nat}
    (shape : Shape size ptr t') (ok : AllocOk request c.pool.node t' path) (out : HandedOut t' path s p)
    {header : Nat} (malloc : Malloc) (low : p ≤ header) (high : header + sizeHeader + payload ≤ p + s) :
    Inv size ptr
      { pool := { node := t', mem := storeHeader c.pool.mem header path, malloc }
        live := ⟨path, header + sizeHeader, payload⟩ :: c.live } := by
  have fresh : path ∉ c.live.map Block.node := by
    intro member
    obtain ⟨b, member, same⟩ := List.mem_map.mp member
    obtain ⟨s', p', out', -⟩ := inv.within b member
    exact ok.fresh s' p' (same ▸ out')
  have within : ∀ b ∈ c.live, b.Within t' := by
    intro b member
    obtain ⟨s', p', out', bounds⟩ := inv.within b member
    refine ⟨s', p', (ok.others b.node ?_ s' p').mpr out', bounds⟩
    exact fun same => fresh (same ▸ List.mem_map_of_mem member)
  refine { shape, distinct := ?_, backed := ?_, within := ?_, header := ?_ }
  · exact List.nodup_cons.mpr ⟨fresh, inv.distinct⟩
  · intro q s' p' out'
    by_cases same : q = path
    · simp [same]
    · exact List.mem_cons_of_mem _ (inv.backed q s' p' ((ok.others q same s' p').mp out'))
  · intro b member
    rcases List.mem_cons.mp member with rfl | member
    · exact ⟨s, p, out, by simpa using low, by simpa [Block.stop] using high⟩
    · exact within b member
  · intro b member
    rcases List.mem_cons.mp member with rfl | member
    · simpa [Block.start] using loadHeader_store_self c.pool.mem header path
    · -- an older block sits in another leaf, which the new header cannot reach
      obtain ⟨s', p', out', low', high'⟩ := within b member
      have ne : b.node ≠ path := fun same => fresh (same ▸ List.mem_map_of_mem member)
      have apart := out'.disjoint shape out ne
      rw [loadHeader_store_apart]
      · exact inv.header b member
      · unfold Block.start
        unfold Block.stop at high'
        omega

theorem HandedOut.get_ptr {t : Mnode} {path : Path} {s p : Nat} (out : HandedOut t path s p) :
    (t.get path).ptr = p := by
  rw [out]
  rfl

/-- `ufp_mem_alloc` on a reachable pool whose splits are clean. -/
theorem Inv.alloc (inv : Inv size ptr c) (payload : Nat)
    (clean : CleanSplits (c.pool.node.candidates (sizeHeader + payload)) c.pool.malloc) :
    Inv size ptr (c.take payload (ufpMemAlloc c.pool payload)) ∧
      ((ufpMemAlloc c.pool payload).1 = none →
        (ufpMemAlloc c.pool payload).2.node = c.pool.node) := by
  have positive : 0 < sizeHeader + payload := by unfold sizeHeader; omega
  rcases ufpMemAllocRec_clean inv.shape (sizeHeader + payload) positive c.pool.malloc clean with
    ⟨m', missed⟩ | ⟨path, t', m', found, shape, ok⟩
  · have ran : ufpMemAlloc c.pool payload = (none, { c.pool with malloc := m' }) := by
      simp only [ufpMemAlloc, missed]
    rw [ran]
    exact ⟨⟨inv.shape, inv.distinct, inv.backed, inv.within, inv.header⟩, fun _ => rfl⟩
  · obtain ⟨s, p, out, fits, -⟩ := ok.found
    have ran : ufpMemAlloc c.pool payload = (some (path, p + sizeHeader),
        { node := t', mem := storeHeader c.pool.mem p path, malloc := m' }) := by
      simp only [ufpMemAlloc, found, out.get_ptr]
    rw [ran]
    exact ⟨inv.place shape ok out m' le_rfl (by omega), by simp⟩

/-- `ufp_mem_alloc_align`: the header stays inside the leaf and the payload
starts on a multiple of the alignment. -/
theorem Inv.allocAlign (pageSize : 0 < page) (inv : Inv size ptr c) (payload align : Nat)
    (clean : CleanSplits (c.pool.node.candidates (max align page + sizeHeader + payload))
      c.pool.malloc) :
    Inv size ptr (c.take payload (ufpMemAllocAlign page c.pool payload align)) ∧
      ((ufpMemAllocAlign page c.pool payload align).1 = none →
        (ufpMemAllocAlign page c.pool payload align).2.node = c.pool.node) ∧
      ∀ path addr pool, ufpMemAllocAlign page c.pool payload align = (some (path, addr), pool) →
        max align page ∣ addr := by
  have positive : 0 < max align page + sizeHeader + payload := by unfold sizeHeader; omega
  rcases ufpMemAllocRec_clean inv.shape (max align page + sizeHeader + payload) positive
      c.pool.malloc clean with ⟨m', missed⟩ | ⟨path, t', m', found, shape, ok⟩
  · have ran : ufpMemAllocAlign page c.pool payload align =
        (none, { c.pool with malloc := m' }) := by
      simp only [ufpMemAllocAlign, missed]
    rw [ran]
    exact ⟨⟨inv.shape, inv.distinct, inv.backed, inv.within, inv.header⟩, fun _ => rfl, by simp⟩
  · obtain ⟨s, p, out, fits, -⟩ := ok.found
    have large : 0 < max align page := by omega
    have rest := Nat.mod_lt (p + sizeHeader) large
    have ran : ufpMemAllocAlign page c.pool payload align =
        (some (path, p + (max align page - (p + sizeHeader) % max align page) + sizeHeader),
          { node := t'
            mem := storeHeader c.pool.mem
              (p + (max align page - (p + sizeHeader) % max align page)) path
            malloc := m' }) := by
      simp only [ufpMemAllocAlign, found, out.get_ptr]
    rw [ran]
    refine ⟨inv.place shape ok out m' (by omega) (by omega), (fun none => by cases none), ?_⟩
    intro path' addr pool same
    simp only [Prod.mk.injEq, Option.some.injEq] at same
    obtain ⟨⟨-, rfl⟩, -⟩ := same
    have split := Nat.mod_add_div (p + sizeHeader) (max align page)
    refine ⟨(p + sizeHeader) / max align page + 1, ?_⟩
    rw [Nat.mul_add, Nat.mul_one]
    omega

/-- A refused request that changes nothing has left no children behind. -/
theorem Inv.alloc_unchanged (inv : Inv size ptr c) (refused : (ufpMemAlloc c.pool payload).1 = none)
    (same : (ufpMemAlloc c.pool payload).2.node = c.pool.node) :
    CleanSplits (c.pool.node.candidates (sizeHeader + payload)) c.pool.malloc := by
  rw [ufpMemAlloc] at refused same
  split at refused
  · rename_i node malloc missed
    rw [missed] at same
    exact ufpMemAllocRec_unchanged inv.shape (missed.trans (congrArg (fun n => (none, n, malloc)) same))
  · cases refused

theorem Inv.allocAlign_unchanged (inv : Inv size ptr c) {align : Nat}
    (refused : (ufpMemAllocAlign page c.pool payload align).1 = none)
    (same : (ufpMemAllocAlign page c.pool payload align).2.node = c.pool.node) :
    CleanSplits (c.pool.node.candidates (max align page + sizeHeader + payload)) c.pool.malloc := by
  rw [ufpMemAllocAlign] at refused same
  split at refused
  · rename_i node malloc missed
    rw [missed] at same
    exact ufpMemAllocRec_unchanged inv.shape (missed.trans (congrArg (fun n => (none, n, malloc)) same))
  · cases refused

/-- `ufp_mem_free` on a live pointer: the stored header names the block's node,
and exactly that node is given back. -/
theorem Inv.free_node (inv : Inv size ptr c) (member : b ∈ c.live) :
    ufpMemFree c.pool b.addr =
        some { c.pool with node := ufpMemFreeRec c.pool.node b.node.reverse } ∧
      FreeOk size ptr c.pool.node (ufpMemFreeRec c.pool.node b.node.reverse) b.node := by
  have stored : loadHeader c.pool.mem (b.addr - sizeHeader) = some b.node := inv.header b member
  obtain ⟨s, p, out, -⟩ := inv.within b member
  exact ⟨by simp [ufpMemFree, stored], ufpMemFreeRec_spec inv.shape out⟩

theorem Inv.free (inv : Inv size ptr c) (permitted : c.Permits page (.free addr))
    (ran : c.step page (.free addr) = some c') : Inv size ptr c' := by
  obtain ⟨b, member, rfl⟩ := permitted
  obtain ⟨freed, ok⟩ := inv.free_node member
  simp only [Client.step, freed, Option.map_some, Option.some.injEq] at ran
  subst ran
  have kept : ∀ b' ∈ c.live.filter (fun b' => b'.addr ≠ b.addr), b' ∈ c.live ∧ b'.node ≠ b.node := by
    intro b' member'
    simp only [List.mem_filter, decide_eq_true_eq] at member'
    refine ⟨member'.1, fun same => member'.2 ?_⟩
    rw [inv.eq_of_node member'.1 member same]
  refine { shape := ok.shape, distinct := ?_, backed := ?_, within := ?_, header := ?_ }
  · exact inv.distinct.sublist (List.filter_sublist.map _)
  · intro path s p out
    obtain ⟨out, ne⟩ := (ok.others path s p).mp out
    obtain ⟨b', member', rfl⟩ := List.mem_map.mp (inv.backed path s p out)
    refine List.mem_map_of_mem (List.mem_filter.mpr ⟨member', ?_⟩)
    simp only [decide_eq_true_eq]
    exact fun same => ne (by rw [inv.eq_of_addr member' member same])
  · intro b' member'
    obtain ⟨member', ne⟩ := kept b' member'
    obtain ⟨s, p, out, bounds⟩ := inv.within b' member'
    exact ⟨s, p, (ok.others b'.node s p).mpr ⟨out, ne⟩, bounds⟩
  · intro b' member'
    exact inv.header b' (kept b' member').1

/-- A store into a live payload reaches no stored node pointer. -/
theorem Inv.store (inv : Inv size ptr c) {byte : UInt8} (permitted : c.Permits page (.store addr byte)) :
    Inv size ptr
      { c with pool := { c.pool with mem := Function.update c.pool.mem addr (.data byte) } } := by
  obtain ⟨b, member, low, high⟩ := permitted
  refine { inv with header := fun b' member' => ?_ }
  have apart : b = b' ∨ b.Apart b' := by
    by_cases same : b.node = b'.node
    · exact .inl (inv.eq_of_node member member' same)
    · exact .inr (inv.apart member member' same)
  obtain ⟨s, p, -, header, -⟩ := inv.within b member
  obtain ⟨s', p', -, header', -⟩ := inv.within b' member'
  rw [loadHeader_update_apart]
  · exact inv.header b' member'
  · unfold Block.start
    rcases apart with rfl | apart
    · omega
    · unfold Block.Apart Block.start Block.stop at *
      omega

/-- Every permitted call with clean splits keeps the invariant. -/
theorem Inv.cleanNext (pageSize : 0 < page) (inv : Inv size ptr c) (next : c.CleanNext page c') :
    Inv size ptr c' := by
  obtain ⟨call, permitted, clean, ran⟩ := next
  cases call with
  | alloc payload =>
      simp only [Client.step, Option.some.injEq] at ran
      exact ran ▸ (inv.alloc payload clean).1
  | allocAlign payload align =>
      simp only [Client.step, Option.some.injEq] at ran
      exact ran ▸ (inv.allocAlign pageSize payload align clean).1
  | free addr => exact inv.free permitted ran
  | store addr byte =>
      simp only [Client.step, Option.some.injEq] at ran
      exact ran ▸ inv.store permitted

theorem Inv.of_run (pageSize : 0 < page) {malloc : Malloc}
    (run : Relation.ReflTransGen (Client.CleanNext page) (.start ptr size malloc) c) : Inv size ptr c := by
  induction run with
  | refl => exact inv_start ptr size malloc
  | tail _ next inv => exact inv.cleanNext pageSize next

/-! ## Runs in which `malloc` succeeds -/

theorem trySplits_granted {m : Malloc} (granted : ∀ n, m.grant n = true) (splits : Nat) :
    ∃ m', trySplits splits m = some (true, m') := by
  induction splits generalizing m with
  | zero => exact ⟨m, rfl⟩
  | succ splits ih =>
      obtain ⟨m', served⟩ := @ih (m.advance 2) granted
      refine ⟨m', ?_⟩
      rw [trySplits, served]
      simp [granted]

theorem cleanSplits_of_granted (m : Malloc) (granted : ∀ n, m.grant n = true)
    (candidates : List Nat) : CleanSplits candidates m := by
  cases candidates with
  | nil => rfl
  | cons splits rest =>
      obtain ⟨m', served⟩ := trySplits_granted granted splits
      rw [CleanSplits, tryLeaves, served]
      rfl

theorem Client.clean_of_granted (page : Nat) (c : Client)
    (granted : ∀ n, c.pool.malloc.grant n = true) (call : Call) : c.Clean page call := by
  cases call with
  | alloc payload => exact cleanSplits_of_granted _ granted _
  | allocAlign payload align => exact cleanSplits_of_granted _ granted _
  | free addr => trivial
  | store addr byte => trivial

theorem Client.step_grant {call : Call} (ran : c.step page call = some c') :
    c'.pool.malloc.grant = c.pool.malloc.grant := by
  cases call with
  | alloc payload =>
      simp only [Client.step, Option.some.injEq] at ran
      subst ran
      have kept := ufpMemAllocRec_grant c.pool.node (sizeHeader + payload)
        (by unfold sizeHeader; omega) c.pool.malloc
      unfold ufpMemAlloc
      split <;> rename_i found <;> rw [found] at kept <;> exact kept
  | allocAlign payload align =>
      simp only [Client.step, Option.some.injEq] at ran
      subst ran
      have kept := ufpMemAllocRec_grant c.pool.node (max align page + sizeHeader + payload)
        (by unfold sizeHeader; omega) c.pool.malloc
      simp only [ufpMemAllocAlign]
      split <;> rename_i found <;> rw [found] at kept <;> exact kept
  | free addr =>
      simp only [Client.step, Option.map_eq_some_iff] at ran
      obtain ⟨pool, freed, rfl⟩ := ran
      simp only [ufpMemFree, Option.map_eq_some_iff] at freed
      obtain ⟨node, -, rfl⟩ := freed
      rfl
  | store addr byte =>
      simp only [Client.step, Option.some.injEq] at ran
      subst ran
      rfl

theorem cleanRun_of_granted {malloc : Malloc} (granted : ∀ n, malloc.grant n = true)
    (run : Relation.ReflTransGen (Client.Next page) (.start ptr size malloc) c) :
    Relation.ReflTransGen (Client.CleanNext page) (.start ptr size malloc) c ∧
      ∀ n, c.pool.malloc.grant n = true := by
  induction run with
  | refl => exact ⟨.refl, granted⟩
  | tail _ next ih =>
      obtain ⟨call, permitted, ran⟩ := next
      refine ⟨ih.1.tail ⟨call, permitted, Client.clean_of_granted page _ ih.2 call, ran⟩, ?_⟩
      rw [Client.step_grant ran]
      exact ih.2

/-- **Live blocks are safe.** In every state a client reaches while `malloc`
succeeds, the live blocks with their headers lie inside the pool and apart from
each other, an aligned allocation is aligned, and freeing a live pointer gives
back exactly the node behind it. -/
theorem live_blocks_safe {page ptr size : Nat} (pageSize : 0 < page) {malloc : Malloc}
    (granted : ∀ n, malloc.grant n = true) {c : Client}
    (run : Relation.ReflTransGen (Client.Next page) (.start ptr size malloc) c) :
    (∀ b ∈ c.live, ptr + sizeHeader ≤ b.addr ∧ b.stop ≤ ptr + size) ∧
      c.live.Pairwise Block.Apart ∧
      (∀ payload align path addr pool,
        ufpMemAllocAlign page c.pool payload align = (some (path, addr), pool) →
          max align page ∣ addr) ∧
      ∀ b ∈ c.live, ∃ pool, ufpMemFree c.pool b.addr = some pool ∧
        ∀ q s p, HandedOut pool.node q s p ↔ HandedOut c.pool.node q s p ∧ q ≠ b.node := by
  obtain ⟨clean, granted⟩ := cleanRun_of_granted granted run
  have inv := Inv.of_run pageSize clean
  refine ⟨fun b member => ?_, inv.pairwise, fun payload align => ?_, fun b member => ?_⟩
  · obtain ⟨s, p, out, low, high⟩ := inv.within b member
    have inside := out.inside inv.shape
    omega
  · exact (inv.allocAlign pageSize payload align (cleanSplits_of_granted _ granted _)).2.2
  · obtain ⟨freed, ok⟩ := inv.free_node member
    exact ⟨_, freed, ok.others⟩

/-- A pool of 256 bytes: an aligned block, then a plain one. -/
def sampleClient : Client :=
  let c := Client.start 4096 256 ⟨fun _ => true, 0⟩
  let c := c.take 10 (ufpMemAllocAlign 64 c.pool 10 1)
  c.take 20 (ufpMemAlloc c.pool 20)

theorem sampleClient_run :
    Relation.ReflTransGen (Client.Next 64) (.start 4096 256 ⟨fun _ => true, 0⟩) sampleClient := by
  refine .tail (.single ⟨.allocAlign 10 1, ?_, rfl⟩) ⟨.alloc 20, ?_, rfl⟩ <;> simp [Client.Permits, sizeHeader]

theorem sampleClient_live : sampleClient.live = [⟨[true, false, false], 4232, 20⟩, ⟨[false], 4160, 10⟩] := by
  decide +kernel

theorem live_blocks_safe_sample :
    sampleClient.live = [⟨[true, false, false], 4232, 20⟩, ⟨[false], 4160, 10⟩] ∧
      sampleClient.live.Pairwise Block.Apart ∧
      ∃ pool, ufpMemFree sampleClient.pool 4160 = some pool ∧
        ∀ q s p, HandedOut pool.node q s p ↔
          HandedOut sampleClient.pool.node q s p ∧ q ≠ [false] := by
  obtain ⟨-, apart, -, frees⟩ := live_blocks_safe (by decide) (fun _ => rfl) sampleClient_run
  refine ⟨sampleClient_live, apart, frees ⟨[false], 4160, 10⟩ ?_⟩
  rw [sampleClient_live]
  exact List.mem_cons_of_mem _ (List.mem_singleton.mpr rfl)

/-! ## Runs in which `malloc` fails -/

/-- **A refused request changes nothing.** In every run whose allocations leave no
children behind under an unallocated node, the live blocks stay apart in every state,
and an allocation that returns NULL leaves the node tree as it was exactly if it leaves
no such children behind either. -/
theorem failed_alloc_clean {page ptr size : Nat} (pageSize : 0 < page) {malloc : Malloc}
    {c : Client}
    (run : Relation.ReflTransGen (Client.CleanNext page) (.start ptr size malloc) c) :
    c.live.Pairwise Block.Apart ∧
      (∀ payload, (ufpMemAlloc c.pool payload).1 = none →
        (c.Clean page (.alloc payload) ↔ (ufpMemAlloc c.pool payload).2.node = c.pool.node)) ∧
      ∀ payload align, (ufpMemAllocAlign page c.pool payload align).1 = none →
        (c.Clean page (.allocAlign payload align) ↔
          (ufpMemAllocAlign page c.pool payload align).2.node = c.pool.node) := by
  have inv := Inv.of_run pageSize run
  refine ⟨inv.pairwise, fun payload refused => ⟨fun clean => ?_, fun same => ?_⟩,
    fun payload align refused => ⟨fun clean => ?_, fun same => ?_⟩⟩
  · exact (inv.alloc payload clean).2 refused
  · exact inv.alloc_unchanged refused same
  · exact (inv.allocAlign pageSize payload align clean).2.1 refused
  · exact inv.allocAlign_unchanged refused same

/-- `malloc` refuses its third call, and every call from the sixth on. -/
def scarce : Malloc := ⟨fun n => n < 5 && n != 2, 0⟩

/-- A request of 10 bytes splits a pool of 128, gives up the first half and is served from the
second. -/
def sparing : Client :=
  (Client.start 4096 128 scarce).take 10 (ufpMemAlloc (Client.start 4096 128 scarce).pool 10)

theorem failed_alloc_clean_sample :
    sparing.live = [⟨[true, false], 4168, 10⟩] ∧ (ufpMemAlloc sparing.pool 8).1 = none ∧
      (ufpMemAlloc sparing.pool 8).2.node = sparing.pool.node := by
  have run : Relation.ReflTransGen (Client.CleanNext 4096) (.start 4096 128 scarce) sparing := by
    refine .single ⟨.alloc 10, by simp [Client.Permits, sizeHeader], ?_, rfl⟩
    show CleanSplits _ _
    decide +kernel
  have refused : (ufpMemAlloc sparing.pool 8).1 = none := by decide +kernel
  have clean : sparing.Clean 4096 (.alloc 8) := by
    show CleanSplits _ _
    decide +kernel
  exact ⟨by decide +kernel, refused, ((failed_alloc_clean (by decide) run).2.1 8 refused).mp clean⟩

/-- `malloc` grants the root's split and then refuses twice. -/
def refusing : Malloc := ⟨fun n => n != 2 && n != 3, 0⟩

/-- The pool after requests of 8, 40 and 20 bytes under `refusing`: the first is
refused below the split root, the second takes the root, the third its child. -/
def overlapping : Client :=
  let c := (Client.start 4096 64 refusing).take 8
    (ufpMemAlloc (Client.start 4096 64 refusing).pool 8)
  let c := c.take 40 (ufpMemAlloc c.pool 40)
  c.take 20 (ufpMemAlloc c.pool 20)

/-- A refusal below a node split in the same call leaves that split behind, and
two later blocks overlap. -/
theorem abandoned_split_overlaps :
    ((ufpMemAlloc (Client.start 4096 64 refusing).pool 8).1 = none ∧
        (ufpMemAlloc (Client.start 4096 64 refusing).pool 8).2.node ≠
          (Client.start 4096 64 refusing).pool.node) ∧
      Relation.ReflTransGen (Client.Next 4096) (.start 4096 64 refusing) overlapping ∧
      ¬ overlapping.live.Pairwise Block.Apart := by
  refine ⟨by decide +kernel, ?_, by decide +kernel⟩
  refine .tail (.tail (.single ⟨.alloc 8, ?_, rfl⟩) ⟨.alloc 40, ?_, rfl⟩) ⟨.alloc 20, ?_, rfl⟩ <;>
    simp [Client.Permits, sizeHeader]

end Ufp.Lib.Mem
