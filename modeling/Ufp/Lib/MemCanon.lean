/-
# Ufp.Lib.MemCanon — the node tree is a normal form of the live blocks

A reachable tree holds nothing but its live blocks: a node is split only when
something below it is handed out, and freeing merges until that is so again.
Two trees over one pool that hand out the same ranges are therefore equal
(`Shape.unique`), and everything about releasing follows from what is handed out.

* `coalescing_complete`: freeing the block an allocation just returned restores
  the tree, the tree depends on the live blocks only, and once every block is
  freed, in any order, the root is the single unallocated node again.
* `alloc_serves_iff`: a search succeeds exactly if some unallocated leaf is large
  enough, and takes from it a node less than twice as large as asked.
-/
import Ufp.Lib.MemSafety
import Mathlib.Data.List.Perm.Basic

namespace Ufp.Lib.Mem

set_option autoImplicit false

/-! ## Trees with the same handed-out ranges -/

/-- A range of the tree is handed out. -/
def Mnode.Occupies (t : Mnode) (size ptr : Nat) : Prop := ∃ path, HandedOut t path size ptr

theorem occupies_free (s p size ptr : Nat) : ¬ (Mnode.leaf false s p).Occupies size ptr := by
  rintro ⟨path, out⟩
  exact handedOut_free s p path size ptr out

variable {size ptr s p request : Nat} {t left right : Mnode}

theorem occupies_used : (Mnode.leaf true s p).Occupies size ptr ↔ size = s ∧ ptr = p := by
  constructor
  · rintro ⟨path, out⟩
    cases path with
    | nil =>
        simp only [HandedOut, Mnode.get, Mnode.leaf, Mnode.node.injEq, true_and, and_true] at out
        exact ⟨out.1.symm, out.2.symm⟩
    | cons index path => exact absurd out (handedOut_leaf_cons _ _ _ _ _ _ _)
  · rintro ⟨rfl, rfl⟩
    exact ⟨[], rfl⟩

theorem occupies_split {a : Bool} {s' p' : Nat} (low : Shape s' p' left) :
    (Mnode.node a s p left right).Occupies size ptr ↔
      left.Occupies size ptr ∨ right.Occupies size ptr := by
  constructor
  · rintro ⟨path, out⟩
    cases path with
    | nil => exact absurd out (handedOut_split low _ _)
    | cons index path =>
        rw [handedOut_cons] at out
        cases index with
        | false => exact .inl ⟨path, out⟩
        | true => exact .inr ⟨path, out⟩
  · rintro (⟨path, out⟩ | ⟨path, out⟩)
    · exact ⟨false :: path, handedOut_cons.mpr out⟩
    · exact ⟨true :: path, handedOut_cons.mpr out⟩

/-- An allocated node has something handed out at or below it. -/
theorem Shape.occupied (shape : Shape size ptr t) (allocated : t.allocated = true) : ∃ s p, t.Occupies s p := by
  induction shape with
  | leaf flag size ptr =>
      obtain rfl : flag = true := allocated
      exact ⟨size, ptr, [], rfl⟩
  | split low high used ihLow ihHigh =>
      rcases used with used | used
      · obtain ⟨s, p, out⟩ := ihLow used
        exact ⟨s, p, (occupies_split low).mpr (.inl out)⟩
      · obtain ⟨s, p, out⟩ := ihHigh used
        exact ⟨s, p, (occupies_split low).mpr (.inr out)⟩

/-- A tree that hands nothing out is one unallocated node. -/
theorem Shape.eq_free_of_empty (shape : Shape size ptr t) (empty : ∀ s p, ¬ t.Occupies s p) :
    t = .leaf false size ptr := by
  apply shape.eq_free
  by_contra allocated
  obtain ⟨s, p, out⟩ := shape.occupied (by simpa using allocated)
  exact empty s p out

/-- No handed-out node is empty. -/
def Mnode.Solid (t : Mnode) : Prop := ∀ s p, t.Occupies s p → 0 < s

theorem Mnode.Solid.children {a : Bool} {s' p' : Nat} (solid : (Mnode.node a s p left right).Solid)
    (low : Shape s' p' left) : left.Solid ∧ right.Solid :=
  ⟨fun s p out => solid s p ((occupies_split low).mpr (.inl out)),
    fun s p out => solid s p ((occupies_split low).mpr (.inr out))⟩

/-- A handed-out node that is the whole range of a split node would not fit a child. -/
theorem not_occupies_whole (positive : 0 < size) (low : Shape (size / 2) ptr left)
    (high : Shape (size / 2) (ptr + size / 2) right) : ¬ (Mnode.node true size ptr left right).Occupies size ptr := by
  intro whole
  rcases (occupies_split low).mp whole with ⟨path, out⟩ | ⟨path, out⟩
  · have := out.inside low
    omega
  · have := out.inside high
    omega

/-- Of the ranges a split node hands out, the left child has those below the middle
and the right child the others. -/
theorem occupies_child (low : Shape (size / 2) ptr left) (high : Shape (size / 2) (ptr + size / 2) right)
    (solid : (Mnode.node true size ptr left right).Solid) :
    (left.Occupies s p ↔
        (Mnode.node true size ptr left right).Occupies s p ∧ p < ptr + size / 2) ∧
      (right.Occupies s p ↔
        (Mnode.node true size ptr left right).Occupies s p ∧ ptr + size / 2 ≤ p) := by
  have below : left.Occupies s p → p < ptr + size / 2 := by
    intro out
    have positive := (solid.children low).1 s p out
    obtain ⟨path, out⟩ := out
    have := out.inside low
    omega
  have above : right.Occupies s p → ptr + size / 2 ≤ p := by
    rintro ⟨path, out⟩
    exact (out.inside high).1
  rw [occupies_split low]
  constructor
  · refine ⟨fun out => ⟨.inl out, below out⟩, ?_⟩
    rintro ⟨out | out, side⟩
    · exact out
    · have := above out
      omega
  · refine ⟨fun out => ⟨.inr out, above out⟩, ?_⟩
    rintro ⟨out | out, side⟩
    · have := below out
      omega
    · exact out

/-- **The tree is determined by what it hands out.** -/
theorem Shape.unique {t' : Mnode} (shape : Shape size ptr t) (shape' : Shape size ptr t') (solid : t.Solid)
    (solid' : t'.Solid) (same : ∀ s p, t.Occupies s p ↔ t'.Occupies s p) : t = t' := by
  induction shape generalizing t' with
  | leaf flag size ptr =>
      cases flag with
      | false =>
          refine (shape'.eq_free_of_empty fun s p out => ?_).symm
          exact occupies_free size ptr s p ((same s p).mpr out)
      | true =>
          have whole := (same size ptr).mp (occupies_used.mpr ⟨rfl, rfl⟩)
          cases shape' with
          | leaf flag' =>
              cases flag' with
              | false => exact absurd whole (occupies_free size ptr size ptr)
              | true => rfl
          | split low high used =>
              exact absurd whole (not_occupies_whole (solid' size ptr whole) low high)
  | @split size ptr left right low high used ihLow ihHigh =>
      obtain ⟨s, p, out⟩ := (Shape.split low high used).occupied rfl
      cases shape' with
      | leaf flag' =>
          cases flag' with
          | false => exact absurd ((same s p).mp out) (occupies_free size ptr s p)
          | true =>
              have whole := (same size ptr).mpr (occupies_used.mpr ⟨rfl, rfl⟩)
              exact absurd whole (not_occupies_whole (solid size ptr whole) low high)
      | @split _ _ left' right' low' high' used' =>
          obtain ⟨solidLow, solidHigh⟩ := solid.children low
          obtain ⟨solidLow', solidHigh'⟩ := solid'.children low'
          have lows : ∀ s p, left.Occupies s p ↔ left'.Occupies s p := by
            intro s p
            rw [(occupies_child low high solid).1, (occupies_child low' high' solid').1, same]
          have highs : ∀ s p, right.Occupies s p ↔ right'.Occupies s p := by
            intro s p
            rw [(occupies_child low high solid).2, (occupies_child low' high' solid').2, same]
          rw [ihLow low' solidLow solidLow' lows, ihHigh high' solidHigh solidHigh' highs]

/-! ## Releasing what was allocated -/

/-- Releasing the node a search just handed out gives the tree before the search. -/
theorem ufpMemFreeRec_undoes {t' : Mnode} {path : Path} (shape : Shape size ptr t) (solid : t.Solid)
    (shape' : Shape size ptr t') (ok : AllocOk request t t' path) : ufpMemFreeRec t' path.reverse = t := by
  obtain ⟨_, _, found, -⟩ := ok.found
  have freed := ufpMemFreeRec_spec shape' found
  have same : ∀ s p, (ufpMemFreeRec t' path.reverse).Occupies s p ↔ t.Occupies s p := by
    intro s p
    refine exists_congr fun q => ?_
    rw [freed.others]
    constructor
    · rintro ⟨out, ne⟩
      exact (ok.others q ne s p).mp out
    · intro out
      have ne : q ≠ path := fun same => ok.fresh s p (same ▸ out)
      exact ⟨(ok.others q ne s p).mpr out, ne⟩
  exact freed.shape.unique shape (fun s p out => solid s p ((same s p).mp out)) solid same

theorem ufpMemFree_stored (node : Mnode) (mem : Nat → Cell) (malloc : Malloc) (header : Nat)
    (path : Path) :
    ufpMemFree ⟨node, storeHeader mem header path, malloc⟩ (header + sizeHeader) =
      some ⟨ufpMemFreeRec node path.reverse, storeHeader mem header path, malloc⟩ := by
  simp [ufpMemFree, loadHeader_store_self]

/-! ## Live blocks -/

/-- The range of the node behind each live block: its size and its first byte. -/
def Client.ranges (c : Client) : List (Nat × Nat) :=
  c.live.map fun b => ((c.pool.node.get b.node).size, (c.pool.node.get b.node).ptr)

section

variable {size ptr : Nat} {c c' : Client}

theorem Inv.occupies_iff (inv : Inv size ptr c) (s p : Nat) :
    c.pool.node.Occupies s p ↔ (s, p) ∈ c.ranges := by
  constructor
  · rintro ⟨path, out⟩
    obtain ⟨b, member, rfl⟩ := List.mem_map.mp (inv.backed path s p out)
    refine List.mem_map.mpr ⟨b, member, ?_⟩
    rw [out]
    rfl
  · intro member
    obtain ⟨b, member, range⟩ := List.mem_map.mp member
    obtain ⟨s', p', out, -⟩ := inv.within b member
    rw [out] at range
    obtain ⟨rfl, rfl⟩ := Prod.mk.inj range
    exact ⟨b.node, out⟩

theorem Inv.solid (inv : Inv size ptr c) : c.pool.node.Solid := by
  rintro s p ⟨path, out⟩
  obtain ⟨b, member, rfl⟩ := List.mem_map.mp (inv.backed path s p out)
  obtain ⟨s', p', out', low, high⟩ := inv.within b member
  obtain ⟨rfl, rfl⟩ : s' = s ∧ p' = p := by
    have same := out'.symm.trans out
    simp only [Mnode.leaf, Mnode.node.injEq] at same
    exact ⟨same.2.1, same.2.2.1⟩
  unfold Block.stop sizeHeader at *
  omega

/-- Clients of one pool with the same live ranges have the same tree. -/
theorem Inv.tree_eq (inv : Inv size ptr c) (inv' : Inv size ptr c')
    (same : ∀ range, range ∈ c.ranges ↔ range ∈ c'.ranges) : c.pool.node = c'.pool.node := by
  refine inv.shape.unique inv'.shape inv.solid inv'.solid fun s p => ?_
  rw [inv.occupies_iff, inv'.occupies_iff, same]

theorem Inv.tree_empty (inv : Inv size ptr c) (empty : c.live = []) :
    c.pool.node = .leaf false size ptr := by
  refine inv.shape.eq_free_of_empty fun s p => ?_
  rw [inv.occupies_iff, Client.ranges, empty]
  simp

theorem Inv.addr_nodup (inv : Inv size ptr c) : (c.live.map Block.addr).Nodup := by
  have distinct : c.live.Nodup := inv.distinct.of_map
  exact distinct.map_on fun b member b' member' => inv.eq_of_addr member member'

/-- `ufp_mem_free` on each of the pointers in turn. -/
def freeAll (pool : Mpool) (addrs : List Nat) : Option Mpool := addrs.foldlM ufpMemFree pool

/-- Freeing every live block leaves the single unallocated root. -/
theorem Inv.freeAll (inv : Inv size ptr c) {order : List Nat}
    (all : order.Perm (c.live.map Block.addr)) :
    ∃ pool, Mem.freeAll c.pool order = some pool ∧ pool.node = .leaf false size ptr := by
  induction order generalizing c with
  | nil =>
      refine ⟨c.pool, rfl, inv.tree_empty ?_⟩
      simpa using all.symm.eq_nil
  | cons addr order ih =>
      obtain ⟨b, member, rfl⟩ := List.mem_map.mp (all.subset List.mem_cons_self)
      obtain ⟨freed, -⟩ := inv.free_node member
      have ran : c.step 1 (.free b.addr) = some
          { pool := { c.pool with node := ufpMemFreeRec c.pool.node b.node.reverse }
            live := c.live.filter fun b' => b'.addr ≠ b.addr } := by
        simp only [Client.step, freed, Option.map_some]
      have rest : order.Perm ((c.live.filter fun b' => b'.addr ≠ b.addr).map Block.addr) := by
        have fresh : b.addr ∉ order :=
          (List.nodup_cons.mp (all.nodup_iff.mpr inv.addr_nodup)).1
        have kept := all.filter fun addr => decide (addr ≠ b.addr)
        rw [List.filter_cons_of_neg (by simp), List.filter_map] at kept
        rwa [List.filter_eq_self.mpr fun addr member => by
          simpa using fun same : addr = b.addr => fresh (same ▸ member)] at kept
      obtain ⟨pool, emptied, root⟩ := ih (inv.free ⟨b, member, rfl⟩ ran) rest
      refine ⟨pool, ?_, root⟩
      simp only [Mem.freeAll, List.foldlM_cons, freed]
      exact emptied

end

/-! ## Complete coalescing -/

/-- **Freeing undoes allocating, and merges all there is to merge.** In every state
a client reaches while `malloc` succeeds: releasing the node a search has just
returned restores the tree, and so does freeing the block that `ufp_mem_alloc` or
`ufp_mem_alloc_align` has just returned; another state of the same pool with the
same live ranges has the same tree; and freeing all live blocks, in any order, ends
in the single unallocated root. -/
theorem coalescing_complete {page ptr size : Nat} (pageSize : 0 < page) {malloc : Malloc}
    (granted : ∀ n, malloc.grant n = true) {c : Client}
    (run : Relation.ReflTransGen (Client.Next page) (.start ptr size malloc) c) :
    (∀ total positive path t m,
        ufpMemAllocRec c.pool.node total positive c.pool.malloc = (some path, t, m) →
          ufpMemFreeRec t path.reverse = c.pool.node) ∧
      (∀ payload path addr pool, ufpMemAlloc c.pool payload = (some (path, addr), pool) →
        ∃ pool', ufpMemFree pool addr = some pool' ∧ pool'.node = c.pool.node) ∧
      (∀ payload align path addr pool,
        ufpMemAllocAlign page c.pool payload align = (some (path, addr), pool) →
          ∃ pool', ufpMemFree pool addr = some pool' ∧ pool'.node = c.pool.node) ∧
      (∀ malloc' c', (∀ n, malloc'.grant n = true) →
        Relation.ReflTransGen (Client.Next page) (.start ptr size malloc') c' →
        (∀ range, range ∈ c.ranges ↔ range ∈ c'.ranges) → c.pool.node = c'.pool.node) ∧
      ∀ order, order.Perm (c.live.map Block.addr) →
        ∃ pool, freeAll c.pool order = some pool ∧ pool.node = .leaf false size ptr := by
  obtain ⟨clean, grants⟩ := cleanRun_of_granted granted run
  have inv := Inv.of_run pageSize clean
  have undoes : ∀ total positive path t m,
      ufpMemAllocRec c.pool.node total positive c.pool.malloc = (some path, t, m) →
        ufpMemFreeRec t path.reverse = c.pool.node := by
    intro total positive path t m ran
    rcases ufpMemAllocRec_clean inv.shape total positive c.pool.malloc
        (cleanSplits_of_granted _ grants _) with ⟨m', missed⟩ | ⟨path', t', m', found, shape, ok⟩
    · cases missed.symm.trans ran
    · cases found.symm.trans ran
      exact ufpMemFreeRec_undoes inv.shape inv.solid shape ok
  refine ⟨undoes, ?_, ?_, ?_, fun order all => inv.freeAll all⟩
  · intro payload path addr pool ran
    rw [ufpMemAlloc] at ran
    split at ran
    · cases ran
    · rename_i found
      cases ran
      exact ⟨_, ufpMemFree_stored _ _ _ _ _, undoes _ _ _ _ _ found⟩
  · intro payload align path addr pool ran
    rw [ufpMemAllocAlign] at ran
    split at ran
    · cases ran
    · rename_i found
      cases ran
      exact ⟨_, ufpMemFree_stored _ _ _ _ _, undoes _ _ _ _ _ found⟩
  · intro malloc' c' granted' run' same
    exact inv.tree_eq (Inv.of_run pageSize (cleanRun_of_granted granted' run').1) same

theorem coalescing_complete_sample :
    sampleClient.live.map Block.addr = [4232, 4160] ∧
      ∃ pool, freeAll sampleClient.pool [4160, 4232] = some pool ∧ pool.node = .leaf false 256 4096 := by
  have live : sampleClient.live.map Block.addr = [4232, 4160] := by rw [sampleClient_live]; rfl
  have undone := (coalescing_complete (by decide) (fun _ => rfl) sampleClient_run).2.2.2.2
  rw [live] at undone
  exact ⟨live, undone [4160, 4232] (.swap ..)⟩

/-! ## What a search can serve -/

/-- The node at `path` is unallocated, and so a leaf. -/
def Vacant (t : Mnode) (path : Path) (size ptr : Nat) : Prop := t.get path = .leaf false size ptr

/-- Some unallocated leaf has room for `request` bytes. -/
def Mnode.HasRoom (t : Mnode) (request : Nat) : Prop :=
  ∃ path size ptr, Vacant t path size ptr ∧ request ≤ size

theorem not_vacant_null (path : Path) (size ptr : Nat) : ¬ Vacant .null path size ptr := by
  simp [Vacant, get_null, Mnode.leaf]

theorem hasRoom_leaf {flag : Bool} : (Mnode.leaf flag size ptr).HasRoom request ↔ flag = false ∧ request ≤ size := by
  constructor
  · rintro ⟨path, s, p, vacant, fits⟩
    cases path with
    | nil =>
        simp only [Vacant, Mnode.get, Mnode.leaf, Mnode.node.injEq] at vacant
        exact ⟨vacant.1, by omega⟩
    | cons index path =>
        cases index <;> exact absurd vacant (not_vacant_null path s p)
  · rintro ⟨rfl, fits⟩
    exact ⟨[], size, ptr, rfl, fits⟩

theorem hasRoom_split :
    (Mnode.node true s p left right).HasRoom request ↔
      left.HasRoom request ∨ right.HasRoom request := by
  constructor
  · rintro ⟨path, size, ptr, vacant, fits⟩
    cases path with
    | nil => simp [Vacant, Mnode.get, Mnode.leaf] at vacant
    | cons index path =>
        rw [Vacant, get_node_cons] at vacant
        cases index with
        | false => exact .inl ⟨path, size, ptr, vacant, fits⟩
        | true => exact .inr ⟨path, size, ptr, vacant, fits⟩
  · rintro (⟨path, size, ptr, vacant, fits⟩ | ⟨path, size, ptr, vacant, fits⟩)
    · exact ⟨false :: path, size, ptr, vacant, fits⟩
    · exact ⟨true :: path, size, ptr, vacant, fits⟩

/-- A tree has no more room than its size. -/
theorem Shape.room_le (shape : Shape size ptr t) (room : t.HasRoom request) : request ≤ size := by
  induction shape with
  | leaf flag size ptr => exact (hasRoom_leaf.mp room).2
  | split low high used ihLow ihHigh =>
      rcases hasRoom_split.mp room with room | room
      · have := ihLow room
        omega
      · have := ihHigh room
        omega

/-- With `malloc` succeeding, a search finds a node exactly if there is room. -/
theorem ufpMemAllocRec_isSome_iff (shape : Shape size ptr t) (request : Nat) (positive : 0 < request) (m : Malloc)
    (granted : ∀ n, m.grant n = true) : (ufpMemAllocRec t request positive m).1.isSome ↔ t.HasRoom request := by
  induction shape generalizing m with
  | leaf flag size ptr =>
      rw [hasRoom_leaf]
      cases flag with
      | true => simp [ufpMemAllocRec_used]
      | false =>
          by_cases fits : request ≤ size
          · have searched := ufpMemAllocRec_free request positive size ptr m fits
            obtain ⟨m', served⟩ := trySplits_granted granted (Nat.log 2 (size / request))
            rw [served] at searched
            generalize ufpMemAllocRec (.leaf false size ptr) request positive m = result at searched ⊢
            cases searched
            simp [fits]
          · rw [Mnode.leaf, ufpMemAllocRec_small (by omega)]
            simp [fits]
  | @split size ptr left right low high used ihLow ihHigh =>
      rw [hasRoom_split]
      by_cases small : size / 2 < request
      · -- neither half is large enough, and the search does not look at them
        have noLow : ¬ left.HasRoom request := fun room => by
          have := low.room_le room
          omega
        have noHigh : ¬ right.HasRoom request := fun room => by
          have := high.room_le room
          omega
        simp [ufpMemAllocRec_small small, noLow, noHigh]
      · have whole : ufpMemChildren m true size ptr left right = (.ok (left, right), m) := rfl
        have kept := ufpMemAllocRec_grant left request positive m
        rw [ufpMemAllocRec_descend small whole, ← ihLow m granted]
        rcases searched : ufpMemAllocRec left request positive m with ⟨_ | path, left', m'⟩
        · rw [searched] at kept
          rw [← ihHigh m' fun n => by rw [kept]; exact granted n]
          simp only
          rcases searched' : ufpMemAllocRec right request positive m' with ⟨_ | path, right', m''⟩ <;>
            simp
        · simp

/-- **No request is refused that could be served.** In every state a client reaches
while `malloc` succeeds, `_ufp_mem_alloc` returns a node exactly if some unallocated
leaf is large enough. The node then holds the request and is less than twice as
large, no live block had it, and the node of every live block is where it was, apart
from the new one. -/
theorem alloc_serves_iff {page ptr size : Nat} (pageSize : 0 < page) {malloc : Malloc}
    (granted : ∀ n, malloc.grant n = true) {c : Client}
    (run : Relation.ReflTransGen (Client.Next page) (.start ptr size malloc) c)
    (total : Nat) (positive : 0 < total) :
    ((ufpMemAllocRec c.pool.node total positive c.pool.malloc).1.isSome ↔
        c.pool.node.HasRoom total) ∧
      ∀ path t m, ufpMemAllocRec c.pool.node total positive c.pool.malloc = (some path, t, m) →
        (∃ s p, t.get path = .leaf true s p ∧ total ≤ s ∧ s / 2 < total ∧
          ∀ b ∈ c.live, ∃ s' p', t.get b.node = .leaf true s' p' ∧ (p' + s' ≤ p ∨ p + s ≤ p')) ∧
        ∀ b ∈ c.live, b.node ≠ path ∧ t.get b.node = c.pool.node.get b.node := by
  obtain ⟨clean, grants⟩ := cleanRun_of_granted granted run
  have inv := Inv.of_run pageSize clean
  refine ⟨ufpMemAllocRec_isSome_iff inv.shape total positive c.pool.malloc grants, ?_⟩
  intro path t m ran
  rcases ufpMemAllocRec_clean inv.shape total positive c.pool.malloc
      (cleanSplits_of_granted _ grants _) with ⟨m', missed⟩ | ⟨path', t', m', found, shape, ok⟩
  · cases missed.symm.trans ran
  cases found.symm.trans ran
  have kept : ∀ b ∈ c.live, b.node ≠ path ∧
      ∃ s' p', HandedOut t b.node s' p' ∧ HandedOut c.pool.node b.node s' p' := by
    intro b member
    obtain ⟨s', p', out, -⟩ := inv.within b member
    have ne : b.node ≠ path := fun same => ok.fresh s' p' (same ▸ out)
    exact ⟨ne, s', p', (ok.others b.node ne s' p').mpr out, out⟩
  obtain ⟨s, p, out, fits, tight⟩ := ok.found
  refine ⟨⟨s, p, out, fits, tight, fun b member => ?_⟩, fun b member => ?_⟩
  · obtain ⟨ne, s', p', out', -⟩ := kept b member
    exact ⟨s', p', out', out'.disjoint shape out ne⟩
  · obtain ⟨ne, s', p', out', before⟩ := kept b member
    exact ⟨ne, out'.trans before.symm⟩

/-- Beside two live blocks 60 bytes can be had, and 70 cannot. -/
theorem alloc_serves_iff_sample :
    (∃ path t m, ufpMemAllocRec sampleClient.pool.node 60 (by decide) sampleClient.pool.malloc = (some path, t, m) ∧
      ∀ b ∈ sampleClient.live, b.node ≠ path ∧ t.get b.node = sampleClient.pool.node.get b.node) ∧
      ¬ sampleClient.pool.node.HasRoom 70 := by
  have serves := alloc_serves_iff (by decide) (fun _ => rfl) sampleClient_run
  refine ⟨?_, fun room => ?_⟩
  · have served : (ufpMemAllocRec sampleClient.pool.node 60 (by decide) sampleClient.pool.malloc).1.isSome := by
      decide +kernel
    rcases ran : ufpMemAllocRec sampleClient.pool.node 60 (by decide) sampleClient.pool.malloc with ⟨_ | path, t, m⟩
    · rw [ran] at served
      cases served
    · exact ⟨path, t, m, rfl, ((serves 60 (by decide)).2 path t m ran).2⟩
  · have served := (serves 70 (by decide)).1.mpr room
    revert served
    decide +kernel

end Ufp.Lib.Mem
