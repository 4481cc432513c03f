/-
# Ufp.Daemon.LpmLoops — the loops over the nodes a prefix covers

`Site` is the place of a prefix in a table: the run of nodes that it covers,
which is the run that the loops of `lpm_add` and `lpm_delete` walk. It is the
same for the first table (`site_root`) and for a next table (`site_child`).

* `fillLoop_absent`: linking a new route fills the whole run, or stops where an
  allocation is refused, with the nodes before linked;
* `fillLoop_present`: a key that is present is refused at the first node;
* `rollbackLoop_spec`: unlinking what was linked restores the table;
* `deleteLoop_present`, `deleteLoop_absent`: unlinking a route.
-/
import Ufp.Daemon.LpmSlot

namespace Ufp.Daemon

open Ufp.Theory Ufp.Theory.Bits Ufp.Theory.Ranked

set_option autoImplicit false

/-! ## The place of a prefix in a table -/

/-- In a table of `n` nodes of level `c`, node `j` standing for `base + j`, the
key covers the nodes from `index` on, `range` of them. -/
structure Site (k : Key) (c base n index range : Nat) : Prop where
  low : 16 ≤ c
  covers : ∀ j, k.Covers c (base + j) ↔ index ≤ j ∧ j < index + range
  fits : index + range ≤ n
  slot : ∀ i < range, index ||| i = index + i
  some : 0 < range

theorem site_of {k : Key} {c base n raw m : Nat} (low : 16 ≤ c)
    (level : c = 16 ∨ c < k.len + 8) (short : k.len ≤ c) (width : c - k.len = m)
    (here : top k.bytes c = base + raw) (small : raw < n) (bound : n ≤ 2 ^ 32)
    (alignedBase : 2 ^ m ∣ base) (alignedSize : 2 ^ m ∣ n) :
    Site k c base n (maskIndex raw (1 <<< m)) (1 <<< m) := by
  subst width
  have positive : 0 < 2 ^ (c - k.len) := Nat.two_pow_pos _
  have narrow : c - k.len ≤ 32 := by
    by_contra wide
    have large : 2 ^ 32 < 2 ^ (c - k.len) := Nat.pow_lt_pow_right (by decide) (by omega)
    have := Nat.le_of_dvd (by omega) alignedSize
    omega
  have index : maskIndex raw (2 ^ (c - k.len)) = raw / 2 ^ (c - k.len) * 2 ^ (c - k.len) :=
    maskIndex_eq narrow (by omega)
  rw [Nat.one_shiftLeft, index]
  refine ⟨low, Key.covers_slot level short here alignedBase, ?_, fun i inside => or_eq_add inside,
    positive⟩
  obtain ⟨q, rfl⟩ := alignedSize
  have bucket : raw / 2 ^ (c - k.len) < q := Nat.div_lt_of_lt_mul small
  calc raw / 2 ^ (c - k.len) * 2 ^ (c - k.len) + 2 ^ (c - k.len)
      = (raw / 2 ^ (c - k.len) + 1) * 2 ^ (c - k.len) := by rw [Nat.add_mul, Nat.one_mul]
    _ ≤ q * 2 ^ (c - k.len) := Nat.mul_le_mul_right _ bucket
    _ = 2 ^ (c - k.len) * q := Nat.mul_comm _ _

/-- The first table. -/
theorem site_root (k : Key) (short : k.len ≤ 16) :
    Site k 16 0 tableSize16 (maskIndex (lpmIndex k.bytes 0 16) (1 <<< (16 - k.len)))
      (1 <<< (16 - k.len)) := by
  have small : lpmIndex k.bytes 0 16 < tableSize16 := by
    rw [lpmIndex_root]
    exact top_lt k.bytes 16
  refine site_of (Nat.le_refl _) (.inl rfl) short rfl ?_ small (by decide) (Nat.dvd_zero _) ?_
  · rw [lpmIndex_root, Nat.zero_add]
  · exact Nat.pow_dvd_pow 2 (Nat.sub_le _ _)

/-- A next table. -/
theorem site_child (k : Key) {offset v : Nat} (low : 16 ≤ offset) (aligned : offset % 8 = 0)
    (below : k.Below offset v) (last : ¬ k.len - offset > 8) :
    Site k (offset + 8) (v * 256) 256
      (maskIndex (lpmIndex k.bytes offset 8) (1 <<< (8 - (k.len - offset))))
      (1 <<< (8 - (k.len - offset))) := by
  obtain ⟨long, agree⟩ := below
  obtain ⟨small, next⟩ := lpmIndex_child k.bytes aligned
  rw [agree] at next
  have divides : 2 ^ (8 - (k.len - offset)) ∣ 256 := Nat.pow_dvd_pow 2 (Nat.sub_le 8 _)
  exact site_of (by omega) (.inr (by omega)) (by omega) (by omega) next small (by decide)
    (Nat.dvd_mul_left_of_dvd divides v) divides

/-! ## Filling -/

/-- The state of a fill or a rollback: the nodes from `a` to `b` of the run are
linked to the route, the others are as in `table₀`. -/
structure Filling (stored : List Stored) (s : Stored) (c base n index : Nat) (table₀ : Table)
    (restB restL : List Nat) (a b : Nat) (table : Table) (h : Heap) : Prop where
  linked : ∀ j, index + a ≤ j → j < index + b →
    Linked h s.route.id s.len s.addr (table₀ j) (table j) ∧ NodeOk (s :: stored) c (base + j) (table j)
  same : ∀ j, ¬ (index + a ≤ j ∧ j < index + b) → table j = table₀ j
  heap : HeapOk h (Slots.gather n Node.blocks table ++ restB) (Slots.gather n Node.links table ++ restL)
  contents : Contents h (s :: stored)

theorem Linked.step {h h' : Heap} {id : Int} {len ptr : Nat} {node node' : Node}
    (linked : Linked h id len ptr node node') (step : Heap.Step h h') :
    Linked h' id len ptr node node' := by
  obtain ⟨before, after, blk, head, rfl, fresh⟩ := linked
  refine ⟨before, after, blk, head, rfl, fun e member => ?_⟩
  obtain ⟨n, same⟩ := step.entries e.ptr
  rw [same]
  exact fresh e member

/-- Writing one node of a table, in the account of the whole table. -/
theorem gather_swap {n : Nat} {f : Node → List Nat} {table : Table} {j : Nat} (inside : j < n)
    {node : Node} {x : Nat} (rest : List Nat) (more : (f node).Perm (x :: f (table j))) :
    (Slots.gather n f (Function.update table j node) ++ rest).Perm
      (x :: (Slots.gather n f table ++ rest)) := by
  have before : (Slots.gather n f table).Perm _ := Slots.gather_perm inside
  have after := Slots.gather_update (f := f) (t := table) inside node
  calc (Slots.gather n f (Function.update table j node) ++ rest).Perm
        (f node ++ Slots.others n f table j ++ rest) := after.append_right _
    List.Perm _ (x :: (f (table j) ++ Slots.others n f table j ++ rest)) :=
        (more.append_right _).append_right _
    List.Perm _ (x :: (Slots.gather n f table ++ rest)) :=
        ((before.symm).append_right _).cons x

theorem gather_swap_back {n : Nat} {f : Node → List Nat} {table : Table} {j : Nat} (inside : j < n)
    {node : Node} {x : Nat} (rest : List Nat) (less : (f (table j)).Perm (x :: f node)) :
    (Slots.gather n f table ++ rest).Perm
      (x :: (Slots.gather n f (Function.update table j node) ++ rest)) := by
  have back : Function.update (Function.update table j node) j (table j) = table := by
    rw [Function.update_idem, Function.update_eq_self]
  conv_lhs => rw [← back]
  exact gather_swap inside rest (by rwa [Function.update_self])

section Fill

variable {stored : List Stored} {s : Stored} {c base n index range : Nat} {table₀ : Table}
  {restB restL : List Nat} (site : Site s.route.toKey c base n index range)
  (ok : ∀ j < n, NodeOk stored c (base + j) (table₀ j))

include site ok

variable {h : Heap} {table : Table} {b : Nat}

/-- One iteration of the fill with a granted entry. -/
theorem Filling.link (absent : ∀ t ∈ stored, ¬ t.route.Same s.route.toKey) (inside : b < range) {h' : Heap}
    {blk : Nat} (filling : Filling stored s c base n index table₀ restB restL 0 b table h)
    (pending : Pending h (Slots.gather n Node.blocks table ++ restB)
      (Slots.gather n Node.links table ++ restL) s.addr) (granted : h.alloc = (some blk, h')) :
    ∃ head, lpmEntryInsert h' (table (index ||| b)).head s.route.id s.len ⟨blk, s.addr⟩ =
        some (head, fibEntryPull h' s.addr) ∧
      Filling stored s c base n index table₀ restB restL 0 (b + 1)
        (Function.update table (index ||| b) ((table (index ||| b)).setHead head))
        (fibEntryPull h' s.addr) ∧
      Pending (fibEntryPull h' s.addr)
        (Slots.gather n Node.blocks
          (Function.update table (index ||| b) ((table (index ||| b)).setHead head)) ++ restB)
        (Slots.gather n Node.links
          (Function.update table (index ||| b) ((table (index ||| b)).setHead head)) ++ restL)
        s.addr := by
  have bound := site.fits
  have step := Heap.Step.alloc_some granted
  obtain ⟨heap, -, -, keep⟩ := filling.heap.alloc_some granted
  have contents := filling.contents.step step
  rw [site.slot b inside]
  have old : table (index + b) = table₀ (index + b) := filling.same _ (by omega)
  have covers : s.route.Covers c (base + (index + b)) := (site.covers _).mpr (by omega)
  obtain ⟨head, inserted, perm, nodeOk, linked⟩ :=
    (ok (index + b) (by omega)).slot_insert site.low contents covers absent blk
  rw [← old] at inserted perm nodeOk linked
  have blocks := gather_swap (n := n) (j := index + b) (by omega) restB (Node.setHead_blocks perm)
  have links := gather_swap (n := n) (j := index + b) (by omega) restL (Node.setHead_links perm)
  obtain ⟨pulled, stillPending⟩ := heap.pull (keep pending)
  have whole := step.trans (Heap.Step.pull h' s.addr)
  refine ⟨head, inserted, ⟨?_, ?_, pulled.perm blocks.symm links.symm,
    filling.contents.step whole⟩, stillPending.perm blocks.symm links.symm⟩
  · intro j low high
    by_cases here : j = index + b
    · subst here
      rw [Function.update_self, ← old]
      exact ⟨linked.step (Heap.Step.pull h' s.addr), nodeOk⟩
    · rw [Function.update_of_ne here]
      obtain ⟨linked, nodeOk⟩ := filling.linked j low (by omega)
      exact ⟨linked.step whole, nodeOk⟩
  · intro j outside
    have ne : j ≠ index + b := by omega
    rw [Function.update_of_ne ne]
    exact filling.same j (by omega)

/-- A fill that is done: all nodes hold the new route as they should. -/
theorem Filling.children (filling : Filling stored s c base n index table₀ restB restL 0 range table h) :
    ∀ j < n, NodeOk (s :: stored) c (base + j) (table j) := by
  intro j inside
  by_cases here : index ≤ j ∧ j < index + range
  · exact (filling.linked j (by omega) here.2).2
  · rw [filling.same j (by omega)]
    refine (ok j inside).cons_irrelevant site.low ?_
    rintro (covers | deeper)
    · exact here ((site.covers j).mp covers)
    · -- the route covers the first node of the run, so it is not longer than the level
      have first := (site.covers index).mpr ⟨Nat.le_refl _, Nat.lt_add_of_pos_right site.some⟩
      exact absurd first.2.1 (Nat.not_le.mpr deeper.1)

/-- The fill of a new route: all of its nodes, or up to a refused allocation. -/
theorem fillLoop_absent (absent : ∀ t ∈ stored, ¬ t.route.Same s.route.toKey) {todo : Nat} (rest : b + todo = range)
    (filling : Filling stored s c base n index table₀ restB restL 0 b table h)
    (pending : Pending h (Slots.gather n Node.blocks table ++ restB)
      (Slots.gather n Node.links table ++ restL) s.addr) :
    ∃ filled table' h', Heap.Step h h' ∧ b ≤ filled ∧
      Filling stored s c base n index table₀ restB restL 0 filled table' h' ∧
      Pending h' (Slots.gather n Node.blocks table' ++ restB)
        (Slots.gather n Node.links table' ++ restL) s.addr ∧
      ((fillLoop s.route.id s.len s.addr index todo b table h = (true, filled, table', h') ∧
          filled = range ∧ h.pool.grants todo = true ∧ h'.pool.refused = h.pool.refused) ∨
        (fillLoop s.route.id s.len s.addr index todo b table h = (false, filled, table', h') ∧
          filled < range ∧ h.pool.grants (filled - b) = true ∧
          h.pool.grants (filled - b + 1) = false ∧ h'.pool.refused = true)) := by
  induction todo generalizing b table h with
  | zero =>
      exact ⟨b, table, h, .refl h, Nat.le_refl b, filling, pending, .inl ⟨rfl, by omega, rfl, rfl⟩⟩
  | succ todo ih =>
      rcases answer : h.alloc with ⟨found, h₁⟩
      cases found with
      | none =>
          obtain ⟨pool, denied, rfl⟩ := Heap.alloc_none answer
          obtain ⟨heap, keep⟩ := filling.heap.alloc_none answer
          have step := Heap.Step.alloc_none answer
          refine ⟨b, table, _, step, Nat.le_refl b, ⟨?_, filling.same, heap,
            filling.contents.step step⟩, keep pending, .inr ⟨?_, by omega, ?_, ?_, ?_⟩⟩
          · intro j low high
            obtain ⟨linked, nodeOk⟩ := filling.linked j low high
            exact ⟨linked.step step, nodeOk⟩
          · simp only [fillLoop, answer]
          · rw [Nat.sub_self]
            rfl
          · rw [Nat.sub_self]
            exact Pool.grants_none denied 0
          · exact (Pool.alloc_none denied).2.1
      | some blk =>
          obtain ⟨pool, granted, heapEq⟩ := Heap.alloc_some answer
          have inside : b < range := by omega
          obtain ⟨head, inserted, filling, pending⟩ :=
            filling.link site ok absent inside pending answer
          have first : Heap.Step h (fibEntryPull h₁ s.addr) :=
            (Heap.Step.alloc_some answer).trans (Heap.Step.pull h₁ s.addr)
          have grants : ∀ m, h.pool.grants (m + 1) = (fibEntryPull h₁ s.addr).pool.grants m := by
            intro m
            rw [Pool.grants_some granted, heapEq]
            rfl
          obtain ⟨filled, table', h', step, low, filling', pending', outcome⟩ :=
            ih (by omega) filling pending
          refine ⟨filled, table', h', first.trans step, by omega, filling', pending', ?_⟩
          simp only [fillLoop, answer, inserted]
          rcases outcome with ⟨ran, all, enough, quiet⟩ | ⟨ran, short, before, after, refused⟩
          · refine .inl ⟨ran, all, (grants todo).trans enough, quiet.trans ?_⟩
            rw [heapEq]
            exact (Pool.alloc_some granted).2.2.1
          · have shift : filled - b = filled - (b + 1) + 1 := by omega
            refine .inr ⟨ran, short, ?_, ?_, refused⟩
            · rw [shift, grants]
              exact before
            · rw [shift, grants]
              exact after

/-- A key that is present is refused at the first node, with no trace. -/
theorem fillLoop_present {t : Stored} (member : t ∈ stored) (present : t.route.Same s.route.toKey)
    (heap : HeapOk h (Slots.gather n Node.blocks table₀ ++ restB)
      (Slots.gather n Node.links table₀ ++ restL))
    (pending : Pending h (Slots.gather n Node.blocks table₀ ++ restB)
      (Slots.gather n Node.links table₀ ++ restL) s.addr) (contents : Contents h stored) :
    ∃ h', fillLoop s.route.id s.len s.addr index range 0 table₀ h = (false, 0, table₀, h') ∧
      Heap.Step h h' ∧
      HeapOk h' (Slots.gather n Node.blocks table₀ ++ restB)
        (Slots.gather n Node.links table₀ ++ restL) ∧
      Pending h' (Slots.gather n Node.blocks table₀ ++ restB)
        (Slots.gather n Node.links table₀ ++ restL) s.addr := by
  have bound := site.fits
  have some := site.some
  obtain ⟨todo, rfl⟩ : ∃ todo, range = todo + 1 := ⟨range - 1, by omega⟩
  rcases answer : h.alloc with ⟨found, h₁⟩
  cases found with
  | none =>
      obtain ⟨heap, keep⟩ := heap.alloc_none answer
      exact ⟨h₁, by simp only [fillLoop, answer], Heap.Step.alloc_none answer, heap, keep pending⟩
  | some blk =>
      have step := Heap.Step.alloc_some answer
      obtain ⟨taken, -, -, keep⟩ := heap.alloc_some answer
      obtain ⟨freed, back, give⟩ := taken.free
      have covers : s.route.Covers c (base + index) := (site.covers _).mpr (by omega)
      have refused := (ok index (by omega)).slot_dup (contents.step step) covers member present
        ⟨blk, s.addr⟩
      refine ⟨h₁.free blk, ?_, step.trans back, freed, give (keep pending)⟩
      rw [fillLoop, answer, site.slot 0 (by omega), Nat.add_zero]
      simp only
      rw [show s.len = s.route.len from rfl, refused]

omit ok in
/-- Undoing a partial fill: the table is restored, and the route, if it was
linked at all, is freed with its last link. -/
theorem rollbackLoop_spec (fresh : s.addr ∉ Slots.gather n Node.links table₀ ++ restL) {a : Nat} (order : a ≤ b)
    (inside : b ≤ range) (filling : Filling stored s c base n index table₀ restB restL a b table h) :
    ∃ h', rollbackLoop s.route.id s.len index (b - a) a table h = (table₀, h') ∧ Heap.Step h h' ∧
      Filling stored s c base n index table₀ restB restL b b table₀ h' ∧
      h'.pool.refused = h.pool.refused ∧
      (a < b ∨ h.pool.live s.addr = false → h'.pool.live s.addr = false) := by
  have bound := site.fits
  obtain ⟨todo, gap⟩ : ∃ todo, b - a = todo := ⟨_, rfl⟩
  induction todo generalizing a table h with
  | zero =>
      have last : a = b := by omega
      subst last
      have restored : table = table₀ := by
        funext j
        exact filling.same j (by omega)
      subst restored
      refine ⟨h, by rw [gap]; rfl, .refl h, filling, rfl, ?_⟩
      rintro (more | idle)
      · omega
      · exact idle
  | succ todo ih =>
      obtain ⟨⟨before, after, blk, head, node, clear⟩, -⟩ :=
        filling.linked (index + a) (by omega) (by omega)
      have self : fibEntryIdentify (h.fibEntry s.addr) s.route.id s.len = true :=
        (filling.contents s List.mem_cons_self).identify.mpr ⟨rfl, rfl⟩
      have found : lpmEntryDelete h s.route.id s.len (before ++ ⟨blk, s.addr⟩ :: after) =
          some (before ++ after, (fibEntryPut h s.addr).free blk) := lpmEntryDelete_split clear self
      have restore : (table (index + a)).setHead (before ++ after) = table₀ (index + a) := by
        rw [node, Node.setHead_setHead, ← head, Node.setHead_self]
      have less : (table (index + a)).head.Perm (⟨blk, s.addr⟩ :: (before ++ after)) := by
        rw [node, Node.setHead_head]
        exact List.perm_middle
      have here : index + a < n := by omega
      have blocks := gather_swap_back here restB (restore ▸ Node.setHead_blocks_less less)
      have links := gather_swap_back here restL (restore ▸ Node.setHead_links_less less)
      obtain ⟨put, stepPut, gone⟩ := (filling.heap.perm blocks links).put
      obtain ⟨freed, stepFree, -⟩ := put.free
      have step := stepPut.trans stepFree
      have next : Filling stored s c base n index table₀ restB restL (a + 1) b
          (Function.update table (index + a) (table₀ (index + a)))
          ((fibEntryPut h s.addr).free blk) := by
        refine ⟨fun j low high => ?_, fun j outside => ?_, freed, filling.contents.step step⟩
        · rw [Function.update_of_ne (by omega)]
          obtain ⟨linked, nodeOk⟩ := filling.linked j (by omega) high
          exact ⟨linked.step step, nodeOk⟩
        · by_cases here : j = index + a
          · subst here
            exact Function.update_self _ _ _
          · rw [Function.update_of_ne here]
            exact filling.same j (by omega)
      obtain ⟨h', ran, step', done, quiet, dead⟩ := ih (by omega) next (by omega)
      have unrolled : b - a = b - (a + 1) + 1 := by omega
      refine ⟨h', ?_, step.trans step', done, quiet.trans ?_, fun _ => ?_⟩
      · rw [unrolled, rollbackLoop, site.slot a (by omega), node, Node.setHead_head, found]
        simp only
        rw [← node, restore]
        exact ran
      · simp only [Heap.free, Pool.free_refused, fibEntryPut_refused]
      · by_cases more : a + 1 < b
        · exact dead (.inl more)
        · -- the last node is restored, so no link to the route is left
          refine dead (.inr (Pool.free_idle (gone ?_)))
          have restored : Function.update table (index + a) (table₀ (index + a)) = table₀ := by
            funext j
            exact next.same j (by omega)
          rw [restored]
          exact fresh

end Fill

/-! ## Deleting -/

section Delete

variable {stored : List Stored} {k : Key} {c base n index range : Nat} {table₀ : Table}
  {restB restL : List Nat} (site : Site k c base n index range)
  (ok : ∀ j < n, NodeOk stored c (base + j) (table₀ j))

include site ok

/-- A node outside the run does not hold the route. -/
theorem NodeOk.outside {j : Nat} (inside : j < n) (outside : ¬ (index ≤ j ∧ j < index + range)) :
    NodeOk (stored.filter fun s => ¬ s.route.Same k) c (base + j) (table₀ j) := by
  refine (ok j inside).filter_irrelevant site.low fun s _ relevant => ?_
  simp only [decide_not, Bool.not_eq_true', decide_eq_false_iff_not]
  intro same
  refine outside ((site.covers j).mp (same.symm.covers ?_))
  rcases relevant with covers | below
  · exact covers
  · -- the key covers some node, so the route is not longer than the level
    have first := (site.covers index).mpr ⟨Nat.le_refl _, by have := site.some; omega⟩
    exact absurd below (same.covers first).not_below

/-- Unlinking the route of a key from the whole run. -/
theorem deleteLoop_present (distinct : Distinct stored) {t : Stored} (member : t ∈ stored)
    (same : t.route.Same k) {i todo : Nat} (rest : i + todo = range) {table : Table} {h : Heap}
    (done : ∀ j, index ≤ j → j < index + i →
      NodeOk (stored.filter fun s => ¬ s.route.Same k) c (base + j) (table j))
    (left : ∀ j, ¬ (index ≤ j ∧ j < index + i) → table j = table₀ j)
    (heap : HeapOk h (Slots.gather n Node.blocks table ++ restB)
      (Slots.gather n Node.links table ++ restL))
    (contents : Contents h stored) :
    ∃ table' h', deleteLoop k.id k.len index todo i table h = (true, table', h') ∧
      Heap.Step h h' ∧ h'.pool.refused = h.pool.refused ∧
      HeapOk h' (Slots.gather n Node.blocks table' ++ restB)
        (Slots.gather n Node.links table' ++ restL) ∧
      ∀ j < n, NodeOk (stored.filter fun s => ¬ s.route.Same k) c (base + j) (table' j) := by
  have bound := site.fits
  induction todo generalizing i table h with
  | zero =>
      refine ⟨table, h, rfl, .refl h, rfl, heap, fun j inside => ?_⟩
      by_cases here : index ≤ j ∧ j < index + range
      · exact done j here.1 (by omega)
      · rw [left j (by omega)]
        exact NodeOk.outside site ok inside here
  | succ todo ih =>
      have old : table (index + i) = table₀ (index + i) := left _ (by omega)
      have covers : k.Covers c (base + (index + i)) := (site.covers _).mpr (by omega)
      obtain ⟨head, entry, ran, ptr, less, nodeOk⟩ :=
        (ok (index + i) (by omega)).slot_delete site.low contents distinct covers member same
      rw [← old] at ran less nodeOk
      have here : index + i < n := by omega
      have blocks := gather_swap_back here restB (Node.setHead_blocks_less less)
      have links := gather_swap_back here restL (ptr ▸ Node.setHead_links_less less)
      obtain ⟨put, stepPut, -⟩ := (heap.perm blocks links).put
      obtain ⟨freed, stepFree, -⟩ := put.free
      have step := stepPut.trans stepFree
      obtain ⟨table', h', ran', step', quiet, heap', all⟩ := ih (i := i + 1) (by omega)
        (fun j low high => by
          by_cases here : j = index + i
          · subst here
            rw [Function.update_self]
            exact nodeOk
          · rw [Function.update_of_ne here]
            exact done j low (by omega))
        (fun j outside => by
          rw [Function.update_of_ne (by omega)]
          exact left j (by omega))
        freed (contents.step step)
      refine ⟨table', h', ?_, step.trans step', quiet.trans ?_, heap', all⟩
      · rw [deleteLoop, site.slot i (by omega), ran]
        exact ran'
      · simp only [Heap.free, Pool.free_refused, fibEntryPut_refused]

/-- A key that is absent is missed at the first node. -/
theorem deleteLoop_absent {h : Heap} (contents : Contents h stored)
    (absent : ∀ t ∈ stored, ¬ t.route.Same k) :
    deleteLoop k.id k.len index range 0 table₀ h = (false, table₀, h) := by
  have bound := site.fits
  have some := site.some
  obtain ⟨todo, rfl⟩ : ∃ todo, range = todo + 1 := ⟨range - 1, by omega⟩
  have covers : k.Covers c (base + index) := (site.covers _).mpr (by omega)
  have missed := (ok index (by omega)).slot_missing contents covers absent
  rw [deleteLoop, site.slot 0 (by omega), Nat.add_zero, missed]

end Delete

end Ufp.Daemon
