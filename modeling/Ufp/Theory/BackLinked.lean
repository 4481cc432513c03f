/-
# Ufp.Theory.BackLinked — lists whose nodes know the cell that points to them

A node holds a pointer to the next node and, as its back link, the address of the pointer cell
that points to it: the cell in the head of the list, or the one in the node before. So a node can
be linked in or taken out at a cell, without a case for the head.

`Chain heap c nodes` says that the pointers from cell `c` on lead through `nodes`, and that each
back link is right. `Linked` and `Unlinked` say which pointers change when a node is linked in or
taken out at a cell; `Chain.link` and `Chain.unlink` say what becomes of the chain. Back links are
single, so a chain from a head has no node twice (`Chain.nodup`), and chains from different heads
have no node in common (`Chain.apart`): what is done to one leaves the others alone
(`OnlyTouches.kept`).
-/
import Mathlib.Data.List.Nodup
import Mathlib.Logic.Function.Basic

namespace Ufp.Theory.BackLinked

set_option autoImplicit false

/-- A cell with a pointer to a node: in the head of a list, or in a node. -/
inductive Cell (η ν : Type) where
  | first (head : η)
  | next (node : ν)
  deriving DecidableEq

/-- The pointer in each cell, and the back link of each node. -/
@[ext]
structure Heap (η ν : Type) where
  cell : Cell η ν → Option ν
  prev : ν → Cell η ν

variable {η ν : Type}

section Store

variable [DecidableEq ν]

/-- A back link is stored in a node. -/
def Heap.setPrev (heap : Heap η ν) (n : ν) (c : Cell η ν) : Heap η ν :=
  { heap with prev := Function.update heap.prev n c }

@[simp] theorem Heap.cell_setPrev (heap : Heap η ν) (n : ν) (c : Cell η ν) : (heap.setPrev n c).cell = heap.cell := rfl

@[simp] theorem Heap.prev_setPrev (heap : Heap η ν) (n : ν) (c : Cell η ν) :
    (heap.setPrev n c).prev = Function.update heap.prev n c := rfl

variable [DecidableEq η]

/-- A pointer is stored in a cell. -/
def Heap.setCell (heap : Heap η ν) (c : Cell η ν) (pointer : Option ν) : Heap η ν :=
  { heap with cell := Function.update heap.cell c pointer }

@[simp] theorem Heap.cell_setCell (heap : Heap η ν) (c : Cell η ν) (pointer : Option ν) :
    (heap.setCell c pointer).cell = Function.update heap.cell c pointer := rfl

@[simp] theorem Heap.prev_setCell (heap : Heap η ν) (c : Cell η ν) (pointer : Option ν) :
    (heap.setCell c pointer).prev = heap.prev := rfl

end Store

/-- The pointers from cell `c` on lead through these nodes to the end. -/
def Chain (heap : Heap η ν) : Cell η ν → List ν → Prop
  | c, [] => heap.cell c = none
  | c, n :: nodes => heap.cell c = some n ∧ heap.prev n = c ∧ Chain heap (.next n) nodes

/-- The cells of a chain. -/
def cells (c : Cell η ν) (nodes : List ν) : List (Cell η ν) := c :: nodes.map .next

/-- The cell at the end of a chain. -/
def endCell : Cell η ν → List ν → Cell η ν
  | c, [] => c
  | _, n :: nodes => endCell (.next n) nodes

theorem mem_cells {c d : Cell η ν} {nodes : List ν} : d ∈ cells c nodes ↔ d = c ∨ ∃ n ∈ nodes, d = .next n := by
  simp only [cells, List.mem_cons, List.mem_map, eq_comm]

theorem endCell_mem (c : Cell η ν) (nodes : List ν) : endCell c nodes ∈ cells c nodes := by
  induction nodes generalizing c with
  | nil => exact List.mem_cons_self
  | cons n nodes ih => exact List.mem_cons_of_mem _ (ih (.next n))

theorem endCell_concat (c : Cell η ν) (nodes : List ν) (n : ν) : endCell c (nodes ++ [n]) = .next n := by
  induction nodes generalizing c with
  | nil => rfl
  | cons m nodes ih => exact ih (.next m)

theorem ne_endCell {c d : Cell η ν} {nodes front : List ν} (outside : d ∉ cells c nodes) (part : front ⊆ nodes) :
    d ≠ endCell c front := by
  rintro rfl
  refine outside (mem_cells.mpr ((mem_cells.mp (endCell_mem c front)).imp_right ?_))
  exact fun ⟨n, inside, at_n⟩ => ⟨n, part inside, at_n⟩

section Chain

variable {heap heap' : Heap η ν} {c : Cell η ν} {nodes front back : List ν} {n : ν}

/-- A chain reads its own cells and the back links of its nodes. -/
theorem Chain.congr (chain : Chain heap c nodes) (cell : ∀ d ∈ cells c nodes, heap'.cell d = heap.cell d)
    (prev : ∀ n ∈ nodes, heap'.prev n = heap.prev n) : Chain heap' c nodes := by
  induction nodes generalizing c with
  | nil => exact (cell c List.mem_cons_self).trans chain
  | cons n nodes ih =>
      obtain ⟨points, link, rest⟩ := chain
      refine ⟨(cell c List.mem_cons_self).trans points, (prev n List.mem_cons_self).trans link, ?_⟩
      exact ih rest (fun d inside => cell d (List.mem_cons_of_mem _ inside))
        fun m inside => prev m (List.mem_cons_of_mem _ inside)

theorem Chain.cell_first (chain : Chain heap c nodes) : heap.cell c = nodes.head? := by
  cases nodes with
  | nil => exact chain
  | cons n nodes => exact chain.1

/-- What is left after a part of the chain. -/
theorem Chain.drop (chain : Chain heap c (front ++ back)) : Chain heap (endCell c front) back := by
  induction front generalizing c with
  | nil => exact chain
  | cons n front ih => exact ih chain.2.2

/-- The cell after a part of the chain holds the next node. -/
theorem Chain.cell_endCell (chain : Chain heap c (front ++ back)) : heap.cell (endCell c front) = back.head? :=
  chain.drop.cell_first

/-- The back link of a node is the cell after the nodes before it. -/
theorem Chain.prev_eq (chain : Chain heap c (front ++ n :: back)) : heap.prev n = endCell c front :=
  chain.drop.2.1

theorem Chain.prev_mem (chain : Chain heap c nodes) (inside : n ∈ nodes) : heap.prev n ∈ cells c nodes := by
  obtain ⟨front, back, rfl⟩ := List.append_of_mem inside
  rw [chain.prev_eq, mem_cells]
  refine (mem_cells.mp (endCell_mem c front)).imp_right ?_
  rintro ⟨m, before, at_m⟩
  exact ⟨m, List.mem_append_left _ before, at_m⟩

/-- The back link of the first node leads out of the chain, so it is not in it again. -/
theorem Chain.nodup (chain : Chain heap c nodes) (own : ∀ n ∈ nodes, c ≠ .next n) : nodes.Nodup := by
  induction nodes generalizing c with
  | nil => exact List.nodup_nil
  | cons n nodes ih =>
      obtain ⟨-, link, rest⟩ := chain
      have fresh : n ∉ nodes := by
        intro again
        rcases mem_cells.mp (rest.prev_mem again) with self | ⟨m, inside, before⟩
        · exact own n List.mem_cons_self (link.symm.trans self)
        · exact own m (List.mem_cons_of_mem _ inside) (link.symm.trans before)
      refine List.nodup_cons.mpr ⟨fresh, ih rest fun m inside same => ?_⟩
      exact fresh (Cell.next.inj same ▸ inside)

/-- A node of a chain from a head is in no chain that starts at a cell of its own. -/
theorem Chain.apart {head : η} {others : List ν} (chain : Chain heap c nodes)
    (other : Chain heap (.first head) others) (start : c ∉ cells (.first head) others) : ∀ n ∈ nodes, n ∉ others := by
  induction nodes generalizing c with
  | nil => exact fun n inside => absurd inside List.not_mem_nil
  | cons n nodes ih =>
      obtain ⟨-, link, rest⟩ := chain
      have here : n ∉ others := fun inside => start (link ▸ other.prev_mem inside)
      have later : ∀ m ∈ nodes, m ∉ others := by
        refine ih rest fun inside => ?_
        obtain ⟨m, member, same⟩ := (mem_cells.mp inside).resolve_left nofun
        exact here (Cell.next.inj same ▸ member)
      exact List.forall_mem_cons.mpr ⟨here, later⟩

/-- The cell after a part of a chain is not in a later node. -/
theorem endCell_ne (own : ∀ n ∈ front ++ back, c ≠ .next n) (nodup : (front ++ back).Nodup) :
    ∀ n ∈ back, endCell c front ≠ .next n := by
  intro n inside same
  rcases mem_cells.mp (endCell_mem c front) with start | ⟨m, before, at_m⟩
  · exact own n (List.mem_append_right _ inside) (start.symm.trans same)
  · obtain rfl : m = n := Cell.next.inj (at_m.symm.trans same)
    exact List.disjoint_of_nodup_append nodup before inside

/-- A change at the end of a part of the chain: what comes after it is exchanged. -/
theorem Chain.exchange {back' : List ν} (chain : Chain heap c (front ++ back)) (own : ∀ n ∈ front, c ≠ .next n)
    (nodup : front.Nodup) (cell : ∀ d ∈ cells c front, d ≠ endCell c front → heap'.cell d = heap.cell d)
    (prev : ∀ n ∈ front, heap'.prev n = heap.prev n) (rest : Chain heap' (endCell c front) back') :
    Chain heap' c (front ++ back') := by
  induction front generalizing c with
  | nil => exact rest
  | cons n front ih =>
      obtain ⟨points, link, later⟩ := chain
      obtain ⟨fresh, nodup⟩ := List.nodup_cons.mp nodup
      have far : c ≠ endCell (.next n) front := by
        intro same
        rcases mem_cells.mp (endCell_mem (.next n) front) with first | ⟨m, inside, at_m⟩
        · exact own n List.mem_cons_self (same.trans first)
        · exact own m (List.mem_cons_of_mem _ inside) (same.trans at_m)
      refine ⟨(cell c List.mem_cons_self far).trans points, (prev n List.mem_cons_self).trans link, ?_⟩
      refine ih later (fun m inside same => ?_) nodup (fun d inside => cell d (List.mem_cons_of_mem _ inside))
        (fun m inside => prev m (List.mem_cons_of_mem _ inside)) rest
      exact fresh (Cell.next.inj same ▸ inside)

end Chain

/-! ## Linking in and taking out -/

/-- `new` has been linked in at cell `c`; the rest is as before. -/
structure Linked (heap heap' : Heap η ν) (c : Cell η ν) (new : ν) : Prop where
  here : heap'.cell c = some new
  back : heap'.prev new = c
  onward : heap'.cell (.next new) = heap.cell c
  follow : ∀ n, heap.cell c = some n → heap'.prev n = .next new
  cell : ∀ d, d ≠ c → d ≠ .next new → heap'.cell d = heap.cell d
  prev : ∀ n, n ≠ new → heap.cell c ≠ some n → heap'.prev n = heap.prev n

/-- `node` has been taken out at cell `c`; but for its own fields the rest is as before. -/
structure Unlinked (heap heap' : Heap η ν) (c : Cell η ν) (node : ν) : Prop where
  here : heap'.cell c = heap.cell (.next node)
  follow : ∀ n, heap.cell (.next node) = some n → heap'.prev n = c
  cell : ∀ d, d ≠ c → d ≠ .next node → heap'.cell d = heap.cell d
  prev : ∀ n, n ≠ node → heap.cell (.next node) ≠ some n → heap'.prev n = heap.prev n

section Change

variable {heap heap' : Heap η ν} {c d : Cell η ν} {new node : ν} {nodes front back : List ν}

/-- A chain is entered at another cell, when that cell and the first back link have been set. -/
theorem Chain.enter (chain : Chain heap c nodes) (nodup : nodes.Nodup) (points : heap'.cell d = heap.cell c)
    (link : ∀ n, heap.cell c = some n → heap'.prev n = d)
    (cell : ∀ n ∈ nodes, heap'.cell (.next n) = heap.cell (.next n))
    (prev : ∀ n ∈ nodes, heap.cell c ≠ some n → heap'.prev n = heap.prev n) : Chain heap' d nodes := by
  cases nodes with
  | nil => exact points.trans chain
  | cons n nodes =>
      obtain ⟨first, -, later⟩ := chain
      refine ⟨points.trans first, link n first, later.congr (fun e inside => ?_) fun m inside => ?_⟩
      · rcases mem_cells.mp inside with rfl | ⟨m, member, rfl⟩
        · exact cell n List.mem_cons_self
        · exact cell m (List.mem_cons_of_mem _ member)
      · refine prev m (List.mem_cons_of_mem _ inside) fun again => ?_
        have same : n = m := Option.some.inj (first.symm.trans again)
        exact (List.nodup_cons.mp nodup).1 (same ▸ inside)

/-- **Linking in.** A new node linked in after a part of a chain comes there in the list. -/
theorem Chain.link (chain : Chain heap c (front ++ back)) (own : ∀ n ∈ front ++ back, c ≠ .next n)
    (linked : Linked heap heap' (endCell c front) new) (fresh : new ∉ front ++ back) (start : c ≠ .next new) :
    Chain heap' c (front ++ new :: back) := by
  have nodup := chain.nodup own
  have after := chain.cell_endCell
  have differ : ∀ n ∈ front ++ back, n ≠ new := fun n inside same => fresh (same ▸ inside)
  refine chain.exchange (fun n inside => own n (List.mem_append_left _ inside)) nodup.of_append_left ?_ ?_
    ⟨linked.here, linked.back, ?_⟩
  · intro d inside far
    refine linked.cell d far ?_
    rcases mem_cells.mp inside with rfl | ⟨n, member, rfl⟩
    · exact start
    · exact fun same => differ n (List.mem_append_left _ member) (Cell.next.inj same)
  · intro n inside
    refine linked.prev n (differ n (List.mem_append_left _ inside)) fun again => ?_
    exact List.disjoint_of_nodup_append nodup inside (List.mem_of_head? (after.symm.trans again))
  · refine chain.drop.enter nodup.of_append_right linked.onward linked.follow (fun n inside => ?_) fun n inside => ?_
    · exact linked.cell _ (endCell_ne own nodup n inside).symm
        fun same => differ n (List.mem_append_right _ inside) (Cell.next.inj same)
    · exact linked.prev n (differ n (List.mem_append_right _ inside))

/-- **Taking out.** A node taken out is gone from the list. -/
theorem Chain.unlink (chain : Chain heap c (front ++ node :: back)) (own : ∀ n ∈ front ++ node :: back, c ≠ .next n)
    (unlinked : Unlinked heap heap' (endCell c front) node) : Chain heap' c (front ++ back) := by
  have nodup := chain.nodup own
  obtain ⟨nodupFront, nodupBack, disjoint⟩ := List.nodup_append'.mp nodup
  obtain ⟨gone, nodupBack⟩ := List.nodup_cons.mp nodupBack
  obtain ⟨-, -, later⟩ := chain.drop
  have after := later.cell_first
  have apart : ∀ n ∈ front, n ≠ node := fun n inside same => disjoint inside (same ▸ List.mem_cons_self)
  refine chain.exchange (fun n inside => own n (List.mem_append_left _ inside)) nodupFront ?_ ?_ ?_
  · intro d inside far
    refine unlinked.cell d far ?_
    rcases mem_cells.mp inside with rfl | ⟨n, member, rfl⟩
    · exact own node (List.mem_append_right _ List.mem_cons_self)
    · exact fun same => apart n member (Cell.next.inj same)
  · intro n inside
    refine unlinked.prev n (apart n inside) fun again => ?_
    exact disjoint inside (List.mem_cons_of_mem _ (List.mem_of_head? (after.symm.trans again)))
  · have differ : ∀ n ∈ back, n ≠ node := fun n inside same => gone (same ▸ inside)
    refine later.enter nodupBack unlinked.here unlinked.follow (fun n inside => ?_) fun n inside => ?_
    · exact unlinked.cell _ (endCell_ne own nodup n (List.mem_cons_of_mem _ inside)).symm
        fun same => differ n inside (Cell.next.inj same)
    · exact unlinked.prev n (differ n inside)

end Change

/-! ## Other chains -/

/-- From `heap` to `heap'` only the chain of `head`, with these nodes, has been touched. -/
structure OnlyTouches (heap heap' : Heap η ν) (head : η) (nodes : List ν) : Prop where
  cell : ∀ d ∉ cells (.first head) nodes, heap'.cell d = heap.cell d
  prev : ∀ n ∉ nodes, heap'.prev n = heap.prev n

section Touch

variable {heap heap' heap'' : Heap η ν} {head other : η} {new node : ν} {nodes nodes' front back list : List ν}

theorem OnlyTouches.refl (heap : Heap η ν) (head : η) (nodes : List ν) : OnlyTouches heap heap head nodes :=
  ⟨fun _ _ => rfl, fun _ _ => rfl⟩

theorem OnlyTouches.trans (first : OnlyTouches heap heap' head nodes) (second : OnlyTouches heap' heap'' head nodes) :
    OnlyTouches heap heap'' head nodes :=
  ⟨fun d outside => (second.cell d outside).trans (first.cell d outside),
    fun n outside => (second.prev n outside).trans (first.prev n outside)⟩

theorem OnlyTouches.mono (touches : OnlyTouches heap heap' head nodes) (sub : nodes ⊆ nodes') :
    OnlyTouches heap heap' head nodes' := by
  refine ⟨fun d outside => touches.cell d fun inside => outside (mem_cells.mpr ?_),
    fun n outside => touches.prev n fun inside => outside (sub inside)⟩
  exact (mem_cells.mp inside).imp_right fun ⟨n, member, at_n⟩ => ⟨n, sub member, at_n⟩

theorem Linked.onlyTouches (linked : Linked heap heap' (endCell (.first head) front) new)
    (chain : Chain heap (.first head) (front ++ back)) : OnlyTouches heap heap' head (new :: (front ++ back)) where
  cell d outside := by
    refine linked.cell d (ne_endCell outside fun n before => ?_) fun same => outside ?_
    · exact List.mem_cons_of_mem _ (List.mem_append_left _ before)
    · exact mem_cells.mpr (.inr ⟨new, List.mem_cons_self, same⟩)
  prev n outside := by
    rw [List.mem_cons, not_or] at outside
    refine linked.prev n outside.1 fun inside => outside.2 (List.mem_append_right _ ?_)
    exact List.mem_of_head? (chain.cell_endCell.symm.trans inside)

theorem Unlinked.onlyTouches (unlinked : Unlinked heap heap' (endCell (.first head) front) node)
    (chain : Chain heap (.first head) (front ++ node :: back)) :
    OnlyTouches heap heap' head (front ++ node :: back) where
  cell d outside := by
    refine unlinked.cell d (ne_endCell outside fun n before => ?_) fun same => outside ?_
    · exact List.mem_append_left _ before
    · exact mem_cells.mpr (.inr ⟨node, List.mem_append_right _ List.mem_cons_self, same⟩)
  prev n outside := by
    obtain ⟨-, -, later⟩ := chain.drop
    refine unlinked.prev n (fun same => outside ?_) fun inside => outside ?_
    · exact same ▸ List.mem_append_right _ List.mem_cons_self
    · exact List.mem_append_right _ (List.mem_cons_of_mem _ (List.mem_of_head? (later.cell_first.symm.trans inside)))

/-- Chains from different heads have no node in common. -/
theorem Chain.disjoint (chain : Chain heap (.first head) nodes) (chain' : Chain heap (.first other) list)
    (differ : other ≠ head) : ∀ n ∈ list, n ∉ nodes := by
  refine chain'.apart chain fun inside => ?_
  rcases mem_cells.mp inside with same | ⟨n, -, at_n⟩
  · exact differ (Cell.first.inj same)
  · exact nomatch at_n

/-- **The frame.** A chain from another head has its cells and its back links as before. -/
theorem OnlyTouches.kept (touches : OnlyTouches heap heap' head nodes) (differ : other ≠ head)
    (apart : ∀ n ∈ list, n ∉ nodes) :
    (∀ d ∈ cells (.first other) list, heap'.cell d = heap.cell d) ∧ ∀ n ∈ list, heap'.prev n = heap.prev n := by
  refine ⟨fun d inside => touches.cell d fun touched => ?_, fun n inside => touches.prev n (apart n inside)⟩
  rcases mem_cells.mp inside with rfl | ⟨n, member, rfl⟩ <;> rcases mem_cells.mp touched with same | ⟨m, here, same⟩
  · exact differ (Cell.first.inj same)
  · exact nomatch same
  · exact nomatch same
  · exact apart n member (Cell.next.inj same ▸ here)

end Touch

end Ufp.Theory.BackLinked
