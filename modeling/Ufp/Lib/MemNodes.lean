/-
# Ufp.Lib.MemNodes — the node structs of the buddy allocator, with their pointers

`Ufp.Lib.Mem` names a node by its position. Here the nodes of `lib/lib_mem.c` are what
they are in memory: `struct ufp_mnode` with `child`, `parent` and `index`, each in a piece
of memory that `malloc` hands out and `free` takes back. Every access goes through
`NodeHeap.read` and `NodeHeap.write`, which fail on a pointer whose struct is not there:
a result other than `none` means that no NULL pointer and no freed struct was touched,
and that nothing was freed twice.

A `Layout` is a tree of positions with the address of each struct, and `Layout.Held` says
that memory holds it. `Layout.Becomes` is a change of the structs of one tree that leaves
all others alone; what happens to a child happens to its parent (`Layout.Becomes.fork`).
-/
import Ufp.Lib.MemTree
import Mathlib.Data.Finset.Basic

namespace Ufp.Lib.Mem

set_option autoImplicit false

/-! ## Structs in memory -/

/-- `struct ufp_mnode`; a pointer is an address, and `none` is NULL. -/
structure MnodeCell where
  child0 : Option Nat
  child1 : Option Nat
  parent : Option Nat
  allocated : Bool
  index : Bool
  size : Nat
  ptr : Nat

namespace MnodeCell

/-- `node->child[index]`. -/
def child (cell : MnodeCell) (index : Bool) : Option Nat := if index then cell.child1 else cell.child0

/-- `node->child[index] = link`. -/
def setChild (index : Bool) (link : Option Nat) (cell : MnodeCell) : MnodeCell :=
  if index then { cell with child1 := link } else { cell with child0 := link }

/-- `node->allocated = flag`. -/
def setAllocated (flag : Bool) (cell : MnodeCell) : MnodeCell := { cell with allocated := flag }

end MnodeCell

/-- Where `malloc` puts a struct: anywhere but in a struct that is in use. -/
structure Placement where
  pick : Nat → Finset Nat → Nat
  fresh : ∀ n used, pick n used ∉ used

/-- The structs in use, and what the next calls of `malloc` answer. -/
structure NodeHeap where
  live : Finset Nat
  cell : Nat → MnodeCell
  malloc : Malloc
  placement : Placement

namespace NodeHeap

/-- A read through a pointer. -/
def read (h : NodeHeap) (node : Nat) : Option MnodeCell := if node ∈ h.live then some (h.cell node) else none

/-- A write through a pointer. -/
def write (h : NodeHeap) (node : Nat) (f : MnodeCell → MnodeCell) : Option NodeHeap :=
  if node ∈ h.live then some { h with cell := Function.update h.cell node (f (h.cell node)) } else none

def free (h : NodeHeap) (node : Nat) : Option NodeHeap :=
  if node ∈ h.live then some { h with live := h.live.erase node } else none

def ufpMnodeAlloc (h : NodeHeap) (parent : Option Nat) (ptr size : Nat) (index : Bool) : Option Nat × NodeHeap :=
  if h.malloc.grant h.malloc.next then
    let node := h.placement.pick h.malloc.next h.live
    let cell : MnodeCell :=
      { child0 := none, child1 := none, parent, allocated := false, index, size, ptr }
    (some node,
      { h with live := insert node h.live, cell := Function.update h.cell node cell, malloc := h.malloc.advance 1 })
  else (none, { h with malloc := h.malloc.advance 1 })

def ufpMnodeRelease (h : NodeHeap) (node : Nat) : Option NodeHeap := do
  let cell ← h.read node
  match cell.parent with
  | none => h.free node
  | some parent => do
      let h ← h.write parent (.setChild cell.index none)
      h.free node

/-- The splitting loop of `_ufp_mem_alloc` with its error path; `false` is `goto err_alloc_child`. -/
def ufpMemSplit (h : NodeHeap) (node : Nat) : Option (Bool × NodeHeap) := do
  let cell ← h.read node
  match h.ufpMnodeAlloc (some node) cell.ptr (cell.size / 2) false with
  | (none, h) => do
      let h ← h.write node (.setChild false none)
      some (false, h)
  | (some child0, h) => do
      let h ← h.write node (.setChild false (some child0))
      match h.ufpMnodeAlloc (some node) (cell.ptr + cell.size / 2) (cell.size / 2) true with
      | (none, h) => do
          let h ← h.write node (.setChild true none)
          let h ← h.ufpMnodeRelease child0
          some (false, h)
      | (some child1, h) => do
          let h ← h.write node (.setChild true (some child1))
          some (true, h)

/-- The loop over the two children, which ends at the first block found. -/
def ufpMemDescend (search : NodeHeap → Option Nat → Option (Option Nat × NodeHeap)) (h : NodeHeap) (node : Nat) :
    Option (Option Nat × NodeHeap) := do
  let cell ← h.read node
  match ← search h cell.child0 with
  | (some ret, h) => some (some ret, h)
  | (none, h) => do
      let cell ← h.read node
      search h cell.child1

/-- `if(ret) node->allocated = 1; return ret;`. -/
def ufpMemReturn (h : NodeHeap) (node : Nat) : Option Nat → Option (Option Nat × NodeHeap)
  | none => some (none, h)
  | some ret => (h.write node (.setAllocated true)).map fun h => (some ret, h)

/-- `_ufp_mem_alloc`; `none` also when `fuel` is used up. -/
def ufpMemAllocRec : Nat → NodeHeap → Option Nat → Nat → Option (Option Nat × NodeHeap)
  | 0, _, _, _ => none
  | _ + 1, h, none, _ => some (none, h)
  | fuel + 1, h, some node, size => do
      let cell ← h.read node
      if cell.size / 2 < size then h.ufpMemReturn node (if !cell.allocated && size ≤ cell.size then some node else none)
      else do
        let (ready, h) ← if cell.allocated then some (true, h) else h.ufpMemSplit node
        if ready then do
          let (ret, h) ← ufpMemDescend (fun h child => ufpMemAllocRec fuel h child size) h node
          h.ufpMemReturn node ret
        else some (none, h)

/-- `_ufp_mem_free`. -/
def ufpMemFreeRec : Nat → NodeHeap → Nat → Option NodeHeap
  | 0, _, _ => none
  | fuel + 1, h, node => do
      let h ← h.write node (.setAllocated false)
      let cell ← h.read node
      match cell.parent with
      | none => some h
      | some parent => do
          let above ← h.read parent
          let buddy ← above.child (!cell.index)
          let other ← h.read buddy
          if other.allocated then some h
          else do
            let h ← h.ufpMnodeRelease buddy
            let h ← h.ufpMnodeRelease node
            ufpMemFreeRec fuel h parent

/-- `_ufp_mem_destroy`. -/
def ufpMemDestroyRec : Nat → NodeHeap → Nat → Option NodeHeap
  | 0, _, _ => none
  | fuel + 1, h, node => do
      let cell ← h.read node
      let h ← cell.child0.elim (some h) fun child => ufpMemDestroyRec fuel h child
      let cell ← h.read node
      let h ← cell.child1.elim (some h) fun child => ufpMemDestroyRec fuel h child
      h.ufpMnodeRelease node

section Access

variable {h : NodeHeap} {node : Nat}

theorem read_live (here : node ∈ h.live) : h.read node = some (h.cell node) := if_pos here

theorem write_live (here : node ∈ h.live) (f : MnodeCell → MnodeCell) :
    h.write node f = some { h with cell := Function.update h.cell node (f (h.cell node)) } := if_pos here

theorem free_live (here : node ∈ h.live) : h.free node = some { h with live := h.live.erase node } := if_pos here

theorem ufpMnodeRelease_root (here : node ∈ h.live) (root : (h.cell node).parent = none) :
    h.ufpMnodeRelease node = some { h with live := h.live.erase node } := by
  rw [ufpMnodeRelease, read_live here, Option.bind_eq_bind, Option.bind_some, root]
  exact free_live here

theorem ufpMnodeRelease_child (here : node ∈ h.live) {parent : Nat} (above : (h.cell node).parent = some parent)
    (there : parent ∈ h.live) :
    h.ufpMnodeRelease node = some
      { h with
        live := h.live.erase node
        cell := Function.update h.cell parent ((h.cell parent).setChild (h.cell node).index none) } := by
  rw [ufpMnodeRelease, read_live here, Option.bind_eq_bind, Option.bind_some, above]
  dsimp only
  rw [write_live there, Option.bind_eq_bind, Option.bind_some]
  exact free_live here

/-- A granted `ufp_mnode_alloc`: one more struct, filled in. -/
theorem ufpMnodeAlloc_some (granted : h.malloc.grant h.malloc.next = true) (parent : Option Nat) (ptr size : Nat)
    (index : Bool) :
    ∃ addr h', h.ufpMnodeAlloc parent ptr size index = (some addr, h') ∧ addr ∉ h.live ∧
      h'.live = insert addr h.live ∧ h'.cell addr = ⟨none, none, parent, false, index, size, ptr⟩ ∧
      (∀ x, x ≠ addr → h'.cell x = h.cell x) ∧ h'.malloc = h.malloc.advance 1 := by
  refine ⟨_, _, if_pos granted, h.placement.fresh _ _, rfl, Function.update_self _ _ _, fun x ne => ?_, rfl⟩
  exact Function.update_of_ne ne _ _

theorem ufpMnodeAlloc_none (refused : h.malloc.grant h.malloc.next = false) (parent : Option Nat) (ptr size : Nat)
    (index : Bool) :
    h.ufpMnodeAlloc parent ptr size index = (none, { h with malloc := h.malloc.advance 1 }) :=
  if_neg (Bool.not_eq_true _ ▸ refused)

/-- A write to a struct in use. -/
theorem write_some (here : node ∈ h.live) (f : MnodeCell → MnodeCell) :
    ∃ h', h.write node f = some h' ∧ h'.live = h.live ∧ h'.cell node = f (h.cell node) ∧
      (∀ x, x ≠ node → h'.cell x = h.cell x) ∧ h'.malloc = h.malloc :=
  ⟨_, write_live here f, rfl, Function.update_self _ _ _, fun _ ne => Function.update_of_ne ne _ _, rfl⟩

end Access

end NodeHeap

/-! ## Layouts -/

/-- A tree of nodes with the address of each struct. -/
inductive Layout where
  | null
  | node (addr : Nat) (allocated : Bool) (size ptr : Nat) (child0 child1 : Layout)

namespace Layout

/-- The tree without the addresses. -/
def erase : Layout → Mnode
  | .null => .null
  | .node _ allocated size ptr child0 child1 => .node allocated size ptr child0.erase child1.erase

/-- The pointer to the tree. -/
def addr : Layout → Option Nat
  | .null => none
  | .node addr _ _ _ _ _ => some addr

/-- The pointer to the node at a position. -/
def addrAt : Layout → Path → Option Nat
  | t, [] => t.addr
  | .null, _ :: _ => none
  | .node _ _ _ _ child0 child1, index :: path => (if index then child1 else child0).addrAt path

/-- The structs of a tree. -/
def nodes : Layout → List Nat
  | .null => []
  | .node addr _ _ _ child0 child1 => addr :: (child0.nodes ++ child1.nodes)

/-- Each struct is in memory and says what the tree says. -/
def In (h : NodeHeap) : Layout → Option Nat → Bool → Prop
  | .null, _, _ => True
  | .node addr allocated size ptr child0 child1, parent, index =>
      addr ∈ h.live ∧ h.cell addr = ⟨child0.addr, child1.addr, parent, allocated, index, size, ptr⟩ ∧
        child0.In h (some addr) false ∧ child1.In h (some addr) true

/-- The tree is in memory, with a struct of its own for each node. -/
structure Held (h : NodeHeap) (parent : Option Nat) (index : Bool) (t : Layout) : Prop where
  stored : t.In h parent index
  distinct : t.nodes.Nodup

/-- A node with one child named by its index. -/
def fork (i : Bool) (addr : Nat) (allocated : Bool) (size ptr : Nat) (child sibling : Layout) : Layout :=
  .node addr allocated size ptr (if i then sibling else child) (if i then child else sibling)

variable {h h' : NodeHeap} {parent : Option Nat} {index a : Bool} {size ptr addr : Nat} {t : Layout}

theorem In.live (stored : t.In h parent index) {x : Nat} (member : x ∈ t.nodes) : x ∈ h.live := by
  induction t generalizing parent index with
  | null => cases member
  | node addr allocated size ptr child0 child1 ih0 ih1 =>
      obtain ⟨here, -, left, right⟩ := stored
      rcases List.mem_cons.mp member with rfl | below
      · exact here
      · rcases List.mem_append.mp below with below | below
        · exact ih0 left below
        · exact ih1 right below

/-- A tree is still in memory when nothing has happened to its structs. -/
theorem In.frame (stored : t.In h parent index) (same : ∀ x ∈ t.nodes, x ∈ h'.live ∧ h'.cell x = h.cell x) :
    t.In h' parent index := by
  induction t generalizing parent index with
  | null => trivial
  | node addr allocated size ptr child0 child1 ih0 ih1 =>
      obtain ⟨-, filled, left, right⟩ := stored
      obtain ⟨here, kept⟩ := same addr List.mem_cons_self
      refine ⟨here, kept.trans filled, ih0 left fun x member => same x ?_, ih1 right fun x member => same x ?_⟩
      · exact List.mem_cons_of_mem _ (List.mem_append_left _ member)
      · exact List.mem_cons_of_mem _ (List.mem_append_right _ member)

section Fork

variable {h : NodeHeap} {parent : Option Nat} {index i a : Bool} {addr size ptr x : Nat} {child sibling : Layout}

theorem mem_nodes_fork :
    x ∈ (fork i addr a size ptr child sibling).nodes ↔ x = addr ∨ x ∈ child.nodes ∨ x ∈ sibling.nodes := by
  cases i with
  | false => simp [fork, nodes]
  | true => simp [fork, nodes, or_comm]

/-- The struct of a node whose child `i` is `child`. -/
def forkCell (parent : Option Nat) (index i a : Bool) (size ptr : Nat) (child sibling : Option Nat) : MnodeCell :=
  ⟨if i then sibling else child, if i then child else sibling, parent, a, index, size, ptr⟩

theorem held_fork :
    (fork i addr a size ptr child sibling).Held h parent index ↔
      (addr ∈ h.live ∧ h.cell addr = forkCell parent index i a size ptr child.addr sibling.addr) ∧
        (child.Held h (some addr) i ∧ sibling.Held h (some addr) (!i)) ∧
        addr ∉ child.nodes ∧ addr ∉ sibling.nodes ∧ ∀ x ∈ child.nodes, x ∉ sibling.nodes := by
  cases i with
  | false =>
      constructor
      · rintro ⟨⟨here, filled, left, right⟩, distinct⟩
        simp only [fork, nodes, List.nodup_cons, List.nodup_append, List.mem_append, not_or] at distinct
        obtain ⟨⟨out, out'⟩, first, second, apart⟩ := distinct
        exact ⟨⟨here, filled⟩, ⟨⟨left, first⟩, ⟨right, second⟩⟩, out, out',
          fun x one two => apart x one x two rfl⟩
      · rintro ⟨⟨here, filled⟩, ⟨⟨left, first⟩, ⟨right, second⟩⟩, out, out', apart⟩
        refine ⟨⟨here, filled, left, right⟩, ?_⟩
        simp only [fork, nodes, List.nodup_cons, List.nodup_append, List.mem_append, not_or]
        exact ⟨⟨out, out'⟩, first, second, fun x one y two same => apart x one (same ▸ two)⟩
  | true =>
      constructor
      · rintro ⟨⟨here, filled, left, right⟩, distinct⟩
        simp only [fork, nodes, List.nodup_cons, List.nodup_append, List.mem_append, not_or] at distinct
        obtain ⟨⟨out, out'⟩, first, second, apart⟩ := distinct
        exact ⟨⟨here, filled⟩, ⟨⟨right, second⟩, ⟨left, first⟩⟩, out', out,
          fun x one two => apart x two x one rfl⟩
      · rintro ⟨⟨here, filled⟩, ⟨⟨right, second⟩, ⟨left, first⟩⟩, out, out', apart⟩
        refine ⟨⟨here, filled, left, right⟩, ?_⟩
        simp only [fork, nodes, List.nodup_cons, List.nodup_append, List.mem_append, not_or]
        exact ⟨⟨out', out⟩, first, second, fun x one y two same => apart y two (same ▸ one)⟩

end Fork

/-- The memory goes from holding `t` to holding `t'` with the same root, and nothing
happens to other structs. -/
structure Becomes (h h' : NodeHeap) (parent : Option Nat) (index : Bool) (t t' : Layout) : Prop where
  held : t'.Held h' parent index
  root : t'.addr = t.addr
  live : ∀ x, x ∈ h'.live ↔ x ∈ t'.nodes ∨ x ∈ h.live ∧ x ∉ t.nodes
  kept : ∀ x ∈ h.live, x ∉ t.nodes → h'.cell x = h.cell x
  fresh : ∀ x ∈ t'.nodes, x ∈ t.nodes ∨ x ∉ h.live

namespace Becomes

variable {h h' h'' : NodeHeap} {parent : Option Nat} {index : Bool} {t t' t'' : Layout}

theorem refl (held : t.Held h parent index) : Becomes h h parent index t t where
  held := held
  root := rfl
  live := fun x => by
    constructor
    · intro here
      exact (em (x ∈ t.nodes)).imp_right fun out => ⟨here, out⟩
    · rintro (member | ⟨here, -⟩)
      · exact held.stored.live member
      · exact here
  kept := fun _ _ _ => rfl
  fresh := fun _ member => .inl member

/-- A struct of somebody else is still in memory. -/
theorem stays (first : Becomes h h' parent index t t') {x : Nat} (here : x ∈ h.live) (out : x ∉ t.nodes) :
    x ∈ h'.live ∧ x ∉ t'.nodes :=
  ⟨(first.live x).mpr (.inr ⟨here, out⟩), fun member => (first.fresh x member).elim out fun gone => gone here⟩

theorem trans (first : Becomes h h' parent index t t') (second : Becomes h' h'' parent index t' t'') :
    Becomes h h'' parent index t t'' where
  held := second.held
  root := second.root.trans first.root
  live := fun x => by
    rw [second.live, first.live]
    constructor
    · rintro (new | ⟨old | old, out⟩)
      · exact .inl new
      · exact absurd old out
      · exact .inr old
    · rintro (new | ⟨here, out⟩)
      · exact .inl new
      · exact .inr ⟨.inr ⟨here, out⟩, (first.stays here out).2⟩
  kept := fun x here out => by
    obtain ⟨here', out'⟩ := first.stays here out
    exact (second.kept x here' out').trans (first.kept x here out)
  fresh := fun x member => by
    rcases second.fresh x member with old | gone
    · exact first.fresh x old
    · by_cases old : x ∈ t.nodes
      · exact .inl old
      · exact .inr fun here => gone (first.stays here old).1

/-- What happens to a child happens to its parent. -/
theorem fork {i : Bool} {child child' sibling : Layout}
    (held : (fork i addr a size ptr child sibling).Held h parent index)
    (below : Becomes h h' (some addr) i child child') :
    Becomes h h' parent index (.fork i addr a size ptr child sibling) (.fork i addr a size ptr child' sibling) := by
  obtain ⟨⟨here, filled⟩, ⟨childHeld, siblingHeld⟩, out, out', apart⟩ := held_fork.mp held
  obtain ⟨here', out''⟩ := below.stays here out
  -- the sibling's structs are not the child's, before and after
  have beside : ∀ x ∈ sibling.nodes, x ∈ h'.live ∧ h'.cell x = h.cell x ∧ x ∉ child'.nodes := by
    intro x member
    have there := siblingHeld.stored.live member
    have other : x ∉ child.nodes := fun one => apart x one member
    exact ⟨(below.stays there other).1, below.kept x there other, (below.stays there other).2⟩
  refine ⟨held_fork.mpr ⟨⟨here', ?_⟩, ⟨below.held, ?_, siblingHeld.distinct⟩, out'', out', ?_⟩, rfl, ?_, ?_, ?_⟩
  · rw [below.kept addr here out, filled, below.root]
  · exact siblingHeld.stored.frame fun x member => ⟨(beside x member).1, (beside x member).2.1⟩
  · exact fun x one two => (beside x two).2.2 one
  · intro x
    rw [mem_nodes_fork, mem_nodes_fork, below.live]
    constructor
    · rintro (new | ⟨there, other⟩)
      · exact .inl (.inr (.inl new))
      · by_cases self : x = addr
        · exact .inl (.inl self)
        · by_cases side : x ∈ sibling.nodes
          · exact .inl (.inr (.inr side))
          · exact .inr ⟨there, fun all => all.elim self fun rest => rest.elim other side⟩
    · rintro ((rfl | new | side) | ⟨there, other⟩)
      · exact .inr ⟨here, out⟩
      · exact .inl new
      · exact .inr ⟨siblingHeld.stored.live side, fun one => apart x one side⟩
      · exact .inr ⟨there, fun one => other (.inr (.inl one))⟩
  · intro x there other
    exact below.kept x there fun one => other (mem_nodes_fork.mpr (.inr (.inl one)))
  · intro x member
    rw [mem_nodes_fork] at member ⊢
    rcases member with self | new | side
    · exact .inl (.inl self)
    · exact (below.fresh x new).imp_left fun old => .inr (.inl old)
    · exact .inl (.inr (.inr side))

/-- A write to the root's own struct. -/
theorem write {i a' : Bool} {child sibling : Layout}
    (held : (Layout.fork i addr a size ptr child sibling).Held h parent index) {f : MnodeCell → MnodeCell}
    (sets : f (forkCell parent index i a size ptr child.addr sibling.addr) =
      forkCell parent index i a' size ptr child.addr sibling.addr) :
    h.write addr f = some { h with cell := Function.update h.cell addr (f (h.cell addr)) } ∧
      Becomes h { h with cell := Function.update h.cell addr (f (h.cell addr)) } parent index
        (.fork i addr a size ptr child sibling) (.fork i addr a' size ptr child sibling) := by
  obtain ⟨⟨here, filled⟩, ⟨childHeld, siblingHeld⟩, out, out', apart⟩ := held_fork.mp held
  have others : ∀ x, x ≠ addr → Function.update h.cell addr (f (h.cell addr)) x = h.cell x :=
    fun x ne => Function.update_of_ne ne _ _
  refine ⟨NodeHeap.write_live here f, held_fork.mpr ⟨⟨here, ?_⟩, ⟨⟨?_, childHeld.distinct⟩, ?_,
    siblingHeld.distinct⟩, out, out', apart⟩, rfl, ?_, ?_, ?_⟩
  · rw [← sets, ← filled]
    exact Function.update_self _ _ _
  · refine childHeld.stored.frame fun x member => ⟨childHeld.stored.live member, others x ?_⟩
    rintro rfl
    exact out member
  · refine siblingHeld.stored.frame fun x member => ⟨siblingHeld.stored.live member, others x ?_⟩
    rintro rfl
    exact out' member
  · intro x
    rw [mem_nodes_fork, mem_nodes_fork]
    constructor
    · intro there
      exact (em _).imp_right fun none => ⟨there, none⟩
    · rintro ((rfl | one | side) | ⟨there, -⟩)
      · exact here
      · exact childHeld.stored.live one
      · exact siblingHeld.stored.live side
      · exact there
  · intro x there other
    exact others x fun self => other (mem_nodes_fork.mpr (.inl self))
  · intro x member
    exact .inl (mem_nodes_fork.mpr (mem_nodes_fork.mp member))

end Becomes

/-- Every node of `t` is a node of `t'`, at the same address. -/
def Sub (t t' : Layout) : Prop := ∀ path x, t.addrAt path = some x → t'.addrAt path = some x

theorem Sub.refl (t : Layout) : t.Sub t := fun _ _ found => found

theorem Sub.trans {t' t'' : Layout} (first : t.Sub t') (second : t'.Sub t'') : t.Sub t'' :=
  fun path x found => second path x (first path x found)

theorem Sub.fork {i a' : Bool} {child child' sibling : Layout} (below : child.Sub child') :
    (Layout.fork i addr a size ptr child sibling).Sub (.fork i addr a' size ptr child' sibling) := by
  intro path x found
  cases path with
  | nil => exact found
  | cons index path => cases i <;> cases index <;> first | exact below path x found | exact found

/-- A node without children. -/
def leaf (addr : Nat) (allocated : Bool) (size ptr : Nat) : Layout := .node addr allocated size ptr .null .null

theorem leaf_sub (addr : Nat) (a a' : Bool) (size ptr : Nat) (child0 child1 : Layout) :
    (leaf addr a size ptr).Sub (.node addr a' size ptr child0 child1) := by
  intro path x found
  cases path with
  | nil => exact found
  | cons index path => cases index <;> cases path <;> cases found

theorem held_leaf :
    (leaf addr a size ptr).Held h parent index ↔
      addr ∈ h.live ∧ h.cell addr = ⟨none, none, parent, a, index, size, ptr⟩ := by
  constructor
  · rintro ⟨⟨here, filled, -⟩, -⟩
    exact ⟨here, filled⟩
  · rintro ⟨here, filled⟩
    exact ⟨⟨here, filled, trivial, trivial⟩, List.nodup_singleton _⟩

theorem Becomes.of_root {a' : Bool} (here : addr ∈ h'.live)
    (filled : h'.cell addr = ⟨none, none, parent, a', index, size, ptr⟩) (live : ∀ x, x ∈ h'.live ↔ x ∈ h.live)
    (others : ∀ x ∈ h.live, x ≠ addr → h'.cell x = h.cell x) :
    Becomes h h' parent index (leaf addr a size ptr) (leaf addr a' size ptr) where
  held := held_leaf.mpr ⟨here, filled⟩
  root := rfl
  live := fun x => by
    rw [live]
    constructor
    · intro there
      exact (em _).imp_right fun out => ⟨there, out⟩
    · rintro (member | ⟨there, -⟩)
      · rw [List.mem_singleton.mp member]
        exact (live addr).mp here
      · exact there
  kept := fun x there out => others x there fun same => out (List.mem_singleton.mpr same)
  fresh := fun _ member => .inl member

/-- Two new structs below a node that had none. -/
theorem Becomes.of_split {addr0 addr1 : Nat} (here : addr ∈ h.live) (out0 : addr0 ∉ h.live) (out1 : addr1 ∉ h.live)
    (apart : addr0 ≠ addr1) (live : ∀ x, x ∈ h'.live ↔ x = addr1 ∨ x = addr0 ∨ x ∈ h.live)
    (root : h'.cell addr = ⟨some addr0, some addr1, parent, false, index, size, ptr⟩)
    (left : h'.cell addr0 = ⟨none, none, some addr, false, false, size / 2, ptr⟩)
    (right : h'.cell addr1 = ⟨none, none, some addr, false, true, size / 2, ptr + size / 2⟩)
    (others : ∀ x ∈ h.live, x ≠ addr → h'.cell x = h.cell x) :
    Becomes h h' parent index (leaf addr false size ptr)
      (.node addr false size ptr (leaf addr0 false (size / 2) ptr)
        (leaf addr1 false (size / 2) (ptr + size / 2))) := by
  have below : ∀ x, x ∈ (Layout.node addr false size ptr (leaf addr0 false (size / 2) ptr)
      (leaf addr1 false (size / 2) (ptr + size / 2))).nodes ↔ x = addr ∨ x = addr0 ∨ x = addr1 := by
    intro x
    simp [nodes, leaf]
  refine ⟨⟨⟨(live _).mpr (.inr (.inr here)), root, ⟨(live _).mpr (.inr (.inl rfl)), left, trivial, trivial⟩,
    ⟨(live _).mpr (.inl rfl), right, trivial, trivial⟩⟩, ?_⟩, rfl, fun x => ?_, fun x there out => ?_,
    fun x member => ?_⟩
  · have apart0 : addr ≠ addr0 := fun same => out0 (same ▸ here)
    have apart1 : addr ≠ addr1 := fun same => out1 (same ▸ here)
    simp [nodes, leaf, apart, apart0, apart1]
  · rw [live, below]
    constructor
    · rintro (rfl | rfl | there)
      · exact .inl (.inr (.inr rfl))
      · exact .inl (.inr (.inl rfl))
      · by_cases self : x = addr
        · exact .inl (.inl self)
        · exact .inr ⟨there, fun member => self (List.mem_singleton.mp member)⟩
    · rintro ((rfl | rfl | rfl) | ⟨there, -⟩)
      · exact .inr (.inr here)
      · exact .inr (.inl rfl)
      · exact .inl rfl
      · exact .inr (.inr there)
  · exact others x there fun same => out (List.mem_singleton.mpr same)
  · rcases (below x).mp member with rfl | rfl | rfl
    · exact .inl (List.mem_singleton.mpr rfl)
    · exact .inr out0
    · exact .inr out1

theorem erase_eq_leaf (same : t.erase = .leaf a size ptr) : ∃ addr, t = leaf addr a size ptr := by
  cases t with
  | null => cases same
  | node addr a' size' ptr' child0 child1 =>
      cases child0 <;> cases child1 <;> cases same
      exact ⟨addr, rfl⟩

end Layout

end Ufp.Lib.Mem
