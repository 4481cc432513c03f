/-
# Ufp.Lib.MemNodesSim — the recursions of the buddy allocator over pointers

The three recursions of `lib/lib_mem.c` over `struct ufp_mnode`, compared with those of
`Ufp.Lib.Mem` on the tree that the structs make up:

* `allocRec_sim`: `_ufp_mem_alloc` finds the node that `ufpMemAllocRec` finds;
* `freeRec_root`: `_ufp_mem_free` leaves the tree that `ufpMemFreeRec` leaves;
* `destroyRec_sim`: `_ufp_mem_destroy` frees every struct of the tree, each once.

None of them touches a struct that is not in use, as long as the tree is well formed
(`Shape`).
-/
import Ufp.Lib.MemNodes

namespace Ufp.Lib.Mem

set_option autoImplicit false

open Layout

/-! ## `_ufp_mem_alloc` -/

section Split

variable {h : NodeHeap} {parent : Option Nat} {index : Bool} {addr size ptr : Nat}

/-- The splitting loop makes two children or leaves the node as it was. -/
theorem split_sim (held : (leaf addr false size ptr).Held h parent index) :
    (∃ h', h.ufpMemSplit addr = some (false, h') ∧
      ufpMemSplit h.malloc size ptr .null = (.error (.null, .null), h'.malloc) ∧
      Becomes h h' parent index (leaf addr false size ptr) (leaf addr false size ptr)) ∨
    ∃ h' addr0 addr1, h.ufpMemSplit addr = some (true, h') ∧
      ufpMemSplit h.malloc size ptr .null =
        (.ok (.leaf false (size / 2) ptr, .leaf false (size / 2) (ptr + size / 2)), h'.malloc) ∧
      Becomes h h' parent index (leaf addr false size ptr)
        (.node addr false size ptr (leaf addr0 false (size / 2) ptr) (leaf addr1 false (size / 2) (ptr + size / 2))) := by
  obtain ⟨here, filled⟩ := held_leaf.mp held
  rw [ufpMemSplit_eq]
  unfold NodeHeap.ufpMemSplit
  rw [NodeHeap.read_live here, filled]
  simp only [Option.bind_eq_bind, Option.bind_some]
  cases first : h.malloc.grant h.malloc.next with
  | false =>
      rw [NodeHeap.ufpMnodeAlloc_none first]
      obtain ⟨h', wrote, live, cell, others, malloc⟩ := NodeHeap.write_some
        (h := { h with malloc := h.malloc.advance 1 }) here (.setChild false none)
      simp only [wrote, Option.bind_some, Bool.false_eq_true, if_false]
      refine .inl ⟨h', rfl, by rw [malloc], ?_⟩
      refine Becomes.of_root (live ▸ here) ?_ (fun x => by rw [live]) fun x there out => others x out
      rw [cell, filled]
      rfl
  | true =>
      obtain ⟨addr0, h₁, made0, out0, live0, cell0, others0, malloc0⟩ :=
        NodeHeap.ufpMnodeAlloc_some first (some addr) ptr (size / 2) false
      have apart : addr ≠ addr0 := fun same => out0 (same ▸ here)
      have here₁ : addr ∈ h₁.live := live0 ▸ Finset.mem_insert_of_mem here
      obtain ⟨h₂, wrote, live₂, cell₂, others₂, malloc₂⟩ := NodeHeap.write_some here₁ (.setChild false (some addr0))
      rw [made0]
      simp only [wrote, Option.bind_some, if_true]
      have next : h₂.malloc.grant h₂.malloc.next = h.malloc.grant (h.malloc.next + 1) := by
        rw [malloc₂, malloc0]
        rfl
      have here₂ : addr ∈ h₂.live := live₂ ▸ here₁
      cases second : h.malloc.grant (h.malloc.next + 1) with
      | false =>
          rw [NodeHeap.ufpMnodeAlloc_none (next.trans second)]
          obtain ⟨h₃, wrote₃, live₃, cell₃, others₃, malloc₃⟩ := NodeHeap.write_some
            (h := { h₂ with malloc := h₂.malloc.advance 1 }) here₂ (.setChild true none)
          have kept0 : h₃.cell addr0 = ⟨none, none, some addr, false, false, size / 2, ptr⟩ := by
            rw [others₃ addr0 apart.symm, others₂ addr0 apart.symm, cell0]
          have live : h₃.live = insert addr0 h.live := by rw [live₃, live₂, live0]
          have released := @NodeHeap.ufpMnodeRelease_child h₃ addr0
            (by rw [live]; exact Finset.mem_insert_self _ _) addr (by rw [kept0])
            (by rw [live]; exact Finset.mem_insert_of_mem here)
          simp only [wrote₃, released, Option.bind_some, Bool.false_eq_true, if_false]
          refine .inl ⟨_, rfl, ?_, ?_⟩
          · rw [malloc₃, malloc₂, malloc0]
            rfl
          · have back : h₃.live.erase addr0 = h.live := by rw [live, Finset.erase_insert out0]
            refine Becomes.of_root (back.symm ▸ here) ?_ (fun x => by rw [back]) fun x there out => ?_
            · refine (Function.update_self _ _ _).trans ?_
              rw [kept0, cell₃, cell₂, others0 addr apart, filled]
              rfl
            · refine (Function.update_of_ne out _ _).trans ?_
              rw [others₃ x out, others₂ x out, others0 x fun same => out0 (same ▸ there)]
      | true =>
          obtain ⟨addr1, h₃, made1, out1, live1, cell1, others1, malloc1⟩ :=
            NodeHeap.ufpMnodeAlloc_some (next.trans second) (some addr) (ptr + size / 2) (size / 2) true
          have here₃ : addr ∈ h₃.live := live1 ▸ Finset.mem_insert_of_mem here₂
          obtain ⟨h₄, wrote₄, live₄, cell₄, others₄, malloc₄⟩ :=
            NodeHeap.write_some here₃ (.setChild true (some addr1))
          rw [made1]
          simp only [wrote₄, Option.bind_some, if_true]
          rw [live₂, live0, Finset.mem_insert, not_or] at out1
          have apart1 : addr ≠ addr1 := fun same => out1.2 (same ▸ here)
          refine .inr ⟨h₄, addr0, addr1, rfl, ?_, ?_⟩
          · rw [malloc₄, malloc1, malloc₂, malloc0]
            rfl
          · have live : h₄.live = insert addr1 (insert addr0 h.live) := by rw [live₄, live1, live₂, live0]
            have root : h₄.cell addr = ⟨some addr0, some addr1, parent, false, index, size, ptr⟩ := by
              rw [cell₄, others1 addr apart1, cell₂, others0 addr apart, filled]
              rfl
            have left : h₄.cell addr0 = ⟨none, none, some addr, false, false, size / 2, ptr⟩ := by
              rw [others₄ addr0 apart.symm, others1 addr0 (Ne.symm out1.1), others₂ addr0 apart.symm, cell0]
            have right : h₄.cell addr1 = ⟨none, none, some addr, false, true, size / 2, ptr + size / 2⟩ := by
              rw [others₄ addr1 apart1.symm, cell1]
            have mem : ∀ x, x ∈ h₄.live ↔ x = addr1 ∨ x = addr0 ∨ x ∈ h.live := fun x => by
              rw [live, Finset.mem_insert, Finset.mem_insert]
            refine Becomes.of_split here out0 out1.2 (Ne.symm out1.1) mem root left right fun x there self => ?_
            rw [others₄ x self, others1 x fun same => out1.2 (same ▸ there), others₂ x self,
              others0 x fun same => out0 (same ▸ there)]

end Split

section Search

variable {request : Nat} {positive : 0 < request}

/-- The pointer a search returns is that of the node it finds. -/
def Layout.Returns (t : Layout) (ret : Option Nat) : Option Path → Prop
  | none => ret = none
  | some path => ret ≠ none ∧ t.addrAt path = ret

/-- What a search leaves of a tree: every node it had, and maybe more. -/
structure Grows (h h' : NodeHeap) (parent : Option Nat) (index : Bool) (t t' : Layout) : Prop where
  becomes : Becomes h h' parent index t t'
  sub : t.Sub t'

variable {size ptr addr : Nat} {a index : Bool} {h : NodeHeap} {parent : Option Nat} {left right : Layout}

theorem Grows.trans {h h' h'' : NodeHeap} {parent : Option Nat} {index : Bool} {t t' t'' : Layout}
    (first : Grows h h' parent index t t') (second : Grows h' h'' parent index t' t'') :
    Grows h h'' parent index t t'' :=
  ⟨first.becomes.trans second.becomes, first.sub.trans second.sub⟩

/-- `search` does what the search in the tree does: same node, same calls of `malloc`. -/
def Simulates (positive : 0 < request) (search : NodeHeap → Option Nat → Option (Option Nat × NodeHeap))
    (t : Layout) : Prop :=
  ∀ h parent index, t.Held h parent index → ∃ path ret t' h', search h t.addr = some (ret, h') ∧
    ufpMemAllocRec t.erase request positive h.malloc = (path, t'.erase, h'.malloc) ∧ t'.Returns ret path ∧
    Grows h h' parent index t t'

/-- The search in two children, in the tree. -/
def ufpMemBelow (positive : 0 < request) (left right : Mnode) (m : Malloc) : Option Path × Mnode × Mnode × Malloc :=
  match ufpMemAllocRec left request positive m with
  | (some path, left, m) => (some (false :: path), left, right, m)
  | (none, left, m) =>
      match ufpMemAllocRec right request positive m with
      | (path, right, m) => (path.map (true :: ·), left, right, m)

theorem ufpMemAllocRec_below {m m' m'' : Malloc} {child0 child1 left right left' right' : Mnode} {path : Option Path}
    (large : ¬ size / 2 < request) (made : ufpMemChildren m a size ptr child0 child1 = (.ok (left, right), m'))
    (ran : ufpMemBelow positive left right m' = (path, left', right', m'')) :
    ufpMemAllocRec (.node a size ptr child0 child1) request positive m =
      (path, .node (a || path.isSome) size ptr left' right', m'') := by
  rw [ufpMemAllocRec_descend large made]
  unfold ufpMemBelow at ran
  rcases first : ufpMemAllocRec left request positive m' with ⟨_ | path, left, m₁⟩
  · rcases second : ufpMemAllocRec right request positive m₁ with ⟨_ | path, right, m₂⟩
    · simp only [first, second] at ran ⊢
      obtain ⟨rfl, rfl, rfl, rfl⟩ : _ ∧ _ ∧ _ ∧ _ := by simpa using ran
      simp
    · simp only [first, second] at ran ⊢
      obtain ⟨rfl, rfl, rfl, rfl⟩ : _ ∧ _ ∧ _ ∧ _ := by simpa using ran
      simp
  · simp only [first] at ran ⊢
    obtain ⟨rfl, rfl, rfl, rfl⟩ : _ ∧ _ ∧ _ ∧ _ := by simpa using ran
    simp

/-- The loop over the children of a node. -/
theorem descend_sim {search : NodeHeap → Option Nat → Option (Option Nat × NodeHeap)}
    (held : (Layout.node addr a size ptr left right).Held h parent index) (low : Simulates positive search left)
    (high : Simulates positive search right) :
    ∃ path ret left' right' h', h.ufpMemDescend search addr = some (ret, h') ∧
      ufpMemBelow positive left.erase right.erase h.malloc = (path, left'.erase, right'.erase, h'.malloc) ∧
      (Layout.node addr a size ptr left' right').Returns ret path ∧
      Grows h h' parent index (.node addr a size ptr left right) (.node addr a size ptr left' right') := by
  obtain ⟨⟨here, filled⟩, ⟨leftHeld, -⟩, -⟩ := (held_fork (i := false)).mp held
  obtain ⟨path, ret, left', h₁, search0, tree0, returns0, grows0⟩ := low _ _ _ leftHeld
  have below : Becomes h h₁ parent index (.node addr a size ptr left right) (.node addr a size ptr left' right) :=
    Becomes.fork (i := false) held grows0.becomes
  have grows : Grows h h₁ parent index (.node addr a size ptr left right) (.node addr a size ptr left' right) :=
    ⟨below, Sub.fork (i := false) grows0.sub⟩
  rw [NodeHeap.ufpMemDescend, NodeHeap.read_live here]
  simp only [Option.bind_eq_bind, Option.bind_some]
  rw [filled, show (forkCell parent index false a size ptr left.addr right.addr).child0 = left.addr from rfl, search0]
  cases path with
  | some path =>
      obtain ⟨real, found⟩ := returns0
      obtain ⟨x, rfl⟩ := Option.ne_none_iff_exists'.mp real
      refine ⟨some (false :: path), some x, left', right, h₁, rfl, ?_, ⟨real, found⟩, grows⟩
      simp only [ufpMemBelow, tree0]
  | none =>
      obtain rfl : ret = none := returns0
      obtain ⟨⟨here₁, filled₁⟩, ⟨rightHeld, -⟩, -⟩ := (held_fork (i := true)).mp below.held
      obtain ⟨path, ret, right', h₂, search1, tree1, returns1, grows1⟩ := high _ _ _ rightHeld
      have beside : Grows h₁ h₂ parent index (.node addr a size ptr left' right)
          (.node addr a size ptr left' right') :=
        ⟨Becomes.fork (i := true) below.held grows1.becomes, Sub.fork (i := true) grows1.sub⟩
      simp only [Option.bind_some]
      rw [NodeHeap.read_live here₁]
      simp only [Option.bind_some]
      rw [filled₁, show (forkCell parent index true a size ptr right.addr left'.addr).child1 = right.addr from rfl,
        search1]
      refine ⟨path.map (true :: ·), ret, left', right', h₂, rfl, ?_, ?_, grows.trans beside⟩
      · simp only [ufpMemBelow, tree0, tree1]
      · cases path with
        | none => exact returns1
        | some path => exact returns1

/-- `if(ret) node->allocated = 1; return ret;`. -/
theorem return_sim (held : (Layout.node addr a size ptr left right).Held h parent index) {ret : Option Nat}
    {path : Option Path} (returns : (Layout.node addr a size ptr left right).Returns ret path) :
    ∃ h', h.ufpMemReturn addr ret = some (ret, h') ∧ h'.malloc = h.malloc ∧
      (Layout.node addr (a || path.isSome) size ptr left right).Returns ret path ∧
      Grows h h' parent index (.node addr a size ptr left right)
        (.node addr (a || path.isSome) size ptr left right) := by
  cases path with
  | none =>
      obtain rfl : ret = none := returns
      rw [Option.isSome_none, Bool.or_false]
      exact ⟨h, rfl, rfl, rfl, .refl held, .refl _⟩
  | some path =>
      obtain ⟨real, found⟩ := returns
      obtain ⟨x, rfl⟩ := Option.ne_none_iff_exists'.mp real
      have marks : h.write addr (.setAllocated true) = _ ∧
          Becomes h _ parent index _ (.fork false addr true size ptr left right) :=
        Becomes.write (i := false) held rfl
      rw [Option.isSome_some, Bool.or_true]
      refine ⟨_, ?_, ?_, ⟨real, ?_⟩, marks.2, Sub.fork (i := false) (.refl _)⟩
      · rw [NodeHeap.ufpMemReturn, marks.1, Option.map_some]
      · rfl
      · cases path with
        | nil => exact found
        | cons index path => exact found

/-- A node with a well-formed tree below it: bare, or split and allocated. -/
theorem shape_node {size ptr addr s p : Nat} {a : Bool} {left right : Layout}
    (shape : Shape size ptr (Layout.node addr a s p left right).erase) :
    s = size ∧ p = ptr ∧ ((left = .null ∧ right = .null) ∨
      a = true ∧ Shape (size / 2) ptr left.erase ∧ Shape (size / 2) (ptr + size / 2) right.erase) := by
  generalize same : (Layout.node addr a s p left right).erase = t at shape
  cases shape with
  | leaf allocated size ptr =>
      cases left <;> cases right <;> cases same
      exact ⟨rfl, rfl, .inl ⟨rfl, rfl⟩⟩
  | split low high used =>
      cases same
      exact ⟨rfl, rfl, .inr ⟨rfl, low, high⟩⟩

/-- A pointer to a well-formed tree, or NULL. -/
def Layout.Fits (size : Nat) (t : Layout) : Prop := t = .null ∨ ∃ ptr, Shape size ptr t.erase

/-- Searching the children of a node and marking it. -/
theorem below_sim {fuel : Nat} {h h₁ : NodeHeap} {parent : Option Nat} {index a : Bool} {addr size ptr : Nat}
    {child0 child1 left right : Layout} (large : ¬ size / 2 < request)
    (made : ufpMemChildren h.malloc a size ptr child0.erase child1.erase =
      (.ok (left.erase, right.erase), h₁.malloc))
    (ready : Grows h h₁ parent index (.node addr a size ptr child0 child1) (.node addr a size ptr left right))
    (low : Simulates positive (fun h node => h.ufpMemAllocRec fuel node request) left)
    (high : Simulates positive (fun h node => h.ufpMemAllocRec fuel node request) right) :
    ∃ path ret t' h', ((h₁.ufpMemDescend (fun h node => h.ufpMemAllocRec fuel node request) addr).bind
        fun found => found.2.ufpMemReturn addr found.1) = some (ret, h') ∧
      ufpMemAllocRec (Layout.node addr a size ptr child0 child1).erase request positive h.malloc =
        (path, t'.erase, h'.malloc) ∧
      t'.Returns ret path ∧ Grows h h' parent index (.node addr a size ptr child0 child1) t' := by
  obtain ⟨path, ret, left', right', h₂, descends, tree, returns, grows⟩ := descend_sim ready.becomes.held low high
  obtain ⟨h₃, marked, malloc, returns', grows'⟩ := return_sim grows.becomes.held returns
  refine ⟨path, ret, _, h₃, ?_, ?_, returns', (ready.trans grows).trans grows'⟩
  · rw [descends, Option.bind_some]
    exact marked
  · rw [malloc]
    exact ufpMemAllocRec_below large made tree

/-- **`_ufp_mem_alloc` over pointers** finds the node that the search in the tree finds. -/
theorem allocRec_sim {fuel size : Nat} (room : size < fuel) {t : Layout} (fits : t.Fits size) :
    Simulates positive (fun h node => h.ufpMemAllocRec fuel node request) t := by
  induction fuel generalizing size t with
  | zero => omega
  | succ fuel ih =>
      intro h parent index held
      cases t with
      | null =>
          refine ⟨none, none, .null, h, rfl, ?_, rfl, .refl held, .refl _⟩
          rw [erase, ufpMemAllocRec_null]
      | node addr a s p left right =>
          obtain ⟨ptr, shape⟩ := fits.resolve_left (fun none => by cases none)
          obtain ⟨rfl, rfl, below⟩ := shape_node shape
          obtain ⟨⟨here, filled⟩, -⟩ := (held_fork (i := false)).mp held
          simp only [Layout.addr, NodeHeap.ufpMemAllocRec, NodeHeap.read_live here, filled, forkCell,
            Option.bind_eq_bind, Option.bind_some]
          by_cases small : s / 2 < request
          · rw [if_pos small, erase, ufpMemAllocRec_small small]
            by_cases free : (!a && decide (request ≤ s)) = true
            · have returns : (Layout.node addr a s p left right).Returns (some addr) (some []) :=
                ⟨Option.some_ne_none _, rfl⟩
              obtain ⟨h', marked, malloc, returns', grows⟩ := return_sim held returns
              rw [if_pos free, if_pos free]
              refine ⟨some [], some addr, _, h', marked, ?_, returns', grows⟩
              rw [malloc, Option.isSome_some, Bool.or_true]
              rfl
            · rw [if_neg free, if_neg free]
              exact ⟨none, none, _, h, rfl, rfl, rfl, .refl held, .refl _⟩
          · rw [if_neg small]
            have less : s / 2 < fuel := by omega
            cases a with
            | true =>
                have fit0 : left.Fits (s / 2) := below.imp And.left fun split => ⟨p, split.2.1⟩
                have fit1 : right.Fits (s / 2) := below.imp And.right fun split => ⟨_, split.2.2⟩
                exact below_sim small rfl ⟨.refl held, .refl _⟩ (ih less fit0) (ih less fit1)
            | false =>
                obtain ⟨rfl, rfl⟩ : left = .null ∧ right = .null := by
                  rcases below with bare | ⟨flag, -⟩
                  · exact bare
                  · cases flag
                rcases split_sim held with ⟨h₁, failed, tree, becomes⟩ | ⟨h₁, addr0, addr1, done, tree, becomes⟩
                · refine ⟨none, none, leaf addr false s p, h₁, ?_, ?_, rfl, becomes, .refl _⟩
                  · simp only [Bool.false_eq_true, if_false, failed, Option.bind_some]
                  · exact ufpMemAllocRec_error small tree
                · have fit : ∀ addr ptr, (leaf addr false (s / 2) ptr).Fits (s / 2) :=
                    fun addr ptr => .inr ⟨ptr, .leaf false _ _⟩
                  have made : ufpMemChildren h.malloc false s p Layout.null.erase Layout.null.erase =
                      (.ok ((leaf addr0 false (s / 2) p).erase, (leaf addr1 false (s / 2) (p + s / 2)).erase),
                        h₁.malloc) := tree
                  simp only [Bool.false_eq_true, if_false, done, Option.bind_some, if_true]
                  exact below_sim small made ⟨becomes, leaf_sub _ _ _ _ _ _ _⟩ (ih less (fit _ _)) (ih less (fit _ _))

end Search

/-! ## `_ufp_mem_free` -/

section Release

variable {h : NodeHeap} {parent : Option Nat} {index i : Bool} {addr child size ptr s p : Nat} {sibling : Layout}

/-- What a release leaves of a tree: no new node, and no call of `malloc`. -/
structure Shrinks (h h' : NodeHeap) (parent : Option Nat) (index : Bool) (t t' : Layout) : Prop where
  becomes : Becomes h h' parent index t t'
  sub : t'.Sub t
  malloc : h'.malloc = h.malloc

theorem Shrinks.trans {h h' h'' : NodeHeap} {t t' t'' : Layout} (first : Shrinks h h' parent index t t')
    (second : Shrinks h' h'' parent index t' t'') : Shrinks h h'' parent index t t'' :=
  ⟨first.becomes.trans second.becomes, second.sub.trans first.sub, second.malloc.trans first.malloc⟩

theorem erase_fork (a : Bool) (child sibling : Layout) :
    (fork i addr a size ptr child sibling).erase =
      .node a size ptr (if i then sibling.erase else child.erase) (if i then child.erase else sibling.erase) := by
  cases i <;> rfl

theorem Sub.leaf_of_node (t : Layout) (a : Bool) {x : Nat} (root : t.addr = some x) :
    (leaf x a size ptr).Sub t := by
  intro path y found
  cases path with
  | nil => exact root.trans found
  | cons index path => cases index <;> cases path <;> cases found

/-- `node->allocated = 0` on a child without children. -/
theorem clear_child (held : (fork i addr true size ptr (leaf child true s p) sibling).Held h parent index) :
    ∃ h', h.write child (.setAllocated false) = some h' ∧
      Shrinks h h' parent index (fork i addr true size ptr (leaf child true s p) sibling)
        (fork i addr true size ptr (leaf child false s p) sibling) := by
  obtain ⟨-, ⟨childHeld, -⟩, -⟩ := held_fork.mp held
  have marks : h.write child (.setAllocated false) = _ ∧
      Becomes h _ (some addr) i _ (.fork false child false s p .null .null) :=
    Becomes.write (i := false) childHeld rfl
  exact ⟨_, marks.1, Becomes.fork held marks.2, Sub.fork (Sub.leaf_of_node _ _ rfl), rfl⟩

/-- The buddy is in use: the walk up ends. -/
theorem freeRec_stop (fuel : Nat)
    (held : (fork i addr true size ptr (leaf child true s p) sibling).Held h parent index)
    (taken : sibling.erase.allocated = true) :
    ∃ h', h.ufpMemFreeRec (fuel + 1) child = some h' ∧
      Shrinks h h' parent index (fork i addr true size ptr (leaf child true s p) sibling)
        (fork i addr true size ptr (leaf child false s p) sibling) := by
  obtain ⟨h', wrote, shrinks⟩ := clear_child held
  obtain ⟨⟨here, filled⟩, ⟨childHeld, siblingHeld⟩, -⟩ := held_fork.mp shrinks.becomes.held
  obtain ⟨there, below⟩ := held_leaf.mp childHeld
  refine ⟨h', ?_, shrinks⟩
  cases sibling with
  | null => cases taken
  | node buddy a s' p' left right =>
      obtain ⟨beside, stored'⟩ : buddy ∈ h'.live ∧ h'.cell buddy = ⟨left.addr, right.addr, some addr, a, !i, s', p'⟩ :=
        ⟨siblingHeld.stored.1, siblingHeld.stored.2.1⟩
      have link : (h'.cell addr).child (!i) = some buddy := by
        rw [filled]
        cases i <;> rfl
      obtain rfl : a = true := taken
      simp only [NodeHeap.ufpMemFreeRec, wrote, Option.bind_eq_bind, Option.bind_some, NodeHeap.read_live there,
        NodeHeap.read_live here, NodeHeap.read_live beside, below, link, stored', if_true]

/-- Both children are released: the node is bare. -/
theorem release_pair {buddy s' p' : Nat} {a a' : Bool}
    (held : (fork i addr true size ptr (leaf child a s p) (leaf buddy a' s' p')).Held h parent index) :
    ∃ h', (h.ufpMnodeRelease buddy).bind (fun h => h.ufpMnodeRelease child) = some h' ∧
      Shrinks h h' parent index (fork i addr true size ptr (leaf child a s p) (leaf buddy a' s' p'))
        (leaf addr true size ptr) := by
  obtain ⟨⟨here, filled⟩, ⟨childHeld, siblingHeld⟩, out, out', apart⟩ := held_fork.mp held
  obtain ⟨there, below⟩ := held_leaf.mp childHeld
  obtain ⟨beside, stored⟩ := held_leaf.mp siblingHeld
  have ne : child ≠ addr := fun same => out (List.mem_singleton.mpr same.symm)
  have ne' : buddy ≠ addr := fun same => out' (List.mem_singleton.mpr same.symm)
  have other : child ≠ buddy := fun same => apart child (List.mem_singleton.mpr rfl) (List.mem_singleton.mpr same)
  rw [NodeHeap.ufpMnodeRelease_child beside (by rw [stored]) here, Option.bind_some]
  -- the first release has changed the parent's struct, not the second child's
  have same : Function.update h.cell addr ((h.cell addr).setChild (h.cell buddy).index none) child = h.cell child :=
    Function.update_of_ne ne _ _
  refine ⟨_, NodeHeap.ufpMnodeRelease_child (Finset.mem_erase.mpr ⟨other, there⟩)
    ((congrArg MnodeCell.parent same).trans (by rw [below])) (Finset.mem_erase.mpr ⟨ne'.symm, here⟩), ?_⟩
  have live : ∀ x, x ∈ (h.live.erase buddy).erase child ↔ x ≠ child ∧ x ≠ buddy ∧ x ∈ h.live := fun x => by
    rw [Finset.mem_erase, Finset.mem_erase]
  have members : ∀ x, x ∈ (fork i addr true size ptr (leaf child a s p) (leaf buddy a' s' p')).nodes ↔
      x = addr ∨ x = child ∨ x = buddy := by
    intro x
    rw [mem_nodes_fork]
    simp [leaf, nodes]
  refine ⟨⟨held_leaf.mpr ⟨(live _).mpr ⟨ne.symm, ne'.symm, here⟩, ?_⟩, rfl, fun x => ?_, fun x known none => ?_,
    fun x member => ?_⟩, Sub.leaf_of_node _ _ rfl, rfl⟩
  · dsimp only
    rw [Function.update_self, Function.update_self, same, below, stored, filled]
    cases i <;> rfl
  · rw [live, members]
    constructor
    · rintro ⟨one, two, known⟩
      by_cases self : x = addr
      · exact .inl (List.mem_singleton.mpr self)
      · exact .inr ⟨known, fun all => all.elim self fun rest => rest.elim one two⟩
    · rintro (self | ⟨known, none⟩)
      · rw [List.mem_singleton.mp self]
        exact ⟨ne.symm, ne'.symm, here⟩
      · exact ⟨fun one => none (.inr (.inl one)), fun two => none (.inr (.inr two)), known⟩
  · have self : x ≠ addr := fun eq => none ((members x).mpr (.inl eq))
    exact (Function.update_of_ne self _ _).trans (Function.update_of_ne self _ _)
  · exact .inl ((members x).mpr (.inl (List.mem_singleton.mp member)))

/-- The buddy is free: both are released, and the walk goes on at the parent. -/
theorem freeRec_merge (fuel : Nat) {buddy s' p' : Nat}
    (held : (fork i addr true size ptr (leaf child true s p) (leaf buddy false s' p')).Held h parent index) :
    ∃ h', h.ufpMemFreeRec (fuel + 1) child = h'.ufpMemFreeRec fuel addr ∧
      Shrinks h h' parent index (fork i addr true size ptr (leaf child true s p) (leaf buddy false s' p'))
        (leaf addr true size ptr) := by
  obtain ⟨h₁, wrote, shrinks⟩ := clear_child held
  obtain ⟨⟨here, filled⟩, ⟨childHeld, siblingHeld⟩, -⟩ := held_fork.mp shrinks.becomes.held
  obtain ⟨there, below⟩ := held_leaf.mp childHeld
  obtain ⟨beside, stored⟩ := held_leaf.mp siblingHeld
  have link : (h₁.cell addr).child (!i) = some buddy := by
    rw [filled]
    cases i <;> rfl
  obtain ⟨h₂, released, merged⟩ := release_pair shrinks.becomes.held
  refine ⟨h₂, ?_, shrinks.trans merged⟩
  obtain ⟨h', first, second⟩ := Option.bind_eq_some_iff.mp released
  simp only [NodeHeap.ufpMemFreeRec, wrote, Option.bind_eq_bind, Option.bind_some, NodeHeap.read_live there,
    NodeHeap.read_live here, NodeHeap.read_live beside, below, link, stored, Bool.false_eq_true, if_false, first, second]

end Release

variable {size ptr addr fuel s p : Nat} {h : NodeHeap} {parent : Option Nat} {index i a : Bool}
  {child sibling t : Layout} {path : Path}

/-- A release below a child, seen from the parent. -/
theorem ufpMemFreeRec_fork {s' p' : Nat} (shape : Shape s' p' child.erase) (out : HandedOut child.erase path s p) :
    ufpMemFreeRec (fork i addr true size ptr child sibling).erase (i :: path).reverse =
      if (ufpMemFreeRec child.erase path.reverse).allocated || sibling.erase.allocated then
        .node true size ptr (if i then sibling.erase else ufpMemFreeRec child.erase path.reverse)
          (if i then ufpMemFreeRec child.erase path.reverse else sibling.erase)
      else .leaf false size ptr := by
  rw [List.reverse_cons, erase_fork]
  cases i with
  | false => exact ufpMemFreeRec_snoc false true size ptr _ _ _ fun _ => out.allocated shape
  | true => exact ufpMemFreeRec_snoc true true size ptr _ _ _ fun _ => out.allocated shape

/-- The walk up from a node that is given back: it ends below the root of the tree, or
goes on at the root, whose children are gone. -/
theorem freeRec_sim {x : Nat} (shape : Shape size ptr t.erase) (out : HandedOut t.erase path s p)
    (held : t.Held h parent index) (found : t.addrAt path = some x) (room : path.length < fuel) :
    (∃ h' t', h.ufpMemFreeRec fuel x = some h' ∧ t'.erase = ufpMemFreeRec t.erase path.reverse ∧
      t'.erase.allocated = true ∧ Shrinks h h' parent index t t') ∨
    ∃ h' addr fuel', h.ufpMemFreeRec fuel x = h'.ufpMemFreeRec fuel' addr ∧ fuel ≤ fuel' + path.length ∧
      ufpMemFreeRec t.erase path.reverse = .leaf false size ptr ∧
      Shrinks h h' parent index t (leaf addr true size ptr) := by
  induction path generalizing t size ptr parent index with
  | nil =>
      obtain ⟨addr, rfl⟩ := erase_eq_leaf out
      obtain ⟨rfl, rfl, -⟩ := shape_node shape
      obtain rfl : addr = x := Option.some.inj found
      exact .inr ⟨h, addr, fuel, rfl, le_rfl, rfl, .refl held, .refl _, rfl⟩
  | cons i path ih =>
      cases t with
      | null => exact absurd out (handedOut_null _ _ _)
      | node addr a s' p' left right =>
          obtain ⟨rfl, rfl, bare | ⟨rfl, low, high⟩⟩ := shape_node shape
          · obtain ⟨rfl, rfl⟩ := bare
            exact absurd out (handedOut_leaf_cons a s' p' i path s p)
          obtain ⟨child, sibling, cp, sp, same, childShape, siblingShape⟩ : ∃ child sibling cp sp,
              Layout.node addr true s' p' left right = fork i addr true s' p' child sibling ∧
                Shape (s' / 2) cp child.erase ∧ Shape (s' / 2) sp sibling.erase := by
            cases i with
            | false => exact ⟨left, right, _, _, rfl, low, high⟩
            | true => exact ⟨right, left, _, _, rfl, high, low⟩
          rw [same] at out held found ⊢
          have childOut : HandedOut child.erase path s p := by
            rw [erase_fork, handedOut_cons] at out
            cases i <;> exact out
          have childFound : child.addrAt path = some x := by cases i <;> exact found
          obtain ⟨-, ⟨childHeld, -⟩, -⟩ := held_fork.mp held
          rw [ufpMemFreeRec_fork childShape childOut]
          rcases ih childShape childOut childHeld childFound (Nat.lt_of_succ_lt room) with
            ⟨h', child', stopped, tree, taken, shrinks⟩ | ⟨h', c, fuel', onward, enough, tree, shrinks⟩
          · -- the walk has ended below the child
            have flag : (ufpMemFreeRec child.erase path.reverse).allocated = true := by rw [← tree, taken]
            rw [flag, Bool.true_or, if_pos rfl, ← tree]
            exact .inl ⟨h', fork i addr true s' p' child' sibling, stopped, erase_fork _ _ _, rfl,
              Becomes.fork held shrinks.becomes, Sub.fork shrinks.sub, shrinks.malloc⟩
          · have forked : Shrinks h h' parent index (fork i addr true s' p' child sibling)
                (fork i addr true s' p' (leaf c true (s' / 2) cp) sibling) :=
              ⟨Becomes.fork held shrinks.becomes, Sub.fork shrinks.sub, shrinks.malloc⟩
            obtain ⟨k, rfl⟩ : ∃ k, fuel' = k + 1 := ⟨fuel' - 1, by simp only [List.length_cons] at room; omega⟩
            rw [onward, tree]
            cases taken : sibling.erase.allocated with
            | true =>
                obtain ⟨h'', stopped, cleared⟩ := freeRec_stop k forked.becomes.held taken
                exact .inl ⟨h'', _, stopped, erase_fork _ _ _, rfl, forked.trans cleared⟩
            | false =>
                obtain ⟨b, rfl⟩ := erase_eq_leaf (siblingShape.eq_free taken)
                obtain ⟨h'', onward', merged⟩ := freeRec_merge k forked.becomes.held
                refine .inr ⟨h'', addr, k, onward', ?_, rfl, forked.trans merged⟩
                rw [List.length_cons]
                omega

/-- **`_ufp_mem_free` over pointers** leaves the tree that the release in the tree leaves. -/
theorem freeRec_root {x : Nat} (shape : Shape size ptr t.erase) (out : HandedOut t.erase path s p)
    (held : t.Held h none false) (found : t.addrAt path = some x) (room : path.length < fuel) :
    ∃ h' t', h.ufpMemFreeRec fuel x = some h' ∧ t'.erase = ufpMemFreeRec t.erase path.reverse ∧
      Shrinks h h' none false t t' := by
  rcases freeRec_sim shape out held found room with
    ⟨h', t', ran, tree, -, shrinks⟩ | ⟨h', addr, fuel', onward, enough, tree, shrinks⟩
  · exact ⟨h', t', ran, tree, shrinks⟩
  · obtain ⟨k, rfl⟩ : ∃ k, fuel' = k + 1 := ⟨fuel' - 1, by omega⟩
    have marks : h'.write addr (.setAllocated false) = _ ∧
        Becomes h' _ none false _ (.fork false addr false size ptr .null .null) :=
      Becomes.write (i := false) shrinks.becomes.held rfl
    obtain ⟨here, filled⟩ := held_leaf.mp marks.2.held
    refine ⟨_, leaf addr false size ptr, ?_, tree.symm, shrinks.trans ⟨marks.2, Sub.leaf_of_node _ _ rfl, rfl⟩⟩
    rw [onward, NodeHeap.ufpMemFreeRec, marks.1]
    simp only [Option.bind_eq_bind, Option.bind_some]
    rw [NodeHeap.read_live here, filled]
    rfl

/-! ## `_ufp_mem_destroy` -/

/-- The longest way down. -/
def Mnode.height : Mnode → Nat
  | .null => 0
  | .node _ _ _ child0 child1 => max child0.height child1.height + 1

/-- The structs of a tree are gone, and the parent has no such child any more. -/
structure Gone (h h' : NodeHeap) (parent : Option Nat) (index : Bool) (t : Layout) : Prop where
  live : ∀ x, x ∈ h'.live ↔ x ∈ h.live ∧ x ∉ t.nodes
  kept : ∀ x ∈ h'.live, parent ≠ some x → h'.cell x = h.cell x
  above : ∀ x, parent = some x → h'.cell x = (h.cell x).setChild index none

/-- One child of a node is destroyed: the node is left with the other one. -/
theorem Gone.held {h' : NodeHeap} (held : (fork i addr a size ptr child sibling).Held h parent index)
    (gone : Gone h h' (some addr) i child) : (fork i addr a size ptr .null sibling).Held h' parent index := by
  obtain ⟨⟨here, filled⟩, ⟨childHeld, siblingHeld⟩, out, out', apart⟩ := held_fork.mp held
  have beside : ∀ x ∈ sibling.nodes, x ∈ h'.live ∧ h'.cell x = h.cell x := by
    intro x member
    have stays := (gone.live x).mpr ⟨siblingHeld.stored.live member, fun one => apart x one member⟩
    refine ⟨stays, gone.kept x stays fun same => ?_⟩
    obtain rfl := Option.some.inj same
    exact out' member
  refine held_fork.mpr ⟨⟨(gone.live addr).mpr ⟨here, out⟩, ?_⟩,
    ⟨⟨trivial, List.nodup_nil⟩, siblingHeld.stored.frame beside, siblingHeld.distinct⟩, List.not_mem_nil, out',
    fun _ one => absurd one List.not_mem_nil⟩
  rw [gone.above addr rfl, filled]
  cases i <;> rfl

/-- Destroying a tree frees its structs, wherever it hangs. -/
def Destroys (fuel : Nat) (t : Layout) : Prop :=
  ∀ h parent index addr, t.Held h parent index → t.addr = some addr →
    (∀ x, parent = some x → x ∈ h.live ∧ x ∉ t.nodes) →
      ∃ h', h.ufpMemDestroyRec fuel addr = some h' ∧ Gone h h' parent index t

/-- One round of the loop over the children. -/
theorem destroy_child (destroys : Destroys fuel child)
    (held : (fork i addr a size ptr child sibling).Held h parent index) :
    ∃ h', child.addr.elim (some h) (h.ufpMemDestroyRec fuel) = some h' ∧ Gone h h' (some addr) i child := by
  obtain ⟨⟨live, filled⟩, ⟨childHeld, -⟩, out, -⟩ := held_fork.mp held
  cases link : child.addr with
  | some c =>
      refine destroys h _ _ c childHeld link fun x same => ?_
      obtain rfl := Option.some.inj same
      exact ⟨live, out⟩
  | none =>
      cases child with
      | node _ _ _ _ _ _ => cases link
      | null =>
          refine ⟨h, rfl, fun x => ⟨fun known => ⟨known, List.not_mem_nil⟩, And.left⟩, fun _ _ _ => rfl, ?_⟩
          rintro x ⟨⟩
          rw [filled]
          cases i <;> rfl

/-- The last step: the node itself, once its children are gone. -/
theorem destroy_self {h₁ h₂ : NodeHeap} {left right : Layout} (gone0 : Gone h h₁ (some addr) false left)
    (gone1 : Gone h₁ h₂ (some addr) true right) (held : (leaf addr a size ptr).Held h₂ parent index)
    (above : ∀ x, parent = some x → x ∈ h.live ∧ x ∉ (Layout.node addr a size ptr left right).nodes) :
    ∃ h', h₂.ufpMnodeRelease addr = some h' ∧ Gone h h' parent index (.node addr a size ptr left right) := by
  obtain ⟨here, filled⟩ := held_leaf.mp held
  have live : ∀ x, x ∈ h₂.live.erase addr ↔ x ∈ h.live ∧ x ∉ (Layout.node addr a size ptr left right).nodes := by
    intro x
    rw [Finset.mem_erase, gone1.live, gone0.live, nodes, List.mem_cons, List.mem_append, not_or, not_or]
    tauto
  have kept : ∀ x ∈ h₂.live, x ≠ addr → h₂.cell x = h.cell x := by
    intro x known ne
    have other : some addr ≠ some x := fun same => ne (Option.some.inj same).symm
    rw [gone1.kept x known other, gone0.kept x ((gone1.live x).mp known).1 other]
  cases parent with
  | none =>
      refine ⟨_, NodeHeap.ufpMnodeRelease_root here (by rw [filled]), live, fun x known _ => ?_, fun x same => ?_⟩
      · obtain ⟨ne, known⟩ := Finset.mem_erase.mp known
        exact kept x known ne
      · cases same
  | some up =>
      have stays : up ∈ h₂.live.erase addr := (live up).mpr (above up rfl)
      obtain ⟨ne, known⟩ := Finset.mem_erase.mp stays
      refine ⟨_, NodeHeap.ufpMnodeRelease_child here (by rw [filled]) known, live, fun x there other => ?_, ?_⟩
      · obtain ⟨ne', there⟩ := Finset.mem_erase.mp there
        refine (Function.update_of_ne (fun same => other ?_) _ _).trans (kept x there ne')
        rw [same]
      · rintro x ⟨⟩
        refine (Function.update_self _ _ _).trans ?_
        rw [filled, kept up known ne]

/-- **`_ufp_mem_destroy`** frees the structs of a tree, each once. -/
theorem destroyRec_sim (room : t.erase.height ≤ fuel) : Destroys fuel t := by
  induction t generalizing fuel with
  | null =>
      intro h parent index addr held root above
      cases root
  | node here a s p left right ih0 ih1 =>
      intro h parent index addr held root above
      obtain rfl : here = addr := Option.some.inj root
      simp only [erase, Mnode.height] at room
      obtain ⟨fuel, rfl⟩ : ∃ k, fuel = k + 1 := ⟨fuel - 1, by omega⟩
      have low : Destroys fuel left := ih0 (by omega)
      have high : Destroys fuel right := ih1 (by omega)
      obtain ⟨h₁, first, gone0⟩ := destroy_child (i := false) low held
      have held₁ := gone0.held (i := false) held
      obtain ⟨h₂, second, gone1⟩ := destroy_child (i := true) high held₁
      have held₂ := gone1.held (i := true) held₁
      obtain ⟨h₃, third, gone⟩ := destroy_self gone0 gone1 held₂ above
      obtain ⟨⟨live, filled⟩, -⟩ := (held_fork (i := false)).mp held
      obtain ⟨⟨live₁, filled₁⟩, -⟩ := (held_fork (i := true)).mp held₁
      refine ⟨h₃, ?_, gone⟩
      simp only [NodeHeap.ufpMemDestroyRec, NodeHeap.read_live live, Option.bind_eq_bind, Option.bind_some]
      rw [filled, show (forkCell parent index false a s p left.addr right.addr).child0 = left.addr from rfl, first]
      simp only [Option.bind_some, NodeHeap.read_live live₁]
      rw [filled₁, show (forkCell parent index true a s p right.addr Layout.null.addr).child1 = right.addr from rfl,
        second]
      exact third

end Ufp.Lib.Mem
