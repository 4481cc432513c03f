/-
# Ufp.Lib.Hlist — the intrusive lists of `lib_list.h`

The hash table and the routing trie keep their entries in hlists: a head with a pointer to the
first node, and nodes with a pointer to the next node and the address of the pointer that points
to them. The functions are translated store by store over an explicit heap; a heap has any number
of heads and nodes, and distinct ones do not overlap.

`hlist_add_first`, `hlist_add_after` and `hlist_add_before` all come down to linking a node in at
a pointer cell (`linkAt`), and `hlist_del` takes a node out at one. With the lemmas of
`Theory.BackLinked` each is an operation on the list of nodes, and leaves every other hlist of
the heap as it is (`hlist_refines_list`). `hlist_for_each_safe` reads the next node before its
body runs, so the body may delete the current node and let go of its memory.
-/
import Ufp.Theory.BackLinked

namespace Ufp.Lib.Hlist

open Ufp.Theory.BackLinked

set_option autoImplicit false

/-! ## The code -/

section Code

variable {η ν : Type} [DecidableEq η] [DecidableEq ν]

/-- `if(ptr) ptr->prev = c`. -/
def setPrevOf (ptr : Option ν) (c : Cell η ν) (heap : Heap η ν) : Heap η ν :=
  match ptr with
  | some n => heap.setPrev n c
  | none => heap

/-- `hlist_add_before`. -/
def hlistAddBefore (node new : ν) (heap : Heap η ν) : Heap η ν :=
  let heap := heap.setCell (.next new) (some node)
  let heap := heap.setPrev new (heap.prev node)
  let heap := heap.setPrev node (.next new)
  heap.setCell (heap.prev new) (some new)

/-- `hlist_add_after`. -/
def hlistAddAfter (node new : ν) (heap : Heap η ν) : Heap η ν :=
  let heap := heap.setCell (.next new) (heap.cell (.next node))
  let heap := heap.setPrev new (.next node)
  let heap := setPrevOf (heap.cell (.next new)) (.next new) heap
  heap.setCell (.next node) (some new)

/-- `hlist_add_first`. -/
def hlistAddFirst (head : η) (new : ν) (heap : Heap η ν) : Heap η ν :=
  let heap := heap.setCell (.next new) (heap.cell (.first head))
  let heap := heap.setPrev new (.first head)
  let heap := setPrevOf (heap.cell (.first head)) (.next new) heap
  heap.setCell (.first head) (some new)

/-- `hlist_del`. -/
def hlistDel (node : ν) (heap : Heap η ν) : Heap η ν :=
  let heap := setPrevOf (heap.cell (.next node)) (heap.prev node) heap
  heap.setCell (heap.prev node) (heap.cell (.next node))

/-- `hlist_init`. -/
def hlistInit (head : η) (heap : Heap η ν) : Heap η ν := heap.setCell (.first head) none

/-- `hlist_empty`. -/
def hlistEmpty (head : η) (heap : Heap η ν) : Bool := (heap.cell (.first head)).isNone

/-- The loop of `hlist_for_each`, with a body that leaves the list alone: the nodes for which the
body runs. `none` means that `fuel` is used up. -/
def forEachLoop (heap : Heap η ν) : Nat → Option ν → Option (List ν)
  | _, none => some []
  | 0, some _ => none
  | fuel + 1, some data => (forEachLoop heap fuel (heap.cell (.next data))).map (data :: ·)

/-- `hlist_for_each`. -/
def hlistForEach (fuel : Nat) (head : η) (heap : Heap η ν) : Option (List ν) :=
  forEachLoop heap fuel (heap.cell (.first head))

/-- `data && (temp = data->next)`: the new value of `temp`. -/
def readNext (heap : Heap η ν) (data temp : Option ν) : Option ν :=
  match data with
  | some n => heap.cell (.next n)
  | none => temp

/-- The loop of `hlist_for_each_safe` from its test on: the nodes for which the body runs, and
the heap after it. `none` means that `fuel` is used up. -/
def forEachSafeLoop (body : ν → Heap η ν → Heap η ν) :
    Nat → Option ν → Option ν → Heap η ν → Option (List ν × Heap η ν)
  | _, none, _, heap => some ([], heap)
  | 0, some _, _, _ => none
  | fuel + 1, some data, temp, heap =>
      let heap := body data heap
      (forEachSafeLoop body fuel temp (readNext heap temp temp) heap).map fun (visited, heap) => (data :: visited, heap)

/-- `hlist_for_each_safe`, with what `temp` holds before. -/
def hlistForEachSafe (body : ν → Heap η ν → Heap η ν) (fuel : Nat) (head : η) (temp : Option ν) (heap : Heap η ν) :
    Option (List ν × Heap η ν) :=
  let data := heap.cell (.first head)
  forEachSafeLoop body fuel data (readNext heap data temp) heap

end Code

/-! ## One store after the other -/

section Stores

variable {η ν : Type} [DecidableEq ν] {heap : Heap η ν} {ptr : Option ν} {c : Cell η ν} {n : ν}

@[simp] theorem cell_setPrevOf : (setPrevOf ptr c heap).cell = heap.cell := by
  cases ptr <;> rfl

theorem prev_setPrevOf (points : ptr = some n) : (setPrevOf ptr c heap).prev n = c := by
  subst points
  exact Function.update_self ..

theorem prev_setPrevOf_of_ne (apart : ptr ≠ some n) : (setPrevOf ptr c heap).prev n = heap.prev n := by
  cases ptr with
  | none => rfl
  | some m => exact Function.update_of_ne (fun same => apart (congrArg some same.symm)) ..

variable [DecidableEq η] {new node : ν} {head : η}

/-- A node is linked in at a cell. -/
def linkAt (c : Cell η ν) (new : ν) (heap : Heap η ν) : Heap η ν :=
  let linked := (heap.setCell (.next new) (heap.cell c)).setPrev new c
  (setPrevOf (heap.cell c) (.next new) linked).setCell c (some new)

theorem linkAt_linked (apart : c ≠ .next new) (fresh : heap.cell c ≠ some new) :
    Linked heap (linkAt c new heap) c new where
  here := Function.update_self ..
  back := by
    rw [linkAt, Heap.prev_setCell, prev_setPrevOf_of_ne fresh, Heap.prev_setPrev, Function.update_self]
  onward := by
    simp [linkAt, apart.symm]
  follow n points := prev_setPrevOf points
  cell d far off := by
    simp [linkAt, far, off]
  prev n differ other := by
    rw [linkAt, Heap.prev_setCell, prev_setPrevOf_of_ne other, Heap.prev_setPrev, Function.update_of_ne differ]
    rfl

theorem hlistAddFirst_eq : hlistAddFirst head new heap = linkAt (.first head) new heap := by
  simp [hlistAddFirst, linkAt]

theorem hlistAddAfter_eq : hlistAddAfter node new heap = linkAt (.next node) new heap := by
  simp [hlistAddAfter, linkAt]

/-- The node before which the new one goes is the one that its back link points to. -/
theorem hlistAddBefore_eq (apart : node ≠ new) (points : heap.cell (heap.prev node) = some node) :
    hlistAddBefore node new heap = linkAt (heap.prev node) new heap := by
  simp [hlistAddBefore, linkAt, points, setPrevOf, apart.symm]

theorem hlistDel_unlinked (apart : heap.cell (.next node) ≠ some node) :
    Unlinked heap (hlistDel node heap) (heap.prev node) node := by
  have back : (setPrevOf (heap.cell (.next node)) (heap.prev node) heap).prev node = heap.prev node :=
    prev_setPrevOf_of_ne apart
  exact {
    here := by simp [hlistDel, back]
    follow := fun n points => prev_setPrevOf points
    cell := fun d far _ => by simp [hlistDel, back, far]
    prev := fun n _ other => prev_setPrevOf_of_ne other }

end Stores

/-! ## Operations on lists -/

section Lists

variable {η ν : Type} {heap heap' : Heap η ν} {head : η} {node new : ν} {nodes nodes' fresh front back : List ν}

/-- The nodes from `head` on: each back link is the address of the pointer to the node, and no
node is there twice. -/
structure IsHlist (heap : Heap η ν) (head : η) (nodes : List ν) : Prop where
  chain : Chain heap (.first head) nodes
  nodup : nodes.Nodup

theorem IsHlist.of_chain (chain : Chain heap (.first head) nodes) : IsHlist heap head nodes :=
  ⟨chain, chain.nodup fun _ _ => nofun⟩

/-- The hlist of `head` has become `nodes`. Every other one is as it was, its head and both fields
of each of its nodes, provided that it has none of the nodes `fresh`. -/
structure Becomes (heap heap' : Heap η ν) (head : η) (nodes fresh : List ν) : Prop where
  hlist : IsHlist heap' head nodes
  others : ∀ other list, other ≠ head → IsHlist heap other list → (∀ n ∈ list, n ∉ fresh) →
    IsHlist heap' other list ∧ heap'.cell (.first other) = heap.cell (.first other) ∧
      ∀ n ∈ list, heap'.cell (.next n) = heap.cell (.next n) ∧ heap'.prev n = heap.prev n

theorem Becomes.of_apart (after : Chain heap' (.first head) nodes') (touches : OnlyTouches heap heap' head nodes)
    (apart : ∀ other list, other ≠ head → IsHlist heap other list → (∀ n ∈ list, n ∉ fresh) → ∀ n ∈ list, n ∉ nodes) :
    Becomes heap heap' head nodes' fresh := by
  refine ⟨.of_chain after, fun other list differ hlist absent => ?_⟩
  obtain ⟨cell, prev⟩ := touches.kept differ (apart other list differ hlist absent)
  refine ⟨⟨hlist.chain.congr cell prev, hlist.nodup⟩, cell _ List.mem_cons_self, fun n inside => ⟨?_, prev n inside⟩⟩
  exact cell _ (mem_cells.mpr (.inr ⟨n, inside, rfl⟩))

theorem hlistEmpty_iff (hlist : IsHlist heap head nodes) : hlistEmpty head heap = true ↔ nodes = [] := by
  rw [hlistEmpty, hlist.chain.cell_first]
  cases nodes <;> simp

/-- What is done to a well-formed hlist and to fresh nodes leaves the other ones alone. -/
theorem Becomes.of_touches (before : IsHlist heap head nodes) (after : Chain heap' (.first head) nodes')
    (touches : OnlyTouches heap heap' head (fresh ++ nodes)) : Becomes heap heap' head nodes' fresh := by
  refine .of_apart after touches fun other list differ hlist absent n inside touched => ?_
  rcases List.mem_append.mp touched with added | own
  · exact absent n inside added
  · exact before.chain.disjoint hlist.chain differ n inside own

/-- The next node of a list is another one. -/
theorem IsHlist.next_ne (before : IsHlist heap head (front ++ node :: back)) : heap.cell (.next node) ≠ some node := by
  obtain ⟨-, -, later⟩ := before.chain.drop
  rw [later.cell_first]
  intro again
  exact (List.nodup_cons.mp before.nodup.of_append_right).1 (List.mem_of_head? again)

theorem IsHlist.unlink (before : IsHlist heap head (front ++ node :: back))
    (unlinked : Unlinked heap heap' (heap.prev node) node) :
    Chain heap' (.first head) (front ++ back) ∧ OnlyTouches heap heap' head (front ++ node :: back) := by
  rw [before.chain.prev_eq] at unlinked
  exact ⟨before.chain.unlink (fun _ _ => nofun) unlinked, unlinked.onlyTouches before.chain⟩

variable [DecidableEq η] [DecidableEq ν]

/-- A node that is linked in after a part of the list comes there. -/
theorem linkAt_becomes (before : IsHlist heap head (front ++ back)) (absent : new ∉ front ++ back) :
    Becomes heap (linkAt (endCell (.first head) front) new heap) head (front ++ new :: back) [new] := by
  have outside : Cell.next new ∉ cells (.first head) front := by
    intro inside
    obtain ⟨n, member, same⟩ := (mem_cells.mp inside).resolve_left nofun
    exact absent (List.mem_append_left _ (Cell.next.inj same ▸ member))
  have other : heap.cell (endCell (.first head) front) ≠ some new := by
    rw [before.chain.cell_endCell]
    exact fun first => absent (List.mem_append_right _ (List.mem_of_head? first))
  have linked := linkAt_linked (ne_endCell outside (List.Subset.refl _)).symm other
  exact .of_touches before (before.chain.link (fun _ _ => nofun) linked absent nofun) (linked.onlyTouches before.chain)

theorem hlistAddFirst_becomes (before : IsHlist heap head nodes) (absent : new ∉ nodes) :
    Becomes heap (hlistAddFirst head new heap) head (new :: nodes) [new] := by
  rw [hlistAddFirst_eq]
  exact linkAt_becomes (show IsHlist heap head ([] ++ nodes) from before) absent

theorem hlistAddAfter_becomes (before : IsHlist heap head (front ++ node :: back))
    (absent : new ∉ front ++ node :: back) :
    Becomes heap (hlistAddAfter node new heap) head (front ++ node :: new :: back) [new] := by
  rw [List.append_cons] at before absent ⊢
  rw [hlistAddAfter_eq, ← endCell_concat (.first head) front node]
  exact linkAt_becomes before absent

theorem hlistAddBefore_becomes (before : IsHlist heap head (front ++ node :: back))
    (absent : new ∉ front ++ node :: back) :
    Becomes heap (hlistAddBefore node new heap) head (front ++ new :: node :: back) [new] := by
  have link := before.chain.prev_eq
  have points : heap.cell (heap.prev node) = some node := by
    rw [link, before.chain.cell_endCell]
    rfl
  have apart : node ≠ new := by
    rintro rfl
    exact absent (List.mem_append_right _ List.mem_cons_self)
  rw [hlistAddBefore_eq apart points, link]
  exact linkAt_becomes before absent

theorem hlistDel_becomes (before : IsHlist heap head (front ++ node :: back)) :
    Becomes heap (hlistDel node heap) head (front ++ back) [] := by
  obtain ⟨after, touches⟩ := before.unlink (hlistDel_unlinked before.next_ne)
  exact .of_touches before after touches

theorem hlistInit_becomes : Becomes heap (hlistInit head heap) head [] [] := by
  refine .of_apart (Function.update_self ..) ⟨fun d outside => ?_, fun _ _ => rfl⟩ fun _ _ _ _ absent => absent
  exact Function.update_of_ne (fun same => outside (List.mem_singleton.mpr same)) ..

end Lists

/-! ## Walking along a list -/

section Read

variable {η ν : Type} {heap : Heap η ν} {c : Cell η ν} {head : η} {nodes : List ν} {fuel : Nat}

theorem forEachLoop_visits (chain : Chain heap c nodes) (enough : nodes.length ≤ fuel) :
    forEachLoop heap fuel (heap.cell c) = some nodes := by
  induction nodes generalizing c fuel with
  | nil =>
      rw [chain.cell_first]
      cases fuel <;> rfl
  | cons n nodes ih =>
      obtain ⟨points, -, later⟩ := chain
      cases fuel with
      | zero => exact absurd enough (Nat.not_succ_le_zero _)
      | succ fuel =>
          rw [points, forEachLoop, ih later (Nat.le_of_succ_le_succ enough)]
          rfl

theorem hlistForEach_visits (hlist : IsHlist heap head nodes) (enough : nodes.length ≤ fuel) :
    hlistForEach fuel head heap = some nodes :=
  forEachLoop_visits hlist.chain enough

end Read

/-- The body of a loop deletes the current node if `drop` says so, and leaves the heap alone if not.
The own fields of a deleted node may hold anything afterwards: its memory may have been let go. -/
structure Deletes {η ν : Type} [DecidableEq η] [DecidableEq ν] (drop : ν → Bool) (body : ν → Heap η ν → Heap η ν) :
    Prop where
  cell : ∀ {node}, drop node = true → ∀ heap d, d ≠ .next node → (body node heap).cell d = (hlistDel node heap).cell d
  prev : ∀ {node}, drop node = true → ∀ heap n, n ≠ node → (body node heap).prev n = (hlistDel node heap).prev n
  keep : ∀ {node}, drop node = false → ∀ heap, body node heap = heap

section Walk

variable {η ν : Type} [DecidableEq η] [DecidableEq ν] {heap : Heap η ν} {head : η} {node : ν} {kept rest : List ν}
variable {drop : ν → Bool} {body : ν → Heap η ν → Heap η ν} {fuel : Nat}

theorem deletes_hlistDel : Deletes (fun _ => true) (hlistDel : ν → Heap η ν → Heap η ν) :=
  ⟨fun _ _ _ _ => rfl, fun _ _ _ _ => rfl, nofun⟩

theorem Deletes.unlinked (deletes : Deletes drop body) (dropped : drop node = true)
    (before : IsHlist heap head (kept ++ node :: rest)) : Unlinked heap (body node heap) (heap.prev node) node := by
  have unlinked := hlistDel_unlinked before.next_ne
  have away : heap.prev node ≠ .next node := by
    have own : ∀ n ∈ kept ++ node :: rest, Cell.first head ≠ .next n := fun _ _ => nofun
    rw [before.chain.prev_eq]
    exact endCell_ne own before.nodup node List.mem_cons_self
  exact {
    here := (deletes.cell dropped heap _ away).trans unlinked.here
    follow := fun n points => by
      rw [deletes.prev dropped heap n fun same => before.next_ne (same ▸ points)]
      exact unlinked.follow n points
    cell := fun d far off => (deletes.cell dropped heap d off).trans (unlinked.cell d far off)
    prev := fun n differ other => (deletes.prev dropped heap n differ).trans (unlinked.prev n differ other) }

/-- One turn of the loop: the node goes or stays, and the walk goes on with the next one. -/
theorem Deletes.turn (deletes : Deletes drop body) (before : IsHlist heap head (kept ++ node :: rest)) :
    Chain (body node heap) (.first head) (kept ++ [node].filter (fun n => !drop n) ++ rest) ∧
      OnlyTouches heap (body node heap) head (kept ++ node :: rest) := by
  cases dropped : drop node with
  | true =>
      obtain ⟨after, touches⟩ := before.unlink (deletes.unlinked dropped before)
      refine ⟨?_, touches⟩
      simpa [dropped] using after
  | false =>
      rw [deletes.keep dropped]
      refine ⟨?_, .refl ..⟩
      simpa [dropped] using before.chain

/-- The walk over what is left of a list, with the nodes that were kept before it. -/
theorem forEachSafeLoop_visits (deletes : Deletes drop body) (before : IsHlist heap head (kept ++ rest))
    (enough : rest.length ≤ fuel) (temp : Option ν) :
    ∃ heap', forEachSafeLoop body fuel rest.head? (readNext heap rest.head? temp) heap = some (rest, heap') ∧
      Chain heap' (.first head) (kept ++ rest.filter fun n => !drop n) ∧
        OnlyTouches heap heap' head (kept ++ rest) := by
  induction rest generalizing heap kept fuel temp with
  | nil =>
      refine ⟨heap, ?_, before.chain, .refl ..⟩
      cases fuel <;> rfl
  | cons node rest ih =>
      obtain ⟨fuel, rfl⟩ := Nat.exists_eq_add_one.mpr (Nat.zero_lt_of_lt enough)
      -- `temp` was read before the body ran
      obtain ⟨-, -, later⟩ := before.chain.drop
      have temp_eq : readNext heap (some node) temp = rest.head? := later.cell_first
      obtain ⟨chain, touches⟩ := deletes.turn before
      obtain ⟨heap', loop, after, touches'⟩ := ih (.of_chain chain) (Nat.le_of_succ_le_succ enough) rest.head?
      refine ⟨heap', ?_, ?_, touches.trans (touches'.mono ?_)⟩
      · rw [List.head?_cons, temp_eq, forEachSafeLoop, loop]
        rfl
      · rwa [List.append_assoc, ← List.filter_append] at after
      · intro n inside
        simp only [List.mem_append, List.mem_filter, List.mem_cons] at inside ⊢
        grind

/-- `hlist_for_each_safe` runs its body once for each node, in order. -/
theorem hlistForEachSafe_visits {nodes : List ν} (deletes : Deletes drop body) (before : IsHlist heap head nodes)
    (enough : nodes.length ≤ fuel) (temp : Option ν) :
    ∃ heap', hlistForEachSafe body fuel head temp heap = some (nodes, heap') ∧
      Becomes heap heap' head (nodes.filter fun n => !drop n) [] := by
  obtain ⟨heap', loop, after, touches⟩ :=
    forEachSafeLoop_visits deletes (show IsHlist heap head ([] ++ nodes) from before) enough temp
  refine ⟨heap', ?_, .of_touches before after touches⟩
  rw [hlistForEachSafe, before.chain.cell_first]
  exact loop

end Walk

/-- **The operations on hlists are operations on lists.** On a well-formed hlist,
`hlist_add_first`, `hlist_add_after`, `hlist_add_before` and `hlist_del` give a well-formed hlist with
the new node first, right after, right before a node, or without the node; all other hlists of the heap
are unchanged. `hlist_for_each_safe` with a body that deletes the current node, always or for some
nodes, ends and has visited each node of the list once; the nodes that were not deleted are left. -/
theorem hlist_refines_list {η ν : Type} [DecidableEq η] [DecidableEq ν] (heap : Heap η ν) (head : η) :
    (∀ nodes new, IsHlist heap head nodes → new ∉ nodes →
      Becomes heap (hlistAddFirst head new heap) head (new :: nodes) [new]) ∧
    (∀ front node back, IsHlist heap head (front ++ node :: back) →
      (∀ new ∉ front ++ node :: back,
        Becomes heap (hlistAddAfter node new heap) head (front ++ node :: new :: back) [new] ∧
        Becomes heap (hlistAddBefore node new heap) head (front ++ new :: node :: back) [new]) ∧
      Becomes heap (hlistDel node heap) head (front ++ back) []) ∧
    ∀ nodes drop body, IsHlist heap head nodes → Deletes drop body → ∀ temp, ∀ fuel ≥ nodes.length,
      ∃ heap', hlistForEachSafe body fuel head temp heap = some (nodes, heap') ∧ nodes.Nodup ∧
        Becomes heap heap' head (nodes.filter fun n => !drop n) [] := by
  refine ⟨fun nodes new before absent => hlistAddFirst_becomes before absent, fun front node back before => ?_, ?_⟩
  · exact ⟨fun new absent => ⟨hlistAddAfter_becomes before absent, hlistAddBefore_becomes before absent⟩,
      hlistDel_becomes before⟩
  · intro nodes drop body before deletes temp fuel enough
    obtain ⟨heap', loop, becomes⟩ := hlistForEachSafe_visits deletes before enough temp
    exact ⟨heap', loop, before.nodup, becomes⟩

/-- Heads 0 and 1, with nodes 1 and 2 and with node 3. -/
def sampleHlists : Heap Nat Nat where
  cell
    | .first 0 => some 1
    | .next 1 => some 2
    | .first 1 => some 3
    | _ => none
  prev
    | 1 => .first 0
    | 2 => .next 1
    | 3 => .first 1
    | _ => .first 2

theorem hlist_refines_list_sample :
    IsHlist sampleHlists 0 [1, 2] ∧ IsHlist sampleHlists 1 [3] ∧
      Becomes sampleHlists (hlistAddFirst 0 4 sampleHlists) 0 [4, 1, 2] [4] ∧
      Becomes sampleHlists (hlistAddAfter 1 4 sampleHlists) 0 [1, 4, 2] [4] ∧
      Becomes sampleHlists (hlistAddBefore 2 4 sampleHlists) 0 [1, 4, 2] [4] ∧
      Becomes sampleHlists (hlistDel 1 sampleHlists) 0 [2] [] ∧
      ∃ heap', hlistForEachSafe hlistDel 2 0 none sampleHlists = some ([1, 2], heap') ∧
        Becomes sampleHlists heap' 0 [] [] := by
  have hlist : IsHlist sampleHlists 0 [1, 2] := .of_chain ⟨rfl, rfl, rfl, rfl, rfl⟩
  obtain ⟨first, around, walk⟩ := hlist_refines_list sampleHlists 0
  obtain ⟨heap', loop, -, becomes⟩ := walk [1, 2] _ _ hlist deletes_hlistDel none 2 (Nat.le_refl _)
  exact ⟨hlist, .of_chain ⟨rfl, rfl, rfl⟩, first _ 4 hlist (by decide), ((around [] 1 [2] hlist).1 4 (by decide)).1,
    ((around [1] 2 [] hlist).1 4 (by decide)).2, (around [] 1 [2] hlist).2, heap', loop, becomes⟩

end Ufp.Lib.Hlist
