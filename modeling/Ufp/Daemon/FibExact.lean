/-
# Ufp.Daemon.FibExact — a FIB loses no block

The account of `FibOk` says that what a FIB owns is out. Here is the converse: what
is out and belongs to nobody else is owned. The calls of the prefix table keep an
exact account whatever the table holds and however they end, so nothing of what a
node should contain is needed: a loop or a level moves blocks between the pool and
the lists of its nodes, one entry at a time.
-/
import Ufp.Daemon.FibInv

namespace Ufp.Daemon

open Ufp.Theory

set_option autoImplicit false

/-- The account of the first `n` nodes of a table. -/
abbrev NodesExact (other : Nat → Prop) (h : Heap) (n : Nat) (table : Table) (restB restL : List Nat) : Prop :=
  Exact other h (Slots.gather n Node.blocks table ++ restB) (Slots.gather n Node.links table ++ restL)

section Loops

variable {other : Nat → Prop} {h h' : Heap} {n j : Nat} {table : Table} {restB restL : List Nat} {id : Int}
  {len ptr index : Nat}

/-! ## Unlinking -/

/-- What `lpm_entry_delete` takes out of a list. -/
theorem lpmEntryDelete_inv {head head' : List LpmEntry} (found : lpmEntryDelete h id len head = some (head', h')) :
    ∃ entry, head.Perm (entry :: head') ∧ h' = (fibEntryPut h entry.ptr).free entry.blk := by
  induction head generalizing head' h' with
  | nil => cases found
  | cons first rest ih =>
      simp only [lpmEntryDelete] at found
      split at found
      · obtain ⟨rfl, rfl⟩ := Prod.mk.inj (Option.some.inj found)
        exact ⟨first, List.Perm.refl _, rfl⟩
      · split at found
        · cases found
        · next rest' h'' deeper =>
            obtain ⟨rfl, rfl⟩ := Prod.mk.inj (Option.some.inj found)
            obtain ⟨entry, same, heap⟩ := ih deeper
            exact ⟨entry, (same.cons first).trans (List.Perm.swap entry first rest'), heap⟩

theorem NodesExact.unlink (exact : NodesExact other h n table restB restL) (inside : j < n) {head : List LpmEntry}
    (found : lpmEntryDelete h id len (table j).head = some (head, h')) :
    NodesExact other h' n (Function.update table j ((table j).setHead head)) restB restL := by
  obtain ⟨entry, less, rfl⟩ := lpmEntryDelete_inv found
  have moved := exact.perm (gather_swap_back inside restB (Node.setHead_blocks_less less))
    (gather_swap_back inside restL (Node.setHead_links_less less))
  exact moved.put.free

theorem deleteLoop_exact {todo i : Nat} (inside : ∀ k < i + todo, index ||| k < n)
    (exact : NodesExact other h n table restB restL) :
    NodesExact other (deleteLoop id len index todo i table h).2.2 n
      (deleteLoop id len index todo i table h).2.1 restB restL := by
  induction todo generalizing i table h with
  | zero => exact exact
  | succ todo ih =>
      simp only [deleteLoop]
      cases found : lpmEntryDelete h id len (table (index ||| i)).head with
      | none => exact exact
      | some result =>
          exact ih (fun k below => inside k (by omega)) (exact.unlink (inside i (by omega)) found)

theorem rollbackLoop_exact {todo i : Nat} (inside : ∀ k < i + todo, index ||| k < n)
    (exact : NodesExact other h n table restB restL) :
    NodesExact other (rollbackLoop id len index todo i table h).2 n
      (rollbackLoop id len index todo i table h).1 restB restL := by
  induction todo generalizing i table h with
  | zero => exact exact
  | succ todo ih =>
      simp only [rollbackLoop]
      cases found : lpmEntryDelete h id len (table (index ||| i)).head with
      | none => exact ih (fun k below => inside k (by omega)) exact
      | some result =>
          exact ih (fun k below => inside k (by omega)) (exact.unlink (inside i (by omega)) found)

/-! ## Linking -/

theorem lpmEntryInsert_inv {head head' : List LpmEntry} {entry : LpmEntry}
    (found : lpmEntryInsert h head id len entry = some (head', h')) :
    head'.Perm (entry :: head) ∧ h' = fibEntryPull h entry.ptr := by
  simp only [lpmEntryInsert] at found
  split at found
  · cases found
  · next after _ =>
      obtain ⟨rfl, rfl⟩ := Prod.mk.inj (Option.some.inj found)
      refine ⟨?_, rfl⟩
      conv_rhs => rw [← List.take_append_drop after head]
      exact List.perm_middle

/-- The entry being added, next to the nodes. -/
abbrev NodesPending (h : Heap) (n : Nat) (table : Table) (restB restL : List Nat) (ptr : Nat) : Prop :=
  Pending h (Slots.gather n Node.blocks table ++ restB) (Slots.gather n Node.links table ++ restL) ptr

theorem fillLoop_exact {todo i : Nat} (inside : ∀ k < i + todo, index ||| k < n)
    (exact : NodesExact other h n table restB restL) (pending : NodesPending h n table restB restL ptr) :
    NodesExact other (fillLoop id len ptr index todo i table h).2.2.2 n
        (fillLoop id len ptr index todo i table h).2.2.1 restB restL ∧
      (fillLoop id len ptr index todo i table h).2.1 ≤ i + todo := by
  induction todo generalizing i table h with
  | zero => exact ⟨exact, Nat.le_refl _⟩
  | succ todo ih =>
      rcases answer : h.alloc with ⟨_ | blk, h₁⟩
      · simp only [fillLoop, answer]
        exact ⟨exact.alloc_none answer, by omega⟩
      · have taken := exact.alloc_some answer
        obtain ⟨-, -, -, carried⟩ := exact.toHeapOk.alloc_some answer
        cases found : lpmEntryInsert h₁ (table (index ||| i)).head id len ⟨blk, ptr⟩ with
        | none =>
            simp only [fillLoop, answer, found]
            exact ⟨taken.free, by omega⟩
        | some result =>
            obtain ⟨head, h₂⟩ := result
            simp only [fillLoop, answer, found]
            obtain ⟨more, rfl⟩ := lpmEntryInsert_inv found
            have here : index ||| i < n := inside i (by omega)
            have blocks := gather_swap here restB (Node.setHead_blocks more)
            have links := gather_swap here restL (Node.setHead_links more)
            have pulled := taken.pull (carried pending)
            have linked := ((exact.toHeapOk.alloc_some answer).1.pull (carried pending)).2
            obtain ⟨done, bound⟩ := ih (i := i + 1) (fun k below => inside k (by omega))
              (pulled.perm blocks.symm links.symm) (linked.perm blocks.symm links.symm)
            exact ⟨done, Nat.le_trans bound (by omega)⟩

end Loops

/-! ## Levels -/

/-- The account of a node and all below it. -/
abbrev NodeExact (other : Nat → Prop) (h : Heap) (node : Node) (restB restL : List Nat) : Prop :=
  Exact other h (node.blocks ++ restB) (node.links ++ restL)

/-- The slots a loop goes through, at a level of `m` bits. -/
theorem slot_lt {raw m width k : Nat} (small : raw < 2 ^ m) (narrow : width ≤ m) (below : k < 1 <<< width) :
    maskIndex raw (1 <<< width) ||| k < 2 ^ m := by
  rw [Nat.one_shiftLeft] at below
  refine Nat.or_lt_two_pow (Nat.lt_of_le_of_lt Nat.and_le_left small) (Nat.lt_of_lt_of_le below ?_)
  exact Nat.pow_le_pow_right (by decide) narrow

theorem lpmIndex_lt (bytes : Bytes) (offset range : Nat) : lpmIndex bytes offset range < 2 ^ range := by
  rw [lpmIndex, Nat.one_shiftLeft]
  exact Nat.and_lt_two_pow _ (Nat.sub_lt (Nat.two_pow_pos _) (by decide))

section Levels

variable {other : Nat → Prop} {h h' : Heap} {parent : Node} {restB restL : List Nat} {id : Int} {len ptr : Nat}
  {bytes : Bytes} {table : Table} {head : List LpmEntry} {blk : Nat}

theorem NodeExact.nodes (exact : NodeExact other h (.inner head blk table) restB restL) :
    NodesExact other h 256 table (head.map LpmEntry.blk ++ blk :: restB) (head.map LpmEntry.ptr ++ restL) :=
  exact.perm (inner_blocks_perm restB) (inner_links_perm restL)

theorem NodesExact.node
    (exact : NodesExact other h 256 table (head.map LpmEntry.blk ++ blk :: restB)
      (head.map LpmEntry.ptr ++ restL)) : NodeExact other h (.inner head blk table) restB restL :=
  exact.perm (inner_blocks_perm restB).symm (inner_links_perm restL).symm

/-- The account of a table from one of its nodes, and back once the node is exchanged. -/
theorem NodesExact.child {n i : Nat} (exact : NodesExact other h n table restB restL) (inside : i < n) :
    NodeExact other h (table i) (Slots.others n Node.blocks table i ++ restB)
      (Slots.others n Node.links table i ++ restL) :=
  exact.perm (gather_child inside restB) (gather_child inside restL)

theorem NodeExact.back {n i : Nat} {node : Node}
    (exact : NodeExact other h node (Slots.others n Node.blocks table i ++ restB)
      (Slots.others n Node.links table i ++ restL)) (inside : i < n) :
    NodesExact other h n (Function.update table i node) restB restL :=
  exact.perm (gather_update_child inside node restB).symm (gather_update_child inside node restL).symm

theorem tableEmpty_gather (empty : tableEmpty table = true) :
    Slots.gather 256 Node.blocks table = [] ∧ Slots.gather 256 Node.links table = [] := by
  simp only [tableEmpty, List.all_eq_true, List.mem_range, tableSize8] at empty
  have leaf : ∀ i < 256, table i = .leaf [] := by
    intro i small
    have none := empty i small
    cases shape : table i with
    | inner => simp [shape, Node.isEmpty] at none
    | leaf head =>
        cases head with
        | nil => rfl
        | cons => simp [shape, Node.isEmpty] at none
  exact ⟨Slots.gather_eq_nil fun i small => by rw [leaf i small]; rfl,
    Slots.gather_eq_nil fun i small => by rw [leaf i small]; rfl⟩

theorem pruneTable_exact (exact : NodeExact other h (.inner head blk table) restB restL) :
    NodeExact other (pruneTable head blk table h).2 (pruneTable head blk table h).1 restB restL := by
  rw [pruneTable]
  split
  · next empty =>
      obtain ⟨noBlocks, noLinks⟩ := tableEmpty_gather empty
      have flat := exact.nodes
      rw [NodesExact, noBlocks, noLinks] at flat
      exact (flat.perm List.perm_middle (List.Perm.refl _)).free
  · exact exact

theorem lpmDeleteRec_exact {offset : Nat} (exact : NodeExact other h parent restB restL) :
    NodeExact other (lpmDeleteRec bytes len id parent offset h).2.2 (lpmDeleteRec bytes len id parent offset h).2.1
      restB restL := by
  induction parent generalizing offset h restB restL with
  | leaf head =>
      rw [lpmDeleteRec]
      exact exact
  | inner head blk table ih =>
      have nodes := exact.nodes
      rw [lpmDeleteRec]
      dsimp only
      split
      · have small := lpmIndex_lt bytes offset 8
        have below := NodeExact.back (@ih (lpmIndex bytes offset 8) _ _ _ (offset + 8) (nodes.child small)) small
        generalize lpmDeleteRec bytes len id (table (lpmIndex bytes offset 8)) (offset + 8) h = result at below ⊢
        obtain ⟨_ | _, node, h'⟩ := result
        · exact below.node
        · exact pruneTable_exact below.node
      · have looped := @deleteLoop_exact other h 256 table _ _ id len _ _ 0
          (fun k below => slot_lt (lpmIndex_lt bytes offset 8) (by omega)
            (by rwa [Nat.zero_add] at below : k < 1 <<< (8 - (len - offset)))) nodes
        generalize deleteLoop id len _ _ 0 table h = result at looped ⊢
        obtain ⟨_ | _, table', h'⟩ := result
        · exact looped.node
        · exact pruneTable_exact looped.node

/-- A next table that had to be made is in the account, and empty. -/
theorem ensureTable_exact (exact : NodeExact other h parent restB restL)
    (pending : Pending h (parent.blocks ++ restB) (parent.links ++ restL) ptr) :
    match ensureTable parent h with
    | (none, h') => NodeExact other h' parent restB restL
    | (some (blk, table), h') => NodeExact other h' (.inner parent.head blk table) restB restL ∧
        Pending h' ((Node.inner parent.head blk table).blocks ++ restB)
          ((Node.inner parent.head blk table).links ++ restL) ptr := by
  cases parent with
  | inner head blk table => exact ⟨exact, pending⟩
  | leaf head =>
      rcases answer : h.alloc with ⟨_ | blk, h'⟩
      · simp only [ensureTable, answer]
        exact exact.alloc_none answer
      · simp only [ensureTable, answer]
        have blocks : (blk :: ((Node.leaf head).blocks ++ restB)).Perm
            ((Node.inner head blk fun _ => .leaf []).blocks ++ restB) := by
          refine List.Perm.trans ?_ (inner_blocks_perm restB).symm
          rw [Slots.gather_eq_nil fun _ _ => rfl, List.nil_append]
          exact List.perm_middle.symm
        have links : ((Node.leaf head).links ++ restL).Perm
            ((Node.inner head blk fun _ => .leaf []).links ++ restL) := by
          refine List.Perm.trans ?_ (inner_links_perm restL).symm
          rw [Slots.gather_eq_nil fun _ _ => rfl, List.nil_append]
          exact List.Perm.refl _
        obtain ⟨-, -, -, carried⟩ := exact.toHeapOk.alloc_some answer
        exact ⟨(exact.alloc_some answer).perm blocks links, (carried pending).perm blocks links⟩

theorem lpmAddRec_exact {offset : Nat} (exact : NodeExact other h parent restB restL)
    (pending : Pending h (parent.blocks ++ restB) (parent.links ++ restL) ptr) :
    NodeExact other (lpmAddRec bytes len id ptr parent offset h).2.2
      (lpmAddRec bytes len id ptr parent offset h).2.1 restB restL := by
  induction levels : len - offset using Nat.strong_induction_on generalizing offset parent h restB restL with
  | _ levels ih =>
      have ensured := ensureTable_exact exact pending
      rw [lpmAddRec]
      generalize ensureTable parent h = made at ensured ⊢
      obtain ⟨_ | ⟨blk, table⟩, h₁⟩ := made
      · exact ensured
      obtain ⟨exact₁, pending₁⟩ := ensured
      have nodes := exact₁.nodes
      have waiting := pending₁.perm (inner_blocks_perm restB) (inner_links_perm restL)
      dsimp only
      split
      · have small := lpmIndex_lt bytes offset 8
        have below := NodeExact.back (ih (len - (offset + 8)) (by omega) (nodes.child small)
          (waiting.perm (gather_child small _) (gather_child small _)) rfl) small
        generalize lpmAddRec bytes len id ptr (table (lpmIndex bytes offset 8)) (offset + 8) h₁ = result
          at below ⊢
        obtain ⟨_ | _, node, h'⟩ := result
        · exact pruneTable_exact below.node
        · exact below.node
      · have looped := (@fillLoop_exact other h₁ 256 table _ _ id len ptr _ _ 0
          (fun k below => slot_lt (lpmIndex_lt bytes offset 8) (by omega)
            (by rwa [Nat.zero_add] at below : k < 1 <<< (8 - (len - offset)))) nodes waiting).1
        generalize fillLoop id len ptr _ _ 0 table h₁ = result at looped ⊢
        obtain ⟨_ | _, filled, table', h'⟩ := result
        · exact pruneTable_exact looped.node
        · exact looped.node

end Levels

/-! ## The whole table -/

section Table

variable {other : Nat → Prop} {h h' : Heap} {table : Table} {restB restL : List Nat} {id : Int} {len ptr : Nat}
  {bytes : Bytes}

theorem lpmDelete_exact (exact : NodesExact other h tableSize16 table restB restL) :
    NodesExact other (lpmDelete table bytes len id h).2.2 tableSize16 (lpmDelete table bytes len id h).2.1
      restB restL := by
  have small := lpmIndex_lt bytes 0 16
  rw [lpmDelete]
  dsimp only
  split
  · exact NodeExact.back (lpmDeleteRec_exact (exact.child small)) small
  · exact deleteLoop_exact (fun k below => slot_lt small (by omega)
      (by rwa [Nat.zero_add] at below : k < 1 <<< (16 - len))) exact

theorem lpmAdd_exact (exact : NodesExact other h tableSize16 table restB restL)
    (pending : NodesPending h tableSize16 table restB restL ptr) :
    NodesExact other (lpmAdd table bytes len id ptr h).2.2 tableSize16 (lpmAdd table bytes len id ptr h).2.1
      restB restL := by
  have small := lpmIndex_lt bytes 0 16
  rw [lpmAdd]
  dsimp only
  split
  · exact NodeExact.back (lpmAddRec_exact (exact.child small)
      (pending.perm (gather_child small _) (gather_child small _))) small
  · have inside : ∀ k < 1 <<< (16 - len),
        maskIndex (lpmIndex bytes 0 16) (1 <<< (16 - len)) ||| k < tableSize16 :=
      fun k below => slot_lt small (by omega) below
    obtain ⟨looped, bound⟩ := @fillLoop_exact other h tableSize16 table _ _ id len ptr _ _ 0
      (fun k below => inside k (by rwa [Nat.zero_add] at below)) exact pending
    generalize fillLoop id len ptr _ _ 0 table h = result at looped bound ⊢
    obtain ⟨_ | _, filled, table', h'⟩ := result
    · exact rollbackLoop_exact (fun k below => inside k (by simp only at bound; omega)) looped
    · exact looped

end Table

/-! ## The calls on a FIB -/

section Calls

variable {other : Nat → Prop} {h : Heap} {fib : Fib} {restB restL : List Nat}

/-- What is out after an update is owned, or is the entry of an update that succeeded. -/
theorem updateRoute_only
    (exact : Exact other h (tableBlocks fib.table ++ fib.blk :: restB) (tableLinks fib.table ++ restL))
    (r : Route) {ret : Bool} {fib' : Fib} {h' : Heap} (ran : updateRoute fib r h = (ret, fib', h')) {b : Nat}
    (live : h'.pool.live b = true) :
    b ∈ tableBlocks fib'.table ++ fib'.blk :: restB ∨ b ∈ tableLinks fib'.table ++ restL ∨ other b ∨
      ret = true ∧ h.alloc.1 = some b := by
  rcases updateRoute_cases fib r h with ⟨h₁, answer, eq⟩ | ⟨ptr, h₁, answer, -, eq⟩ |
    ⟨ptr, h₁, entry, answer, -, -, unlinked, eq⟩
  · rw [eq] at ran
    simp only [Prod.mk.injEq] at ran
    obtain ⟨-, rfl, rfl⟩ := ran
    exact ((exact.alloc_none answer).only b live).imp_right (Or.imp_right .inl)
  · rw [eq] at ran
    simp only [Prod.mk.injEq] at ran
    obtain ⟨-, rfl, rfl⟩ := ran
    exact ((exact.alloc_some answer).free.only b live).imp_right (Or.imp_right .inl)
  · have taken := exact.alloc_some answer
    obtain ⟨entered, pending⟩ := taken.toHeapOk.setEntry unlinked
    -- while the entry is being linked, it is one more block that is out
    have during : NodesExact (fun b => other b ∨ b = ptr) (h₁.setEntry ptr entry) tableSize16 fib.table
        (fib.blk :: restB) restL := by
      refine ⟨entered, fun a out => ?_⟩
      rcases taken.only a out with member | rest
      · rcases List.mem_cons.mp member with rfl | member
        · exact .inr (.inr (.inr rfl))
        · exact .inl member
      · exact .inr (rest.imp_right .inl)
    have added : NodesExact (fun b => other b ∨ b = ptr)
        (lpmAdd fib.table r.bytes r.len r.id ptr (h₁.setEntry ptr entry)).2.2 tableSize16
        (lpmAdd fib.table r.bytes r.len r.id ptr (h₁.setEntry ptr entry)).2.1 (fib.blk :: restB) restL :=
      lpmAdd_exact during pending
    rw [eq, linkEntry] at ran
    generalize lpmAdd fib.table r.bytes r.len r.id ptr (h₁.setEntry ptr entry) = result at added ran
    obtain ⟨_ | _, table, h₂⟩ := result
    · simp only [Prod.mk.injEq] at ran
      obtain ⟨rfl, rfl, rfl⟩ := ran
      obtain ⟨ne, live⟩ := Heap.free_live live
      refine (added.only b live).imp_right (Or.imp_right fun rest => .inl ?_)
      exact rest.resolve_right ne
    · simp only [Prod.mk.injEq] at ran
      obtain ⟨rfl, rfl, rfl⟩ := ran
      refine (added.only b live).imp_right (Or.imp_right (Or.imp_right ?_))
      rintro rfl
      exact ⟨rfl, congrArg Prod.fst answer⟩

/-- Once the entry of an update that succeeded is linked, everything that is out is owned. -/
theorem updateRoute_owned
    (exact : Exact other h (tableBlocks fib.table ++ fib.blk :: restB) (tableLinks fib.table ++ restL))
    {r : Route} {ret : Bool} {fib' : Fib} {h' : Heap} (ran : updateRoute fib r h = (ret, fib', h'))
    (linked : ret = true → ∀ b, h.alloc.1 = some b → b ∈ tableLinks fib'.table) :
    ∀ b, h'.pool.live b = true →
      b ∈ tableBlocks fib'.table ++ fib'.blk :: restB ∨ b ∈ tableLinks fib'.table ++ restL ∨ other b := by
  intro b live
  rcases updateRoute_only exact r ran live with block | link | old | ⟨done, new⟩
  · exact .inl block
  · exact .inr (.inl link)
  · exact .inr (.inr old)
  · exact .inr (.inl (List.mem_append_left _ (linked done b new)))

theorem fibRouteDelete_exact (exact : Exact other h (tableBlocks fib.table ++ fib.blk :: restB)
      (tableLinks fib.table ++ restL)) (k : Key) :
    Exact other (fibRouteDelete fib k.bytes k.len k.id h).2.2
      (tableBlocks (fibRouteDelete fib k.bytes k.len k.id h).2.1.table ++ fib.blk :: restB)
      (tableLinks (fibRouteDelete fib k.bytes k.len k.id h).2.1.table ++ restL) :=
  lpmDelete_exact exact

end Calls

end Ufp.Daemon
