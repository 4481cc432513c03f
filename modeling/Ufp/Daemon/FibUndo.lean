/-
# Ufp.Daemon.FibUndo — deleting a route just added

Linking a route in a node leaves a list from which the search of `lpm_entry_delete`
takes out exactly the new entry: an insertion goes through only if no entry of the
list answers to the same identifier and length. So the loop of a deletion gives back
the table that the loop of the addition started from, and, level by level, a next
table that the addition had to make is found empty and freed, while one that was
there before is not (`Node.Pruned`).
-/
import Ufp.Daemon.FibExact

namespace Ufp.Daemon

open Ufp.Theory

set_option autoImplicit false

/-- The entries answer to the same identifiers and lengths. -/
def SameIds (h h' : Heap) : Prop :=
  ∀ a, (h'.fibEntry a).id = (h.fibEntry a).id ∧ (h'.fibEntry a).prefixLen = (h.fibEntry a).prefixLen

section Ids

variable {h h' h'' : Heap} {id : Int} {len ptr : Nat}

theorem SameIds.refl (h : Heap) : SameIds h h := fun _ => ⟨rfl, rfl⟩

theorem SameIds.symm (same : SameIds h h') : SameIds h' h := fun a => ⟨(same a).1.symm, (same a).2.symm⟩

theorem SameIds.trans (first : SameIds h h') (second : SameIds h' h'') : SameIds h h'' := fun a =>
  ⟨(second a).1.trans (first a).1, (second a).2.trans (first a).2⟩

theorem SameIds.identify (same : SameIds h h') (a : Nat) :
    fibEntryIdentify (h'.fibEntry a) id len = fibEntryIdentify (h.fibEntry a) id len := by
  rw [fibEntryIdentify, fibEntryIdentify, (same a).1, (same a).2]

/-- Counting does not change what an entry answers to. -/
theorem SameIds.setEntry (h : Heap) (ptr refcount : Nat) :
    SameIds h (h.setEntry ptr { h.fibEntry ptr with refcount }) := by
  intro a
  by_cases same : a = ptr
  · subst same
    simp [Heap.setEntry]
  · simp [Heap.setEntry, same]

theorem SameIds.alloc {found : Option Nat} (answer : h.alloc = (found, h')) : SameIds h h' := by
  obtain ⟨-, rfl⟩ := Prod.mk.inj answer
  exact SameIds.refl h

theorem SameIds.put (h : Heap) (ptr : Nat) : SameIds h (fibEntryPut h ptr) := by
  simp only [fibEntryPut]
  generalize (if (h.fibEntry ptr).refcount = 0 then _ else _) = refcount
  split
  · exact SameIds.setEntry h ptr refcount
  · exact SameIds.setEntry h ptr refcount

theorem Linked.sameIds {node node' : Node} (linked : Linked h id len ptr node node') (same : SameIds h h') :
    Linked h' id len ptr node node' := by
  obtain ⟨before, after, blk, head, rfl, fresh⟩ := linked
  refine ⟨before, after, blk, head, rfl, fun e member => ?_⟩
  rw [same.identify]
  exact fresh e member

end Ids

/-! ## One node -/

section Node

variable {h h' : Heap} {id : Int} {len ptr : Nat}

theorem lpmEntryScan_some {head : List LpmEntry} {position after found : Nat}
    (ran : lpmEntryScan h id len head position after = some found) :
    ∀ e ∈ head, fibEntryIdentify (h.fibEntry e.ptr) id len = false := by
  induction head generalizing position after with
  | nil => exact fun e member => (by cases member)
  | cons first rest ih =>
      simp only [lpmEntryScan] at ran
      split at ran
      · cases ran
      · next other =>
          intro e member
          rcases List.mem_cons.mp member with rfl | member
          · simpa using other
          · exact ih ran e member

theorem lpmEntryInsert_linked {node : Node} {blk : Nat} {head : List LpmEntry}
    (ran : lpmEntryInsert h node.head id len ⟨blk, ptr⟩ = some (head, h')) :
    Linked h id len ptr node (node.setHead head) ∧ SameIds h h' := by
  simp only [lpmEntryInsert] at ran
  split at ran
  · cases ran
  · next after scanned =>
      obtain ⟨rfl, rfl⟩ := Prod.mk.inj (Option.some.inj ran)
      refine ⟨⟨_, _, blk, (List.take_append_drop after node.head).symm, rfl, fun e member => ?_⟩,
        SameIds.setEntry h ptr _⟩
      exact lpmEntryScan_some scanned e (List.mem_of_mem_take member)

/-- The entry that was linked is the one that is found. -/
theorem Linked.delete {node node' : Node} (linked : Linked h id len ptr node node')
    (self : fibEntryIdentify (h.fibEntry ptr) id len = true) :
    ∃ head h', lpmEntryDelete h id len node'.head = some (head, h') ∧ node'.setHead head = node ∧ SameIds h h' := by
  obtain ⟨before, after, blk, whole, rfl, fresh⟩ := linked
  refine ⟨before ++ after, (fibEntryPut h ptr).free blk, ?_, ?_, SameIds.put h ptr⟩
  · rw [Node.setHead_head]
    exact lpmEntryDelete_split fresh self
  · rw [Node.setHead_setHead, ← whole, Node.setHead_self]

end Node

/-! ## The loops -/

section Loops

variable {h : Heap} {id : Int} {len ptr index : Nat} {table : Table}

theorem fillLoop_linked {todo i filled : Nat} {table' : Table} {h' : Heap}
    (slots : ∀ k < i + todo, index ||| k = index + k)
    (ran : fillLoop id len ptr index todo i table h = (true, filled, table', h')) :
    SameIds h h' ∧ (∀ j, ¬ (index + i ≤ j ∧ j < index + i + todo) → table' j = table j) ∧
      ∀ j, index + i ≤ j → j < index + i + todo → Linked h id len ptr (table j) (table' j) := by
  induction todo generalizing i table h with
  | zero =>
      simp only [fillLoop, Prod.mk.injEq] at ran
      obtain ⟨-, -, rfl, rfl⟩ := ran
      exact ⟨SameIds.refl h, fun _ _ => rfl, fun j lower upper => by omega⟩
  | succ todo ih =>
      rcases answer : h.alloc with ⟨_ | blk, h₁⟩
      · simp [fillLoop, answer] at ran
      cases found : lpmEntryInsert h₁ (table (index ||| i)).head id len ⟨blk, ptr⟩ with
      | none => simp [fillLoop, answer, found] at ran
      | some result =>
          obtain ⟨head, h₂⟩ := result
          simp only [fillLoop, answer, found] at ran
          obtain ⟨here, counted⟩ := lpmEntryInsert_linked found
          have early := (SameIds.alloc answer).trans counted
          rw [slots i (by omega)] at ran here
          obtain ⟨later, same, linked⟩ := ih (fun k below => slots k (by omega)) ran
          refine ⟨early.trans later, fun j outside => ?_, fun j lower upper => ?_⟩
          · rw [same j (by omega), Function.update_of_ne (by omega)]
          · by_cases first : j = index + i
            · subst first
              rw [same _ (by omega), Function.update_self]
              exact here.sameIds (SameIds.alloc answer).symm
            · have rest := (linked j (by omega) (by omega)).sameIds early.symm
              rwa [Function.update_of_ne first] at rest

theorem deleteLoop_undo {todo i : Nat} {table₀ : Table} (slots : ∀ k < i + todo, index ||| k = index + k)
    (self : fibEntryIdentify (h.fibEntry ptr) id len = true)
    (same : ∀ j, ¬ (index + i ≤ j ∧ j < index + i + todo) → table j = table₀ j)
    (linked : ∀ j, index + i ≤ j → j < index + i + todo → Linked h id len ptr (table₀ j) (table j)) :
    ∃ h', deleteLoop id len index todo i table h = (true, table₀, h') := by
  induction todo generalizing i table h with
  | zero =>
      have restored : table = table₀ := funext fun j => same j (by omega)
      exact ⟨h, by rw [deleteLoop, restored]⟩
  | succ todo ih =>
      obtain ⟨head, h₁, found, node, ids⟩ := (linked (index + i) (by omega) (by omega)).delete self
      simp only [deleteLoop, slots i (by omega), found, node]
      refine ih (fun k below => slots k (by omega)) (by rw [ids.identify]; exact self) ?_ ?_
      · intro j outside
        by_cases first : j = index + i
        · subst first
          exact Function.update_self ..
        · rw [Function.update_of_ne first]
          exact same j (by omega)
      · intro j lower upper
        rw [Function.update_of_ne (by omega)]
        exact (linked j (by omega) (by omega)).sameIds ids

/-- The slots of a loop lie side by side. -/
theorem slot_eq {raw m width k : Nat} (small : raw < 2 ^ m) (word : m ≤ 32) (narrow : width ≤ m)
    (below : k < 1 <<< width) :
    maskIndex raw (1 <<< width) ||| k = maskIndex raw (1 <<< width) + k := by
  rw [Nat.one_shiftLeft] at below ⊢
  have bound : raw < 2 ^ 32 := Nat.lt_of_lt_of_le small (Nat.pow_le_pow_right (by decide) word)
  rw [maskIndex_eq (Nat.le_trans narrow word) bound]
  exact or_eq_add below

/-- A deletion with the loop of an addition before it. -/
theorem fillLoop_undo {todo filled : Nat} {table' : Table} {h' : Heap}
    (slots : ∀ k < todo, index ||| k = index + k)
    (ran : fillLoop id len ptr index todo 0 table h = (true, filled, table', h')) :
    SameIds h h' ∧ ∀ h₀, SameIds h' h₀ → fibEntryIdentify (h₀.fibEntry ptr) id len = true →
      ∃ h'', deleteLoop id len index todo 0 table' h₀ = (true, table, h'') := by
  have all : ∀ k < 0 + todo, index ||| k = index + k := fun k below => slots k (by omega)
  obtain ⟨ids, same, linked⟩ := fillLoop_linked all ran
  refine ⟨ids, fun h₀ later self => deleteLoop_undo all self same ?_⟩
  exact fun j lower upper => (linked j lower upper).sameIds (ids.trans later)

end Loops

/-! ## Levels -/

/-- No next table is empty. -/
def Node.Pruned : Node → Prop
  | .leaf _ => True
  | .inner _ _ table => tableEmpty table = false ∧ ∀ i < 256, (table i).Pruned

theorem NodeOk.pruned {stored : List Stored} {offset v : Nat} {node : Node} (aligned : offset % 8 = 0)
    (ok : NodeOk stored offset v node) : node.Pruned := by
  induction node generalizing offset v with
  | leaf head => trivial
  | inner head blk table ih =>
      exact ⟨ok.not_empty aligned, fun i small => ih i (by omega) (ok.2.2 i small)⟩

section Levels

variable {h h' : Heap} {id : Int} {len ptr : Nat} {bytes : Bytes} {parent node : Node}

/-- The table an addition works on: it is dropped again exactly if it was made. -/
theorem ensureTable_pruned {blk : Nat} {table : Table} (pruned : parent.Pruned)
    (made : ensureTable parent h = (some (blk, table), h')) :
    SameIds h h' ∧ (∀ i < 256, (table i).Pruned) ∧
      ∀ h₀, ∃ h'', pruneTable parent.head blk table h₀ = (parent, h'') := by
  cases parent with
  | inner head blk' table' =>
      simp only [ensureTable, Prod.mk.injEq, Option.some.injEq] at made
      obtain ⟨⟨rfl, rfl⟩, rfl⟩ := made
      refine ⟨SameIds.refl h, pruned.2, fun h₀ => ⟨h₀, ?_⟩⟩
      simp [pruneTable, pruned.1, Node.head]
  | leaf head =>
      rcases answer : h.alloc with ⟨_ | blk', h₁⟩
      · simp [ensureTable, answer] at made
      · simp only [ensureTable, answer, Prod.mk.injEq, Option.some.injEq] at made
        obtain ⟨⟨rfl, rfl⟩, rfl⟩ := made
        refine ⟨SameIds.alloc answer, fun _ _ => trivial, fun h₀ => ⟨h₀.free blk', ?_⟩⟩
        simp [pruneTable, tableEmpty, Node.isEmpty, Node.head]

/-- **`_lpm_delete` undoes `_lpm_add`.** -/
theorem lpmAddRec_undo {offset : Nat} (pruned : parent.Pruned)
    (ran : lpmAddRec bytes len id ptr parent offset h = (true, node, h')) :
    SameIds h h' ∧ ∀ h₀, SameIds h' h₀ → fibEntryIdentify (h₀.fibEntry ptr) id len = true →
      ∃ h'', lpmDeleteRec bytes len id node offset h₀ = (true, parent, h'') := by
  induction levels : len - offset using Nat.strong_induction_on generalizing offset parent node h h' with
  | _ levels ih =>
      rw [lpmAddRec] at ran
      rcases made : ensureTable parent h with ⟨_ | ⟨blk, table⟩, h₁⟩
      · simp [made] at ran
      obtain ⟨ids, children, drop⟩ := ensureTable_pruned pruned made
      rw [made] at ran
      dsimp only at ran
      by_cases deep : len - offset > 8
      · rw [if_pos deep] at ran
        have small : lpmIndex bytes offset 8 < 256 := lpmIndex_lt bytes offset 8
        rcases result : lpmAddRec bytes len id ptr (table (lpmIndex bytes offset 8)) (offset + 8) h₁ with
          ⟨_ | _, child, h₂⟩
        · simp [result] at ran
        simp only [result, Prod.mk.injEq, true_and] at ran
        obtain ⟨rfl, rfl⟩ := ran
        obtain ⟨later, undo⟩ := ih (len - (offset + 8)) (by omega) (children _ small) result rfl
        refine ⟨ids.trans later, fun h₀ after self => ?_⟩
        obtain ⟨h₃, back⟩ := undo h₀ after self
        obtain ⟨h₄, dropped⟩ := drop h₃
        refine ⟨h₄, ?_⟩
        rw [lpmDeleteRec]
        simp only [if_pos deep, Function.update_self, back, Function.update_idem, Function.update_eq_self, dropped]
      · rw [if_neg deep] at ran
        rcases result : fillLoop id len ptr (maskIndex (lpmIndex bytes offset 8) (1 <<< (8 - (len - offset))))
          (1 <<< (8 - (len - offset))) 0 table h₁ with ⟨_ | _, filled, table', h₂⟩
        · simp [result] at ran
        simp only [result, Prod.mk.injEq, true_and] at ran
        obtain ⟨rfl, rfl⟩ := ran
        obtain ⟨later, undo⟩ := fillLoop_undo
          (fun k below => slot_eq (lpmIndex_lt bytes offset 8) (by decide) (by omega) below) result
        refine ⟨ids.trans later, fun h₀ after self => ?_⟩
        obtain ⟨h₃, back⟩ := undo h₀ after self
        obtain ⟨h₄, dropped⟩ := drop h₃
        refine ⟨h₄, ?_⟩
        rw [lpmDeleteRec]
        simp only [if_neg deep, back, dropped]

/-- **`lpm_delete` undoes `lpm_add`.** -/
theorem lpmAdd_undo {table table' : Table} (pruned : ∀ i < tableSize16, (table i).Pruned)
    (self : fibEntryIdentify (h.fibEntry ptr) id len = true)
    (ran : lpmAdd table bytes len id ptr h = (true, table', h')) :
    ∃ h'', lpmDelete table' bytes len id h' = (true, table, h'') := by
  have small : lpmIndex bytes 0 16 < 2 ^ 16 := lpmIndex_lt bytes 0 16
  rw [lpmAdd] at ran
  dsimp only at ran
  by_cases deep : len > 16
  · rw [if_pos deep] at ran
    rcases result : lpmAddRec bytes len id ptr (table (lpmIndex bytes 0 16)) 16 h with ⟨ret, node, h₁⟩
    simp only [result, Prod.mk.injEq] at ran
    obtain ⟨rfl, rfl, rfl⟩ := ran
    obtain ⟨ids, undo⟩ := lpmAddRec_undo (pruned _ small) result
    obtain ⟨h₂, back⟩ := undo h₁ (SameIds.refl h₁) (by rw [ids.identify]; exact self)
    refine ⟨h₂, ?_⟩
    rw [lpmDelete]
    simp only [if_pos deep, Function.update_self, back, Function.update_idem, Function.update_eq_self]
  · rw [if_neg deep] at ran
    rcases result : fillLoop id len ptr (maskIndex (lpmIndex bytes 0 16) (1 <<< (16 - len)))
      (1 <<< (16 - len)) 0 table h with ⟨_ | _, filled, table₁, h₁⟩
    · simp [result] at ran
    simp only [result, Prod.mk.injEq, true_and] at ran
    obtain ⟨rfl, rfl⟩ := ran
    obtain ⟨ids, undo⟩ := fillLoop_undo (fun k below => slot_eq small (by decide) (by omega) below) result
    obtain ⟨h₂, back⟩ := undo h₁ (SameIds.refl h₁) (by rw [ids.identify]; exact self)
    refine ⟨h₂, ?_⟩
    rw [lpmDelete]
    simp only [if_neg deep, back]

end Levels

/-- **`fib_route_delete` undoes `fib_route_update`**: the table is the one before. -/
theorem updateRoute_undo {h h' : Heap} {fib fib' : Fib} {stored : List Stored} (ok : TableOk stored fib.table)
    {r : Route} (ran : updateRoute fib r h = (true, fib', h')) :
    ∃ h'', fibRouteDelete fib' r.bytes r.len r.id h' = (true, fib, h'') := by
  rcases updateRoute_cases fib r h with ⟨h₁, -, eq⟩ | ⟨ptr, h₁, -, -, eq⟩ |
    ⟨ptr, h₁, entry, -, -, holds, -, eq⟩
  · simp [eq] at ran
  · simp [eq] at ran
  · have self : fibEntryIdentify ((h₁.setEntry ptr entry).fibEntry ptr) r.id r.len = true := by
      simp [Heap.setEntry, fibEntryIdentify, holds.id, holds.len]
    rw [eq, linkEntry] at ran
    split at ran
    · next table h₂ added =>
        simp only [Prod.mk.injEq, true_and] at ran
        obtain ⟨rfl, rfl⟩ := ran
        have pruned : ∀ i < tableSize16, (fib.table i).Pruned := fun i small => (ok i small).pruned (by decide)
        obtain ⟨h₃, back⟩ := lpmAdd_undo pruned self added
        exact ⟨h₃, by simp only [fibRouteDelete, back]⟩
    · simp at ran

end Ufp.Daemon
