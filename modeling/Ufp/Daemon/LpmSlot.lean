/-
# Ufp.Daemon.LpmSlot — linking and unlinking a route at one node

`lpm_entry_insert` and `lpm_entry_delete` on the list of a node that holds the
routes it should (`NodeOk`): the first puts a route at its rank unless its key is
present, the second takes out the route of a key. Both move one entry block and
one link in the accounts of the node (`Node.blocks`, `Node.links`).
-/
import Ufp.Daemon.LpmInv

namespace Ufp.Daemon

open Ufp.Theory Ufp.Theory.Bits Ufp.Theory.Ranked

set_option autoImplicit false

/-! ## The blocks and links of a node -/

namespace Node

/-- The pool blocks of a node: its entries and all its next tables hold. -/
def blocks : Node → List Nat
  | .leaf head => head.map LpmEntry.blk
  | .inner head blk table =>
      head.map LpmEntry.blk ++ blk :: (List.range 256).flatMap fun i => (table i).blocks

/-- The `fib_entry` pointers of a node and its next tables. -/
def links : Node → List Nat
  | .leaf head => head.map LpmEntry.ptr
  | .inner head _ table =>
      head.map LpmEntry.ptr ++ (List.range 256).flatMap fun i => (table i).links

/-- The blocks below a node. -/
def deepBlocks : Node → List Nat
  | .leaf _ => []
  | .inner _ blk table => blk :: Slots.gather 256 blocks table

/-- The links below a node. -/
def deepLinks : Node → List Nat
  | .leaf _ => []
  | .inner _ _ table => Slots.gather 256 links table

variable (node : Node) (head : List LpmEntry)

theorem blocks_eq : node.blocks = node.head.map LpmEntry.blk ++ node.deepBlocks := by
  cases node with
  | leaf head => exact (List.append_nil _).symm
  | inner head blk table => rfl

theorem links_eq : node.links = node.head.map LpmEntry.ptr ++ node.deepLinks := by
  cases node with
  | leaf head => exact (List.append_nil _).symm
  | inner head blk table => rfl

@[simp] theorem setHead_head : (node.setHead head).head = head := by cases node <;> rfl

@[simp] theorem setHead_deepBlocks : (node.setHead head).deepBlocks = node.deepBlocks := by
  cases node <;> rfl

@[simp] theorem setHead_deepLinks : (node.setHead head).deepLinks = node.deepLinks := by
  cases node <;> rfl

variable {node head} {entry : LpmEntry}

/-- One entry more or less in the list of a node. -/
theorem setHead_blocks (more : head.Perm (entry :: node.head)) :
    (node.setHead head).blocks.Perm (entry.blk :: node.blocks) := by
  rw [blocks_eq, blocks_eq, setHead_head, setHead_deepBlocks]
  exact (more.map LpmEntry.blk).append_right _

theorem setHead_links (more : head.Perm (entry :: node.head)) :
    (node.setHead head).links.Perm (entry.ptr :: node.links) := by
  rw [links_eq, links_eq, setHead_head, setHead_deepLinks]
  exact (more.map LpmEntry.ptr).append_right _

theorem setHead_blocks_less (less : node.head.Perm (entry :: head)) :
    node.blocks.Perm (entry.blk :: (node.setHead head).blocks) := by
  rw [blocks_eq, blocks_eq (node.setHead head), setHead_head, setHead_deepBlocks]
  exact (less.map LpmEntry.blk).append_right _

theorem setHead_links_less (less : node.head.Perm (entry :: head)) :
    node.links.Perm (entry.ptr :: (node.setHead head).links) := by
  rw [links_eq, links_eq (node.setHead head), setHead_head, setHead_deepLinks]
  exact (less.map LpmEntry.ptr).append_right _

theorem setHead_setHead (other : List LpmEntry) :
    (node.setHead other).setHead head = node.setHead head := by cases node <;> rfl

theorem setHead_self : node.setHead node.head = node := by cases node <;> rfl

end Node

/-! ## Inserting -/

section Insert

variable {h : Heap} {id : Int} {len : Nat} {head : List LpmEntry}

theorem lpmEntryScan_dup {entry : LpmEntry} (member : entry ∈ head)
    (same : fibEntryIdentify (h.fibEntry entry.ptr) id len = true) (position after : Nat) :
    lpmEntryScan h id len head position after = none := by
  induction head generalizing position after with
  | nil => cases member
  | cons first rest ih =>
      by_cases here : fibEntryIdentify (h.fibEntry first.ptr) id len = true
      · simp [lpmEntryScan, here]
      · rcases List.mem_cons.mp member with rfl | later
        · exact absurd same here
        · simp only [lpmEntryScan, here]
          exact ih later _ _

/-- The length an entry is ranked by. -/
def entryLen (h : Heap) (entry : LpmEntry) : Nat := (h.fibEntry entry.ptr).prefixLen

/-- The scan stops behind the last longer entry; in a ranked list these come first. -/
theorem lpmEntryScan_fresh (sorted : head.Pairwise (Before (entryLen h)))
    (fresh : ∀ entry ∈ head, fibEntryIdentify (h.fibEntry entry.ptr) id len = false) (position after : Nat) :
    lpmEntryScan h id len head position after =
      some (if head.takeWhile (fun e => len < entryLen h e) = [] then after
        else position + (head.takeWhile fun e => len < entryLen h e).length) := by
  induction head generalizing position after with
  | nil => rfl
  | cons first rest ih =>
      obtain ⟨order, sorted⟩ := List.pairwise_cons.mp sorted
      have other := fresh first List.mem_cons_self
      have next := ih sorted (fun e member => fresh e (List.mem_cons_of_mem _ member))
      simp only [lpmEntryScan, other]
      by_cases longer : len < entryLen h first
      · have step : fibEntryCompare (h.fibEntry first.ptr) len = true := by
          simpa [fibEntryCompare, entryLen] using longer
        simp only [step, if_true, Bool.false_eq_true, if_false, next, longer, decide_true,
          List.takeWhile_cons_of_pos, reduceCtorEq, List.length_cons, Option.some.injEq]
        split
        · rename_i none
          simp [none]
        · omega
      · have step : fibEntryCompare (h.fibEntry first.ptr) len = false := by
          simpa [fibEntryCompare, entryLen] using longer
        have stop : rest.takeWhile (fun e => len < entryLen h e) = [] := by
          cases rest with
          | nil => rfl
          | cons second tail =>
              have := order second List.mem_cons_self
              have short : ¬ len < entryLen h second := by
                unfold Before at this
                omega
              simp [short]
        simp only [step, if_false, Bool.false_eq_true, next, stop, if_true]
        simp [longer]

theorem take_length_takeWhile {α : Type} (p : α → Bool) (l : List α) :
    l.take (l.takeWhile p).length = l.takeWhile p :=
  (List.prefix_iff_eq_take.mp (List.takeWhile_prefix p)).symm

theorem drop_length_takeWhile {α : Type} (p : α → Bool) (l : List α) :
    l.drop (l.takeWhile p).length = l.dropWhile p := by
  induction l with
  | nil => rfl
  | cons a l ih =>
      cases keep : p a with
      | true => simp [keep, ih]
      | false => simp [keep]

theorem lpmEntryInsert_dup {entry : LpmEntry} (member : entry ∈ head)
    (same : fibEntryIdentify (h.fibEntry entry.ptr) id len = true) (new : LpmEntry) :
    lpmEntryInsert h head id len new = none := by
  rw [lpmEntryInsert, lpmEntryScan_dup member same]

theorem lpmEntryInsert_fresh (sorted : head.Pairwise (Before (entryLen h)))
    (fresh : ∀ entry ∈ head, fibEntryIdentify (h.fibEntry entry.ptr) id len = false) {new : LpmEntry}
    (ranked : entryLen h new = len) :
    lpmEntryInsert h head id len new =
      some (head.orderedInsert (Before (entryLen h)) new, fibEntryPull h new.ptr) := by
  have place : (fun e => decide (len < entryLen h e)) =
      fun e => decide (¬ Before (entryLen h) new e) := by
    funext e
    simp [Before, ranked]
  have zero : (if head.takeWhile (fun e => len < entryLen h e) = [] then 0
      else 0 + (head.takeWhile fun e => len < entryLen h e).length) =
      (head.takeWhile fun e => len < entryLen h e).length := by
    split
    · rename_i none
      simp [none]
    · simp
  rw [lpmEntryInsert, lpmEntryScan_fresh sorted fresh, zero]
  simp only [Option.some.injEq, Prod.mk.injEq, and_true]
  rw [List.orderedInsert_eq_take_drop, ← place, take_length_takeWhile, drop_length_takeWhile]

end Insert

/-! ## One node -/

section Slot

variable {h : Heap} {stored : List Stored} {offset v : Nat} {node : Node}

/-- The entries of a node, through the routes they point to. -/
theorem NodeOk.entry (ok : NodeOk stored offset v node) {entry : LpmEntry}
    (member : entry ∈ node.head) :
    ∃ s ∈ stored, s.addr = entry.ptr ∧ s.route.Covers offset v := by
  have linked : entry.ptr ∈ node.head.map LpmEntry.ptr := List.mem_map_of_mem member
  rw [ok.head] at linked
  obtain ⟨s, ranked, same⟩ := List.mem_map.mp linked
  obtain ⟨here, covers⟩ := List.mem_filter.mp (mem_rank.mp ranked)
  exact ⟨s, here, same, by simpa using covers⟩

theorem NodeOk.entry_of_covers (ok : NodeOk stored offset v node) {s : Stored} (member : s ∈ stored)
    (covers : s.route.Covers offset v) : ∃ entry ∈ node.head, entry.ptr = s.addr := by
  have ranked : s ∈ ranking stored offset v :=
    mem_rank.mpr (List.mem_filter.mpr ⟨member, by simpa using covers⟩)
  have linked : s.addr ∈ (ranking stored offset v).map Stored.addr := List.mem_map_of_mem ranked
  rw [← ok.head] at linked
  obtain ⟨entry, here, same⟩ := List.mem_map.mp linked
  exact ⟨entry, here, same⟩

theorem NodeOk.sorted (ok : NodeOk stored offset v node) (contents : Contents h stored) :
    node.head.Pairwise (Before (entryLen h)) := by
  have order : ((ranking stored offset v).map Stored.addr).Pairwise
      (Before fun a => (h.fibEntry a).prefixLen) := by
    rw [List.pairwise_map]
    refine (rank_sorted _).imp_of_mem fun {a b} ha hb before => ?_
    have holdsA := contents a (List.mem_filter.mp (mem_rank.mp ha)).1
    have holdsB := contents b (List.mem_filter.mp (mem_rank.mp hb)).1
    simp only [Before, holdsA.len, holdsB.len]
    exact before
  rw [← ok.head, List.pairwise_map] at order
  exact order

/-- An entry of the node identifies with a key that the node covers exactly when
its route has that key. -/
theorem NodeOk.identify (contents : Contents h stored) {k : Key} (covered : k.Covers offset v)
    {s : Stored} (member : s ∈ stored) (covers : s.route.Covers offset v) :
    fibEntryIdentify (h.fibEntry s.addr) k.id k.len = true ↔ s.route.Same k := by
  rw [(contents s member).identify, covers.same_iff covered]

/-- `node'` is `node` with one entry for `ptr` more in its list, which a search
for `id` and `len` finds. -/
def Linked (h : Heap) (id : Int) (len ptr : Nat) (node node' : Node) : Prop :=
  ∃ before after blk, node.head = before ++ after ∧
    node' = node.setHead (before ++ ⟨blk, ptr⟩ :: after) ∧
    ∀ e ∈ before, fibEntryIdentify (h.fibEntry e.ptr) id len = false

/-- Linking a route whose key is absent. -/
theorem NodeOk.slot_insert (low : 16 ≤ offset) (ok : NodeOk stored offset v node) {s : Stored}
    (contents : Contents h (s :: stored)) (covers : s.route.Covers offset v)
    (absent : ∀ t ∈ stored, ¬ t.route.Same s.route.toKey) (blk : Nat) :
    ∃ head, lpmEntryInsert h node.head s.route.id s.len ⟨blk, s.addr⟩ =
        some (head, fibEntryPull h s.addr) ∧
      head.Perm (⟨blk, s.addr⟩ :: node.head) ∧
      NodeOk (s :: stored) offset v (node.setHead head) ∧
      Linked h s.route.id s.len s.addr node (node.setHead head) := by
  have others : Contents h stored := fun t member => contents t (List.mem_cons_of_mem _ member)
  have self := (contents s List.mem_cons_self).len
  have fresh : ∀ entry ∈ node.head,
      fibEntryIdentify (h.fibEntry entry.ptr) s.route.id s.len = false := by
    intro entry member
    obtain ⟨t, here, same, coversT⟩ := ok.entry member
    rw [← same, Bool.eq_false_iff]
    intro found
    exact absent t here ((NodeOk.identify others covers here coversT).mp found)
  have inserted := lpmEntryInsert_fresh (ok.sorted others) fresh
    (show entryLen h ⟨blk, s.addr⟩ = s.len from self)
  refine ⟨_, inserted, List.perm_orderedInsert _ _ _, ok.setHead low ?_ ?_, ?_⟩
  · have ranked : ranking (s :: stored) offset v =
        (ranking stored offset v).orderedInsert (Before Stored.len) s := by
      rw [ranking, List.filter_cons_of_pos (by simpa using covers), rank_cons]
      rfl
    -- both insertions order pointers by the length stored behind them
    have entries : (node.head.orderedInsert (Before (entryLen h)) ⟨blk, s.addr⟩).map LpmEntry.ptr =
        (node.head.map LpmEntry.ptr).orderedInsert (Before fun a => (h.fibEntry a).prefixLen)
          s.addr := List.map_orderedInsert _ _ _ _ _ (fun _ _ => Iff.rfl) (fun _ _ => Iff.rfl)
    have stays : ∀ t ∈ ranking stored offset v, (h.fibEntry t.addr).prefixLen = t.len :=
      fun t member => (others t (List.mem_filter.mp (mem_rank.mp member)).1).len
    have routes : ((ranking stored offset v).orderedInsert (Before Stored.len) s).map Stored.addr =
        ((ranking stored offset v).map Stored.addr).orderedInsert
          (Before fun a => (h.fibEntry a).prefixLen) s.addr := by
      apply List.map_orderedInsert
      · intro t member
        simp only [Before, stays t member, self]
        rfl
      · intro t member
        simp only [Before, stays t member, self]
        rfl
    rw [entries, ranked, routes, ok.head]
  · have above : ¬ s.route.Below offset v := covers.not_below
    simp [belowOf, above]
  · refine ⟨node.head.takeWhile fun e => ¬ Before (entryLen h) ⟨blk, s.addr⟩ e, _, blk,
      List.takeWhile_append_dropWhile.symm, ?_, ?_⟩
    · rw [List.orderedInsert_eq_take_drop]
    · exact fun e member => fresh e ((List.takeWhile_sublist _).subset member)

/-- A key that is present is not linked a second time. -/
theorem NodeOk.slot_dup (ok : NodeOk stored offset v node) (contents : Contents h stored) {k : Key}
    (covers : k.Covers offset v) {t : Stored} (member : t ∈ stored) (same : t.route.Same k)
    (new : LpmEntry) : lpmEntryInsert h node.head k.id k.len new = none := by
  have coversT := same.covers covers
  obtain ⟨entry, here, ptr⟩ := ok.entry_of_covers member coversT
  refine lpmEntryInsert_dup here ?_ new
  rw [ptr]
  exact (NodeOk.identify contents covers member coversT).mpr same

theorem lpmEntryDelete_none {id : Int} {len : Nat} {head : List LpmEntry}
    (fresh : ∀ entry ∈ head, fibEntryIdentify (h.fibEntry entry.ptr) id len = false) :
    lpmEntryDelete h id len head = none := by
  induction head with
  | nil => rfl
  | cons first rest ih =>
      have tail := ih fun e member => fresh e (List.mem_cons_of_mem _ member)
      simp [lpmEntryDelete, fresh first List.mem_cons_self, tail]

theorem lpmEntryDelete_split {id : Int} {len : Nat} {before after : List LpmEntry}
    {entry : LpmEntry}
    (fresh : ∀ e ∈ before, fibEntryIdentify (h.fibEntry e.ptr) id len = false)
    (found : fibEntryIdentify (h.fibEntry entry.ptr) id len = true) :
    lpmEntryDelete h id len (before ++ entry :: after) =
      some (before ++ after, (fibEntryPut h entry.ptr).free entry.blk) := by
  induction before with
  | nil => simp [lpmEntryDelete, found]
  | cons first rest ih =>
      have tail := ih fun e member => fresh e (List.mem_cons_of_mem _ member)
      simp [lpmEntryDelete, fresh first List.mem_cons_self, tail]

/-- A key that is absent is not found. -/
theorem NodeOk.slot_missing (ok : NodeOk stored offset v node) (contents : Contents h stored)
    {k : Key} (covers : k.Covers offset v) (absent : ∀ t ∈ stored, ¬ t.route.Same k) :
    lpmEntryDelete h k.id k.len node.head = none := by
  refine lpmEntryDelete_none fun entry member => ?_
  obtain ⟨t, here, ptr, coversT⟩ := ok.entry member
  rw [← ptr, Bool.eq_false_iff]
  intro found
  exact absent t here ((NodeOk.identify contents covers here coversT).mp found)

/-- No two routes have the same key. -/
def Distinct (stored : List Stored) : Prop := stored.Pairwise fun s t => ¬ s.route.Same t.route.toKey

/-- The route of a key, singled out of a list of distinct ones. -/
theorem Distinct.split {l : List Stored} (distinct : Distinct l) {k : Key} {t : Stored}
    (member : t ∈ l) (same : t.route.Same k) :
    ∃ before after, l = before ++ t :: after ∧
      (∀ s ∈ before, ¬ s.route.Same k) ∧ ∀ s ∈ after, ¬ s.route.Same k := by
  obtain ⟨before, after, rfl⟩ := List.append_of_mem member
  obtain ⟨-, tail, across⟩ := List.pairwise_append.mp distinct
  refine ⟨before, after, rfl, fun s here other => ?_, fun s here other => ?_⟩
  · exact across s here t List.mem_cons_self (other.trans same.symm)
  · exact (List.pairwise_cons.mp tail).1 s here (same.trans other.symm)

theorem Distinct.ranking (distinct : Distinct stored) (offset v : Nat) :
    Distinct (ranking stored offset v) := by
  refine (List.Perm.pairwise_iff ?_ (List.perm_insertionSort _ _)).mpr (distinct.filter _)
  exact fun apart same => apart same.symm

/-- Unlinking the route of a key. -/
theorem NodeOk.slot_delete (low : 16 ≤ offset) (ok : NodeOk stored offset v node)
    (contents : Contents h stored) (distinct : Distinct stored) {k : Key}
    (covers : k.Covers offset v) {t : Stored} (member : t ∈ stored) (same : t.route.Same k) :
    ∃ head entry, lpmEntryDelete h k.id k.len node.head =
        some (head, (fibEntryPut h t.addr).free entry.blk) ∧ entry.ptr = t.addr ∧
      node.head.Perm (entry :: head) ∧
      NodeOk (stored.filter fun s => ¬ s.route.Same k) offset v (node.setHead head) := by
  have known : ∀ s ∈ Daemon.ranking stored offset v, s ∈ stored ∧ s.route.Covers offset v := by
    intro s ranked
    obtain ⟨here, covers⟩ := List.mem_filter.mp (mem_rank.mp ranked)
    exact ⟨here, by simpa using covers⟩
  have ranked : t ∈ Daemon.ranking stored offset v :=
    mem_rank.mpr (List.mem_filter.mpr ⟨member, by simpa using same.covers covers⟩)
  obtain ⟨before, after, whole, freshBefore, freshAfter⟩ :=
    (distinct.ranking offset v).split ranked same
  have entries := ok.head
  rw [whole, List.map_append, List.map_cons] at entries
  obtain ⟨first, rest, split, firstEq, restEq⟩ := List.map_eq_append_iff.mp entries
  obtain ⟨entry, last, rfl, ptr, lastEq⟩ := List.map_eq_cons_iff.mp restEq
  have fresh : ∀ e ∈ first, fibEntryIdentify (h.fibEntry e.ptr) k.id k.len = false := by
    intro e here
    have linked : e.ptr ∈ before.map Stored.addr := firstEq ▸ List.mem_map_of_mem here
    obtain ⟨s, early, addr⟩ := List.mem_map.mp linked
    obtain ⟨stays, coversS⟩ := known s (whole ▸ List.mem_append_left _ early)
    rw [← addr, Bool.eq_false_iff]
    exact fun found => freshBefore s early ((NodeOk.identify contents covers stays coversS).mp found)
  have found : fibEntryIdentify (h.fibEntry entry.ptr) k.id k.len = true := by
    rw [ptr]
    exact (NodeOk.identify contents covers member (same.covers covers)).mpr same
  refine ⟨first ++ last, entry, ?_, ptr, ?_, ok.setHead low ?_ ?_⟩
  · rw [split, lpmEntryDelete_split fresh found, ptr]
  · rw [split]
    exact List.perm_middle
  · have kept : Daemon.ranking (stored.filter fun s => ¬ s.route.Same k) offset v = before ++ after := by
      have commute : (stored.filter fun s => ¬ s.route.Same k).filter
          (fun s => s.route.Covers offset v) =
          (stored.filter fun s => s.route.Covers offset v).filter fun s => ¬ s.route.Same k := by
        rw [List.filter_filter, List.filter_filter]
        exact List.filter_congr fun s _ => Bool.and_comm _ _
      have cut : (Daemon.ranking stored offset v).filter (fun s => ¬ s.route.Same k) =
          before ++ after := by
        rw [whole, List.filter_append, List.filter_cons_of_neg (by simpa using same),
          List.filter_eq_self.mpr (by simpa using freshBefore),
          List.filter_eq_self.mpr (by simpa using freshAfter)]
      rw [Daemon.ranking, commute, rank_filter]
      exact cut
    rw [kept, List.map_append, List.map_append, firstEq, lastEq]
  · rw [belowOf, belowOf, List.filter_filter]
    refine List.filter_congr fun s _ => ?_
    by_cases below : s.route.Below offset v
    · have apart : ¬ s.route.Same k := fun same => (same.covers covers).not_below below
      simp [below, apart]
    · simp [below]

end Slot

end Ufp.Daemon
