/-
# Ufp.Daemon.LpmTree — adding and deleting a route in the whole table

`_lpm_add` and `_lpm_delete` by induction over the levels, and from them
`lpm_add` and `lpm_delete`. An addition ends in one of three ways (`AddEnd`): the
route is added; nothing is changed, since the key was present or an allocation
was refused before the first node was linked; or an allocation was refused after
that, and the nodes linked so far stay behind.

Which way it goes is decided by the state before the call: by the allocations it
needs before the first node (`missingTables`) and in all (`slotCount`).
-/
import Ufp.Daemon.LpmLoops

namespace Ufp.Daemon

open Ufp.Theory Ufp.Theory.Bits Ufp.Theory.Ranked

set_option autoImplicit false

/-! ## What an addition needs -/

/-- The next tables that are missing on the way to the nodes of a prefix. -/
def missingTables (bytes : Bytes) (len : Nat) (parent : Node) (offset : Nat) : Nat :=
  match parent with
  | .leaf _ =>
      1 + if len - offset > 8 then missingTables bytes len (.leaf []) (offset + 8) else 0
  | .inner _ _ table =>
      if len - offset > 8 then missingTables bytes len (table (lpmIndex bytes offset 8)) (offset + 8)
      else 0
  termination_by len - offset

/-- The nodes of a prefix. -/
def slotCount (len : Nat) : Nat := if len ≤ 16 then 2 ^ (16 - len) else 2 ^ (8 * ((len + 7) / 8) - len)

/-- No stored route has the key. -/
def Absent (stored : List Stored) (k : Key) : Prop := ∀ t ∈ stored, ¬ t.route.Same k

theorem not_absent {stored : List Stored} {k : Key} (present : ¬ Absent stored k) :
    ∃ t ∈ stored, t.route.Same k := by
  simpa [Absent] using present

section Ends

variable (stored : List Stored) (s : Stored) (offset v : Nat) (restB restL : List Nat)
  (parent : Node) (h : Heap)

/-- The ways `_lpm_add` ends. -/
inductive AddEnd : Bool × Node × Heap → Prop
  | added {node : Node} {h' : Heap} (absent : Absent stored s.route.toKey)
      (ok : NodeOk (s :: stored) offset v node)
      (heap : HeapOk h' (node.blocks ++ restB) (node.links ++ restL))
      (step : Heap.Step h h')
      (granted : h.pool.grants (missingTables s.route.bytes s.len parent offset + slotCount s.len) = true)
      (quiet : h'.pool.refused = h.pool.refused) : AddEnd (true, node, h')
  | unchanged {h' : Heap} (heap : HeapOk h' (parent.blocks ++ restB) (parent.links ++ restL))
      (pending : Pending h' (parent.blocks ++ restB) (parent.links ++ restL) s.addr)
      (step : Heap.Step h h')
      (cause : Absent stored s.route.toKey →
        h.pool.grants (missingTables s.route.bytes s.len parent offset + 1) = false ∧
          h'.pool.refused = true) :
      AddEnd (false, parent, h')
  | partly {node : Node} {h' : Heap} (absent : Absent stored s.route.toKey)
      (linked : s.addr ∈ node.links) (step : Heap.Step h h')
      (first : h.pool.grants (missingTables s.route.bytes s.len parent offset + 1) = true)
      (short : h.pool.grants (missingTables s.route.bytes s.len parent offset + slotCount s.len) = false)
      (refused : h'.pool.refused = true) : AddEnd (false, node, h')

end Ends

/-! ## One level -/

section Level

variable {head : List LpmEntry} {blk : Nat} {table : Table} {i : Nat}

/-- The blocks of a node with a next table, the table's nodes first. -/
theorem inner_blocks_perm (rest : List Nat) :
    ((Node.inner head blk table).blocks ++ rest).Perm
      (Slots.gather 256 Node.blocks table ++ (head.map LpmEntry.blk ++ blk :: rest)) := by
  have front : (Node.inner head blk table).blocks ++ rest =
      (head.map LpmEntry.blk ++ [blk]) ++ (Slots.gather 256 Node.blocks table ++ rest) := by
    rw [Node.blocks_eq, Node.deepBlocks, Node.head]
    simp
  have back : head.map LpmEntry.blk ++ blk :: rest = (head.map LpmEntry.blk ++ [blk]) ++ rest := by simp
  rw [front, back]
  exact List.perm_append_comm_assoc _ _ _

theorem inner_links_perm (rest : List Nat) :
    ((Node.inner head blk table).links ++ rest).Perm
      (Slots.gather 256 Node.links table ++ (head.map LpmEntry.ptr ++ rest)) := by
  have front : (Node.inner head blk table).links ++ rest =
      head.map LpmEntry.ptr ++ (Slots.gather 256 Node.links table ++ rest) := by
    rw [Node.links_eq, Node.deepLinks, List.append_assoc]
    rfl
  rw [front]
  exact List.perm_append_comm_assoc _ _ _

/-- The account of a table, seen from one of its nodes, before and after that
node is exchanged. -/
theorem gather_child {n : Nat} {f : Node → List Nat} (small : i < n) (rest : List Nat) :
    (Slots.gather n f table ++ rest).Perm (f (table i) ++ (Slots.others n f table i ++ rest)) := by
  have split : (Slots.gather n f table).Perm _ := Slots.gather_perm small
  rw [← List.append_assoc]
  exact split.append_right rest

theorem gather_update_child {n : Nat} {f : Node → List Nat} (small : i < n) (node : Node)
    (rest : List Nat) :
    (Slots.gather n f (Function.update table i node) ++ rest).Perm
      (f node ++ (Slots.others n f table i ++ rest)) := by
  have split : (Slots.gather n f (Function.update table i node)).Perm _ :=
    Slots.gather_update small node
  rw [← List.append_assoc]
  exact split.append_right rest

theorem tableEmpty_of_links {a : Nat} (small : i < 256) (linked : a ∈ (table i).links) :
    tableEmpty table = false := by
  rw [Bool.eq_false_iff]
  intro empty
  simp only [tableEmpty, List.all_eq_true, List.mem_range, tableSize8] at empty
  have none := empty i small
  cases shape : table i with
  | leaf list =>
      rw [shape] at linked none
      cases list with
      | nil => cases linked
      | cons => cases none
  | inner =>
      rw [shape] at none
      cases none

/-- A table with a link in it stays. -/
theorem pruneTable_linked {a : Nat} (small : i < 256) (linked : a ∈ (table i).links) (h : Heap) :
    pruneTable head blk table h = (.inner head blk table, h) := by
  rw [pruneTable, tableEmpty_of_links small linked]
  rfl

/-- The links below a node are links of the node. -/
theorem mem_inner_links {a : Nat} (small : i < 256) (linked : a ∈ (table i).links) :
    a ∈ (Node.inner head blk table).links := by
  rw [Node.links_eq]
  exact List.mem_append_right _ (Slots.mem_gather.mpr ⟨i, small, linked⟩)

end Level

section Ensure

variable {stored : List Stored} {offset v : Nat} {restB restL : List Nat} {parent : Node} {h : Heap}
  {ptr : Nat}

/-- The next table of `parent`, there or just made: its nodes hold what they
should, the parent's account includes it, and dropping it again if it is empty
gives `parent` back. -/
structure Ensured (stored : List Stored) (offset v : Nat) (restB restL : List Nat) (parent : Node)
    (ptr : Nat) (h : Heap) (made blk : Nat) (table : Table) (h' : Heap) : Prop where
  children : ∀ i < 256, NodeOk stored (offset + 8) (v * 256 + i) (table i)
  heap : HeapOk h' ((Node.inner parent.head blk table).blocks ++ restB)
    ((Node.inner parent.head blk table).links ++ restL)
  pending : Pending h' ((Node.inner parent.head blk table).blocks ++ restB)
    ((Node.inner parent.head blk table).links ++ restL) ptr
  step : Heap.Step h h'
  grants : ∀ n, h.pool.grants (made + n) = h'.pool.grants n
  quiet : h'.pool.refused = h.pool.refused
  prune : ∀ h₂, HeapOk h₂ ((Node.inner parent.head blk table).blocks ++ restB)
      ((Node.inner parent.head blk table).links ++ restL) →
    Pending h₂ ((Node.inner parent.head blk table).blocks ++ restB)
      ((Node.inner parent.head blk table).links ++ restL) ptr →
    ∃ h₃, pruneTable parent.head blk table h₂ = (parent, h₃) ∧ Heap.Step h₂ h₃ ∧
      h₃.pool.refused = h₂.pool.refused ∧ HeapOk h₃ (parent.blocks ++ restB) (parent.links ++ restL) ∧
      Pending h₃ (parent.blocks ++ restB) (parent.links ++ restL) ptr

theorem ensureTable_inner {head : List LpmEntry} {blk : Nat} {table : Table} (aligned : offset % 8 = 0)
    (ok : NodeOk stored offset v (.inner head blk table))
    (heap : HeapOk h ((Node.inner head blk table).blocks ++ restB)
      ((Node.inner head blk table).links ++ restL))
    (pending : Pending h ((Node.inner head blk table).blocks ++ restB)
      ((Node.inner head blk table).links ++ restL) ptr) :
    Ensured stored offset v restB restL (.inner head blk table) ptr h 0 blk table h where
  children := ok.2.2
  heap := heap
  pending := pending
  step := .refl h
  grants := fun n => by rw [Nat.zero_add]
  quiet := rfl
  prune := by
    intro h₂ heap₂ pending₂
    refine ⟨h₂, ?_, .refl h₂, rfl, heap₂, pending₂⟩
    rw [pruneTable, ok.not_empty aligned]
    rfl

theorem ensureTable_leaf {head : List LpmEntry} {blk : Nat} {h' : Heap} (low : 16 ≤ offset)
    (ok : NodeOk stored offset v (.leaf head))
    (heap : HeapOk h ((Node.leaf head).blocks ++ restB) ((Node.leaf head).links ++ restL))
    (pending : Pending h ((Node.leaf head).blocks ++ restB) ((Node.leaf head).links ++ restL) ptr)
    (granted : h.alloc = (some blk, h')) :
    Ensured stored offset v restB restL (.leaf head) ptr h 1 blk (fun _ => .leaf []) h' := by
  obtain ⟨pool, found, rfl⟩ := Heap.alloc_some granted
  have noBlocks : Slots.gather 256 Node.blocks (fun _ => .leaf []) = [] :=
    Slots.gather_eq_nil fun _ _ => rfl
  have noLinks : Slots.gather 256 Node.links (fun _ => .leaf []) = [] :=
    Slots.gather_eq_nil fun _ _ => rfl
  have blocks : ((Node.inner head blk fun _ => .leaf []).blocks ++ restB).Perm
      (blk :: ((Node.leaf head).blocks ++ restB)) := by
    have perm : ((Node.inner head blk fun _ => .leaf []).blocks ++ restB).Perm _ :=
      inner_blocks_perm restB
    rw [noBlocks] at perm
    exact perm.trans List.perm_middle
  have links : ((Node.inner head blk fun _ => .leaf []).links ++ restL).Perm
      ((Node.leaf head).links ++ restL) := by
    have perm : ((Node.inner head blk fun _ => .leaf []).links ++ restL).Perm _ :=
      inner_links_perm restL
    rw [noLinks] at perm
    exact perm
  obtain ⟨taken, -, -, keep⟩ := heap.alloc_some granted
  have empty : tableEmpty (fun _ => .leaf []) = true := by simp [tableEmpty, Node.isEmpty]
  refine ⟨fun i small => ?_, taken.perm blocks.symm links.symm,
    (keep pending).perm blocks.symm links.symm, Heap.Step.alloc_some granted, fun n => ?_,
    (Pool.alloc_some found).2.2.1, fun h₂ heap₂ pending₂ => ?_⟩
  · have none : belowOf [] offset v = belowOf stored offset v := ok.2.symm
    obtain ⟨ranked, below⟩ := child_congr low small none
    exact (nodeOk_nil _ _).congr (by omega) ranked below
  · rw [Nat.add_comm]
    exact Pool.grants_some found n
  · obtain ⟨freed, step, give⟩ := (heap₂.perm blocks links).free
    refine ⟨h₂.free blk, ?_, step, Pool.free_refused _ _, freed, give (pending₂.perm blocks links)⟩
    rw [pruneTable, empty]
    rfl

end Ensure

/-! ## Adding -/

section Add

variable {stored : List Stored} {s : Stored} {offset v : Nat} {restB restL : List Nat}
  {parent : Node} {h : Heap} {made blk : Nat} {table : Table} {h₁ : Heap}

/-- The head of a node on the way to a longer prefix does not change. -/
theorem ranking_cons_below (below : s.route.Below offset v) :
    ranking (s :: stored) offset v = ranking stored offset v := by
  have uncovered : ¬ s.route.Covers offset v := fun covers => covers.not_below below
  simp [ranking, uncovered]

theorem belowOf_cons_below (below : s.route.Below offset v) :
    belowOf (s :: stored) offset v ≠ [] := by
  simp [belowOf, below]

/-- A level that is not the last: what happened to the child decides. -/
theorem Ensured.descend (low : 16 ≤ offset) (aligned : offset % 8 = 0)
    (ok : NodeOk stored offset v parent) (below : s.route.Below offset v)
    (deep : s.len - offset > 8)
    (ensured : Ensured stored offset v restB restL parent s.addr h made blk table h₁)
    (missing : missingTables s.route.bytes s.len parent offset = made +
      missingTables s.route.bytes s.len (table (lpmIndex s.route.bytes offset 8)) (offset + 8))
    {result : Bool × Node × Heap} :
    AddEnd stored s (offset + 8) (v * 256 + lpmIndex s.route.bytes offset 8)
      (Slots.others 256 Node.blocks table (lpmIndex s.route.bytes offset 8) ++
        (parent.head.map LpmEntry.blk ++ blk :: restB))
      (Slots.others 256 Node.links table (lpmIndex s.route.bytes offset 8) ++
        (parent.head.map LpmEntry.ptr ++ restL))
      (table (lpmIndex s.route.bytes offset 8)) h₁ result →
    AddEnd stored s offset v restB restL parent h
      (match result with
        | (true, node, h) => (true, .inner parent.head blk
            (Function.update table (lpmIndex s.route.bytes offset 8) node), h)
        | (false, node, h) => (false, pruneTable parent.head blk
            (Function.update table (lpmIndex s.route.bytes offset 8) node) h)) := by
  obtain ⟨small, next⟩ := lpmIndex_child s.route.bytes aligned
  rw [below.2] at next
  generalize lpmIndex s.route.bytes offset 8 = i at *
  intro child
  have blocks : ∀ node, ((Node.inner parent.head blk (Function.update table i node)).blocks ++
      restB).Perm (node.blocks ++ (Slots.others 256 Node.blocks table i ++
        (parent.head.map LpmEntry.blk ++ blk :: restB))) :=
    fun node => (inner_blocks_perm restB).trans (gather_update_child small node _)
  have links : ∀ node, ((Node.inner parent.head blk (Function.update table i node)).links ++
      restL).Perm (node.links ++ (Slots.others 256 Node.links table i ++
        (parent.head.map LpmEntry.ptr ++ restL))) :=
    fun node => (inner_links_perm restL).trans (gather_update_child small node _)
  have grants : ∀ n, h.pool.grants (missingTables s.route.bytes s.len parent offset + n) =
      h₁.pool.grants (missingTables s.route.bytes s.len (table i) (offset + 8) + n) := by
    intro n
    rw [missing, Nat.add_assoc]
    exact ensured.grants _
  cases child with
  | added absent childOk heap step granted quiet =>
      have child : s.route.Below (offset + 8) (v * 256 + i) := by
        refine ⟨?_, next⟩
        simp only [Stored.len] at deep
        omega
      refine .added absent ⟨?_, belowOf_cons_below below, ?_⟩
        (heap.perm (blocks _).symm (links _).symm) (ensured.step.trans step) ?_
        (quiet.trans ensured.quiet)
      · rw [ranking_cons_below below]
        exact ok.head
      · exact children_cons (by omega) ensured.children child childOk
      · rw [grants]
        exact granted
  | unchanged heap pending step cause =>
      have keep : Function.update table i (table i) = table := Function.update_eq_self i table
      have blocks' := blocks (table i)
      have links' := links (table i)
      rw [keep] at blocks' links'
      obtain ⟨h₃, pruned, back, same, heap₃, pending₃⟩ := ensured.prune _
        (heap.perm blocks'.symm links'.symm) (pending.perm blocks'.symm links'.symm)
      simp only [keep, pruned]
      refine .unchanged heap₃ pending₃ ((ensured.step.trans step).trans back) fun absent => ?_
      rw [grants, same]
      exact cause absent
  | partly absent linked step first short refused =>
      rename_i node h'
      have here : s.addr ∈ (Function.update table i node i).links := by
        rw [Function.update_self]
        exact linked
      simp only [pruneTable_linked small here]
      refine .partly absent (mem_inner_links small here) (ensured.step.trans step) ?_ ?_ refused
      · rw [grants]
        exact first
      · rw [grants]
        exact short

/-- The nodes of the last level. -/
theorem slotCount_last (long : offset < s.len) (aligned : offset % 8 = 0) (low : 16 ≤ offset)
    (last : ¬ s.len - offset > 8) : 1 <<< (8 - (s.len - offset)) = slotCount s.len := by
  have exponent : 8 - (s.len - offset) = 8 * ((s.len + 7) / 8) - s.len := by omega
  have long16 : ¬ s.len ≤ 16 := by omega
  rw [Nat.one_shiftLeft, slotCount, if_neg long16, exponent]

/-- The last level: the loop over the nodes of the prefix. -/
theorem Ensured.fill (low : 16 ≤ offset) (aligned : offset % 8 = 0)
    (ok : NodeOk stored offset v parent) (below : s.route.Below offset v)
    (last : ¬ s.len - offset > 8)
    (ensured : Ensured stored offset v restB restL parent s.addr h made blk table h₁)
    (contents : Contents h₁ (s :: stored))
    (missing : missingTables s.route.bytes s.len parent offset = made) :
    AddEnd stored s offset v restB restL parent h
      (match fillLoop s.route.id s.len s.addr
          (maskIndex (lpmIndex s.route.bytes offset 8) (1 <<< (8 - (s.len - offset))))
          (1 <<< (8 - (s.len - offset))) 0 table h₁ with
        | (true, _, table, h) => (true, .inner parent.head blk table, h)
        | (false, _, table, h) =>
            (false, pruneTable parent.head blk table h)) := by
  have site := site_child s.route.toKey low aligned below last
  have count := slotCount_last below.1 aligned low last
  simp only [← show s.len = s.route.len from rfl] at site
  rw [count] at site ⊢
  generalize maskIndex (lpmIndex s.route.bytes offset 8) (slotCount s.len) = index at site ⊢
  have heap := ensured.heap.perm (inner_blocks_perm restB) (inner_links_perm restL)
  have pending := ensured.pending.perm (inner_blocks_perm restB) (inner_links_perm restL)
  have grants : ∀ n, h.pool.grants (missingTables s.route.bytes s.len parent offset + n) =
      h₁.pool.grants n := by
    intro n
    rw [missing]
    exact ensured.grants n
  by_cases absent : Absent stored s.route.toKey
  · have start : Filling stored s (offset + 8) (v * 256) 256 index table
        (parent.head.map LpmEntry.blk ++ blk :: restB) (parent.head.map LpmEntry.ptr ++ restL)
        0 0 table h₁ :=
      ⟨fun j lower upper => by omega, fun _ _ => rfl, heap, contents⟩
    obtain ⟨filled, table', h', step, -, filling, pending', outcome⟩ :=
      fillLoop_absent site ensured.children absent (Nat.zero_add _) start pending
    have blocks : ((Node.inner parent.head blk table').blocks ++ restB).Perm _ :=
      inner_blocks_perm restB
    have links : ((Node.inner parent.head blk table').links ++ restL).Perm _ := inner_links_perm restL
    rcases outcome with ⟨ran, all, enough, quiet⟩ | ⟨ran, short, before, after, refused⟩
    · simp only [ran]
      subst all
      refine .added absent ⟨?_, belowOf_cons_below below, filling.children site ensured.children⟩
        (filling.heap.perm blocks.symm links.symm) (ensured.step.trans step)
        ((grants _).trans enough) (quiet.trans ensured.quiet)
      rw [ranking_cons_below below]
      exact ok.head
    · simp only [ran]
      rcases Nat.eq_zero_or_pos filled with none | some
      · subst none
        have restored : table' = table := by
          funext j
          exact filling.same j (by omega)
        subst restored
        obtain ⟨h₃, pruned, back, same, heap₃, pending₃⟩ := ensured.prune _
          (filling.heap.perm blocks.symm links.symm) (pending'.perm blocks.symm links.symm)
        rw [pruned]
        refine .unchanged heap₃ pending₃ ((ensured.step.trans step).trans back) fun _ => ?_
        exact ⟨(grants _).trans after, same.trans refused⟩
      · have bound := site.fits
        obtain ⟨⟨pre, post, entry, -, node, -⟩, -⟩ :=
          filling.linked index (by omega) (by omega)
        have small : index < 256 := by omega
        have here : s.addr ∈ (table' index).links := by
          rw [node, Node.links_eq, Node.setHead_head]
          simp
        rw [pruneTable_linked small here]
        refine .partly absent (mem_inner_links small here) (ensured.step.trans step) ?_ ?_ refused
        · rw [grants]
          exact Pool.grants_mono (by omega) before
        · rw [grants]
          exact Pool.grants_false_mono (by omega) after
  · obtain ⟨t, member, same⟩ := not_absent absent
    obtain ⟨h', ran, step, heap', pending'⟩ := fillLoop_present site ensured.children member same heap
      pending fun t member => contents t (List.mem_cons_of_mem _ member)
    obtain ⟨h₃, pruned, back, -, heap₃, pending₃⟩ := ensured.prune _
      (heap'.perm (inner_blocks_perm restB).symm (inner_links_perm restL).symm)
      (pending'.perm (inner_blocks_perm restB).symm (inner_links_perm restL).symm)
    simp only [ran, pruned]
    exact .unchanged heap₃ pending₃ ((ensured.step.trans step).trans back)
      fun gone => absurd gone absent

/-- **`_lpm_add`** adds the route, changes nothing, or leaves a partial fill. -/
theorem lpmAddRec_spec (low : 16 ≤ offset) (aligned : offset % 8 = 0)
    (ok : NodeOk stored offset v parent) (below : s.route.Below offset v)
    (heap : HeapOk h (parent.blocks ++ restB) (parent.links ++ restL))
    (pending : Pending h (parent.blocks ++ restB) (parent.links ++ restL) s.addr)
    (contents : Contents h (s :: stored)) :
    AddEnd stored s offset v restB restL parent h
      (lpmAddRec s.route.bytes s.len s.route.id s.addr parent offset h) := by
  induction levels : s.len - offset using Nat.strong_induction_on
    generalizing offset v parent h restB restL with
  | _ levels ih =>
      -- one level, once its table is there
      have level : ∀ {made blk table h₁}, ensureTable parent h = (some (blk, table), h₁) →
          Ensured stored offset v restB restL parent s.addr h made blk table h₁ →
          (missingTables s.route.bytes s.len parent offset = made + if s.len - offset > 8 then
            missingTables s.route.bytes s.len (table (lpmIndex s.route.bytes offset 8)) (offset + 8)
            else 0) →
          AddEnd stored s offset v restB restL parent h
            (lpmAddRec s.route.bytes s.len s.route.id s.addr parent offset h) := by
        intro made blk table h₁ found ensured missing
        rw [lpmAddRec, found]
        by_cases deep : s.len - offset > 8
        · rw [if_pos deep] at missing
          simp only [if_pos deep]
          obtain ⟨small, next⟩ := lpmIndex_child s.route.bytes aligned
          rw [below.2] at next
          have child : s.route.Below (offset + 8) (v * 256 + lpmIndex s.route.bytes offset 8) := by
            refine ⟨?_, next⟩
            simp only [Stored.len] at deep
            omega
          have toChildB : ((Node.inner parent.head blk table).blocks ++ restB).Perm _ :=
            (inner_blocks_perm restB).trans (gather_child small _)
          have toChildL : ((Node.inner parent.head blk table).links ++ restL).Perm _ :=
            (inner_links_perm restL).trans (gather_child small _)
          exact ensured.descend low aligned ok below deep missing
            (ih _ (by omega) (by omega) (by omega) (ensured.children _ small) child
              (ensured.heap.perm toChildB toChildL) (ensured.pending.perm toChildB toChildL)
              (contents.step ensured.step) rfl)
        · rw [if_neg deep, Nat.add_zero] at missing
          simp only [if_neg deep]
          exact ensured.fill low aligned ok below deep (contents.step ensured.step) missing
      cases parent with
      | inner head blk table =>
          refine level rfl (ensureTable_inner aligned ok heap pending) ?_
          rw [missingTables, Nat.zero_add]
      | leaf head =>
          rcases answer : h.alloc with ⟨found, h₁⟩
          cases found with
          | none =>
              obtain ⟨pool, denied, rfl⟩ := Heap.alloc_none answer
              obtain ⟨heap', keep⟩ := heap.alloc_none answer
              have failed : lpmAddRec s.route.bytes s.len s.route.id s.addr (.leaf head) offset h =
                  (false, .leaf head, { h with pool }) := by
                rw [lpmAddRec, ensureTable, answer]
              rw [failed]
              refine .unchanged heap' (keep pending) (Heap.Step.alloc_none answer) fun _ => ?_
              exact ⟨Pool.grants_none denied _, (Pool.alloc_none denied).2.1⟩
          | some blk =>
              refine level ?_ (ensureTable_leaf low ok heap pending answer) ?_
              · rw [ensureTable, answer]
              · rw [missingTables]

end Add

/-! ## The whole table -/

/-- Every node of the first table holds what it should. -/
def TableOk (stored : List Stored) (table : Table) : Prop :=
  ∀ v < tableSize16, NodeOk stored 16 v (table v)

/-- The first table as the loops see it, whose nodes stand for `0 + v`. -/
theorem tableOk_iff {stored : List Stored} {table : Table} :
    TableOk stored table ↔ ∀ v < tableSize16, NodeOk stored 16 (0 + v) (table v) := by
  simp only [TableOk, Nat.zero_add]

/-- The blocks of a whole table. -/
def tableBlocks (table : Table) : List Nat := Slots.gather tableSize16 Node.blocks table

/-- The links of a whole table. -/
def tableLinks (table : Table) : List Nat := Slots.gather tableSize16 Node.links table

/-- The next tables an addition has to make. -/
def tablesNeeded (table : Table) (bytes : Bytes) (len : Nat) : Nat :=
  if len > 16 then missingTables bytes len (table (lpmIndex bytes 0 16)) 16 else 0

section Table

variable (stored : List Stored) (s : Stored) (restB restL : List Nat) (table : Table) (h : Heap)

/-- The ways `lpm_add` ends. A partial fill of the first table is undone; the
route is then freed with its last link. -/
inductive TableAddEnd : Bool × Table × Heap → Prop
  | added {table' : Table} {h' : Heap} (absent : Absent stored s.route.toKey)
      (ok : TableOk (s :: stored) table')
      (heap : HeapOk h' (tableBlocks table' ++ restB) (tableLinks table' ++ restL))
      (step : Heap.Step h h')
      (granted : h.pool.grants (tablesNeeded table s.route.bytes s.len + slotCount s.len) = true)
      (quiet : h'.pool.refused = h.pool.refused) : TableAddEnd (true, table', h')
  | unchanged {h' : Heap} (heap : HeapOk h' (tableBlocks table ++ restB) (tableLinks table ++ restL))
      (pending : Pending h' (tableBlocks table ++ restB) (tableLinks table ++ restL) s.addr)
      (step : Heap.Step h h')
      (cause : Absent stored s.route.toKey →
        h.pool.grants (tablesNeeded table s.route.bytes s.len + 1) = false ∧
          h'.pool.refused = true) :
      TableAddEnd (false, table, h')
  | undone {h' : Heap} (absent : Absent stored s.route.toKey)
      (heap : HeapOk h' (tableBlocks table ++ restB) (tableLinks table ++ restL))
      (freed : h'.pool.live s.addr = false) (step : Heap.Step h h') (short16 : s.len ≤ 16)
      (first : h.pool.grants (tablesNeeded table s.route.bytes s.len + 1) = true)
      (short : h.pool.grants (tablesNeeded table s.route.bytes s.len + slotCount s.len) = false)
      (refused : h'.pool.refused = true) : TableAddEnd (false, table, h')
  | partly {table' : Table} {h' : Heap} (absent : Absent stored s.route.toKey)
      (linked : s.addr ∈ tableLinks table') (step : Heap.Step h h') (long16 : 16 < s.len)
      (first : h.pool.grants (tablesNeeded table s.route.bytes s.len + 1) = true)
      (short : h.pool.grants (tablesNeeded table s.route.bytes s.len + slotCount s.len) = false)
      (refused : h'.pool.refused = true) : TableAddEnd (false, table', h')

end Table

section TableAdd

variable {stored : List Stored} {s : Stored} {restB restL : List Nat} {table : Table} {h : Heap}
  (ok : TableOk stored table)
  (heap : HeapOk h (tableBlocks table ++ restB) (tableLinks table ++ restL))
  (pending : Pending h (tableBlocks table ++ restB) (tableLinks table ++ restL) s.addr)
  (contents : Contents h (s :: stored))

include ok heap pending contents

/-- A prefix longer than the first table's level. -/
theorem lpmAdd_long (long : 16 < s.len) :
    TableAddEnd stored s restB restL table h
      (lpmAdd table s.route.bytes s.len s.route.id s.addr h) := by
  have root := lpmIndex_root s.route.bytes
  have small : lpmIndex s.route.bytes 0 16 < tableSize16 := by
    rw [root]
    exact top_lt s.route.bytes 16
  have needed : tablesNeeded table s.route.bytes s.len =
      missingTables s.route.bytes s.len (table (lpmIndex s.route.bytes 0 16)) 16 := if_pos long
  have below : s.route.Below 16 (lpmIndex s.route.bytes 0 16) := ⟨long, root.symm⟩
  have childHeap := heap.perm (gather_child small restB) (gather_child small restL)
  have childPending := pending.perm (gather_child small restB) (gather_child small restL)
  have spec := lpmAddRec_spec (Nat.le_refl 16) rfl (ok _ small) below childHeap childPending contents
  have ran : lpmAdd table s.route.bytes s.len s.route.id s.addr h =
      let result := lpmAddRec s.route.bytes s.len s.route.id s.addr
        (table (lpmIndex s.route.bytes 0 16)) 16 h
      (result.1, Function.update table (lpmIndex s.route.bytes 0 16) result.2.1, result.2.2) := by
    rw [lpmAdd, if_pos long]
  rw [ran]
  generalize lpmIndex s.route.bytes 0 16 = i at *
  generalize lpmAddRec s.route.bytes s.len s.route.id s.addr (table i) 16 h = result at *
  cases spec with
  | added absent nodeOk heap' step granted quiet =>
      refine .added absent ?_ (heap'.perm (gather_update_child small _ _).symm
        (gather_update_child small _ _).symm) step (by rw [needed]; exact granted) quiet
      rw [← Nat.zero_add i] at below nodeOk
      exact tableOk_iff.mpr (children_cons (Nat.le_refl 16) (tableOk_iff.mp ok) below nodeOk)
  | unchanged heap' pending' step cause =>
      simp only [Function.update_eq_self]
      refine .unchanged (heap'.perm (gather_child small _).symm (gather_child small _).symm)
        (pending'.perm (gather_child small _).symm (gather_child small _).symm) step fun absent => ?_
      rw [needed]
      exact cause absent
  | partly absent linked step first short refused =>
      refine .partly absent (Slots.mem_gather.mpr ⟨i, small, ?_⟩) step long ?_ ?_ refused
      · rw [Function.update_self]
        exact linked
      · rw [needed]
        exact first
      · rw [needed]
        exact short

/-- A prefix of the first table's level. -/
theorem lpmAdd_short (short16 : s.len ≤ 16) (fresh : s.addr ∉ tableLinks table ++ restL) :
    TableAddEnd stored s restB restL table h
      (lpmAdd table s.route.bytes s.len s.route.id s.addr h) := by
  have site := site_root s.route.toKey short16
  have not16 : ¬ s.len > 16 := Nat.not_lt.mpr short16
  have count : 1 <<< (16 - s.len) = slotCount s.len := by
    rw [Nat.one_shiftLeft, slotCount, if_pos short16]
  have needed : tablesNeeded table s.route.bytes s.len = 0 := if_neg not16
  simp only [← show s.len = s.route.len from rfl] at site
  simp only [lpmAdd, if_neg not16]
  rw [count] at site ⊢
  generalize maskIndex (lpmIndex s.route.bytes 0 16) (slotCount s.len) = index at site ⊢
  have children := tableOk_iff.mp ok
  by_cases absent : Absent stored s.route.toKey
  · have start : Filling stored s 16 0 tableSize16 index table restB restL 0 0 table h :=
      ⟨fun j lower upper => by omega, fun _ _ => rfl, heap, contents⟩
    obtain ⟨filled, table', h', step, -, filling, pending', outcome⟩ :=
      fillLoop_absent site children absent (Nat.zero_add _) start pending
    rcases outcome with ⟨done, all, enough, quiet⟩ | ⟨failed, unfinished, before, after, refused⟩
    · simp only [done]
      subst all
      refine .added absent (tableOk_iff.mpr (filling.children site children)) filling.heap step ?_ quiet
      rw [needed, Nat.zero_add]
      exact enough
    · have bound := site.fits
      obtain ⟨h'', undone, back, restored, quiet, dead⟩ :=
        rollbackLoop_spec site fresh (Nat.zero_le filled) (by omega) filling
      rw [Nat.sub_zero] at undone before after
      simp only [failed, undone]
      rcases Nat.eq_zero_or_pos filled with none | some
      · subst none
        -- nothing was linked: the loop to undo it does not run
        have same : (table', h') = (table, h'') := undone
        obtain ⟨rfl, rfl⟩ := Prod.mk.injEq _ _ _ _ ▸ same
        refine .unchanged restored.heap pending' step fun _ => ?_
        rw [needed, Nat.zero_add]
        exact ⟨after, refused⟩
      · refine .undone absent restored.heap (dead (.inl some)) (step.trans back) short16 ?_ ?_
          (quiet.trans refused)
        · rw [needed, Nat.zero_add]
          exact Pool.grants_mono some before
        · rw [needed, Nat.zero_add]
          exact Pool.grants_false_mono (by omega) after
  · obtain ⟨t, member, same⟩ := not_absent absent
    obtain ⟨h', refused, step, heap', pending'⟩ := fillLoop_present site children member same heap
      pending fun t member => contents t (List.mem_cons_of_mem _ member)
    simp only [refused, rollbackLoop]
    exact .unchanged heap' pending' step fun gone => absurd gone absent

/-- **`lpm_add`** adds the route, changes nothing, or fails after the first node. -/
theorem lpmAdd_spec (fresh : s.addr ∉ tableLinks table ++ restL) :
    TableAddEnd stored s restB restL table h
      (lpmAdd table s.route.bytes s.len s.route.id s.addr h) := by
  by_cases long : 16 < s.len
  · exact lpmAdd_long ok heap pending contents long
  · exact lpmAdd_short ok heap pending contents (Nat.not_lt.mp long) fresh

end TableAdd

/-! ## Deleting -/

section Prune

variable {stored : List Stored} {offset v : Nat} {restB restL : List Nat} {head : List LpmEntry}
  {blk : Nat} {table : Table} {h : Heap}

theorem gather_empty {f : Node → List Nat} (none : f (.leaf []) = []) (empty : tableEmpty table = true) :
    Slots.gather 256 f table = [] := by
  refine Slots.gather_eq_nil fun i small => ?_
  simp only [tableEmpty, List.all_eq_true, List.mem_range, tableSize8] at empty
  have bare := empty i small
  cases shape : table i with
  | inner =>
      rw [shape] at bare
      cases bare
  | leaf list =>
      rw [shape] at bare
      cases list with
      | cons => cases bare
      | nil => exact none

/-- Dropping a next table that has become empty, or keeping it. -/
theorem pruneTable_spec (low : 16 ≤ offset) (aligned : offset % 8 = 0)
    (entries : head.map LpmEntry.ptr = (ranking stored offset v).map Stored.addr)
    (children : ∀ i < 256, NodeOk stored (offset + 8) (v * 256 + i) (table i))
    (heap : HeapOk h ((Node.inner head blk table).blocks ++ restB)
      ((Node.inner head blk table).links ++ restL)) :
    ∃ node h', pruneTable head blk table h = (node, h') ∧ Heap.Step h h' ∧
      h'.pool.refused = h.pool.refused ∧ NodeOk stored offset v node ∧
      HeapOk h' (node.blocks ++ restB) (node.links ++ restL) := by
  have blocks : ((Node.inner head blk table).blocks ++ restB).Perm _ := inner_blocks_perm restB
  have links : ((Node.inner head blk table).links ++ restL).Perm _ := inner_links_perm restL
  cases empty : tableEmpty table with
  | true =>
      rw [gather_empty rfl empty, List.nil_append] at blocks links
      obtain ⟨freed, step, -⟩ := (heap.perm (blocks.trans List.perm_middle) links).free
      refine ⟨.leaf head, h.free blk, by simp [pruneTable, empty], step, Pool.free_refused _ _,
        ⟨entries, ?_⟩, freed⟩
      by_contra some
      have ok : NodeOk stored offset v (.inner head blk table) := ⟨entries, some, children⟩
      have full := ok.not_empty aligned
      rw [empty] at full
      cases full
  | false =>
      refine ⟨.inner head blk table, h, by simp [pruneTable, empty], .refl h, rfl,
        ⟨entries, fun none => ?_, children⟩, heap⟩
      rw [tableEmpty_of_ok low children none] at empty
      cases empty

end Prune

section Delete

variable {stored : List Stored} {k : Key} {offset v : Nat} {restB restL : List Nat} {parent : Node}
  {h : Heap}

/-- A node on the way to a key holds no route of that key itself. -/
theorem ranking_filter_below (below : k.Below offset v) :
    ranking (stored.filter fun s => ¬ s.route.Same k) offset v = ranking stored offset v := by
  rw [ranking, ranking, List.filter_filter]
  refine congrArg _ (List.filter_congr fun s _ => ?_)
  by_cases covers : s.route.Covers offset v
  · have apart : ¬ s.route.Same k := fun same => covers.not_below (same.below below)
    simp [covers, apart]
  · simp [covers]

/-- `_lpm_delete` of an absent key changes nothing. -/
theorem lpmDeleteRec_absent (low : 16 ≤ offset) (aligned : offset % 8 = 0)
    (ok : NodeOk stored offset v parent) (below : k.Below offset v) (contents : Contents h stored)
    (absent : Absent stored k) :
    lpmDeleteRec k.bytes k.len k.id parent offset h = (false, parent, h) := by
  induction levels : k.len - offset using Nat.strong_induction_on generalizing offset v parent with
  | _ levels ih =>
      cases parent with
      | leaf head => rw [lpmDeleteRec]
      | inner head blk table =>
          obtain ⟨small, next⟩ := lpmIndex_child k.bytes aligned
          rw [below.2] at next
          rw [lpmDeleteRec]
          by_cases deep : k.len - offset > 8
          · have child : k.Below (offset + 8) (v * 256 + lpmIndex k.bytes offset 8) :=
              ⟨by omega, next⟩
            simp only [if_pos deep]
            rw [ih _ (by omega) (by omega) (by omega) (ok.2.2 _ small) child rfl]
            simp only [Function.update_eq_self]
          · simp only [if_neg deep]
            rw [deleteLoop_absent (site_child k low aligned below deep) ok.2.2 contents absent]

/-- **`_lpm_delete`** of a key that is present removes its route. -/
theorem lpmDeleteRec_present (low : 16 ≤ offset) (aligned : offset % 8 = 0)
    (ok : NodeOk stored offset v parent) (below : k.Below offset v) (distinct : Distinct stored)
    {t : Stored} (member : t ∈ stored) (same : t.route.Same k)
    (heap : HeapOk h (parent.blocks ++ restB) (parent.links ++ restL))
    (contents : Contents h stored) :
    ∃ node h', lpmDeleteRec k.bytes k.len k.id parent offset h = (true, node, h') ∧
      Heap.Step h h' ∧ h'.pool.refused = h.pool.refused ∧
      NodeOk (stored.filter fun s => ¬ s.route.Same k) offset v node ∧
      HeapOk h' (node.blocks ++ restB) (node.links ++ restL) := by
  induction levels : k.len - offset using Nat.strong_induction_on
    generalizing offset v parent restB restL with
  | _ levels ih =>
      cases parent with
      | leaf head =>
          have held : t ∈ belowOf stored offset v :=
            List.mem_filter.mpr ⟨member, by simpa using same.below below⟩
          rw [ok.2] at held
          cases held
      | inner head blk table =>
          obtain ⟨small, next⟩ := lpmIndex_child k.bytes aligned
          rw [below.2] at next
          have entries : head.map LpmEntry.ptr =
              (ranking (stored.filter fun s => ¬ s.route.Same k) offset v).map Stored.addr := by
            rw [ranking_filter_below below]
            exact ok.1
          have blocks : ((Node.inner head blk table).blocks ++ restB).Perm _ :=
            inner_blocks_perm restB
          have links : ((Node.inner head blk table).links ++ restL).Perm _ := inner_links_perm restL
          rw [lpmDeleteRec]
          by_cases deep : k.len - offset > 8
          · have child : k.Below (offset + 8) (v * 256 + lpmIndex k.bytes offset 8) :=
              ⟨by omega, next⟩
            simp only [if_pos deep]
            generalize lpmIndex k.bytes offset 8 = i at *
            have childHeap := heap.perm (blocks.trans (gather_child small _))
              (links.trans (gather_child small _))
            obtain ⟨node, h₁, ran, step, quiet, nodeOk, heap₁⟩ :=
              ih _ (by omega) (by omega) (by omega) (ok.2.2 i small) child childHeap rfl
            have whole : HeapOk h₁
                ((Node.inner head blk (Function.update table i node)).blocks ++ restB)
                ((Node.inner head blk (Function.update table i node)).links ++ restL) := heap₁.perm
              ((inner_blocks_perm restB).trans (gather_update_child small node _)).symm
              ((inner_links_perm restL).trans (gather_update_child small node _)).symm
            obtain ⟨node', h', pruned, step', quiet', nodeOk', heap'⟩ :=
              pruneTable_spec low aligned entries (children_filter (by omega) ok.2.2 child nodeOk) whole
            refine ⟨node', h', ?_, step.trans step', quiet'.trans quiet, nodeOk', heap'⟩
            rw [ran]
            simp only [pruned]
          · simp only [if_neg deep]
            obtain ⟨table', h₁, ran, step, quiet, heap₁, children⟩ :=
              deleteLoop_present (site_child k low aligned below deep) ok.2.2 distinct member same
                (Nat.zero_add _) (fun j lower upper => by omega) (fun _ _ => rfl)
                (heap.perm blocks links) contents
            have whole : HeapOk h₁ ((Node.inner head blk table').blocks ++ restB)
                ((Node.inner head blk table').links ++ restL) :=
              heap₁.perm (inner_blocks_perm restB).symm (inner_links_perm restL).symm
            obtain ⟨node', h', pruned, step', quiet', nodeOk', heap'⟩ :=
              pruneTable_spec low aligned entries children whole
            refine ⟨node', h', ?_, step.trans step', quiet'.trans quiet, nodeOk', heap'⟩
            rw [ran]
            simp only [pruned]

variable {table : Table}

theorem lpmDelete_absent (ok : TableOk stored table) (contents : Contents h stored)
    (absent : Absent stored k) : lpmDelete table k.bytes k.len k.id h = (false, table, h) := by
  have root := lpmIndex_root k.bytes
  by_cases long : k.len > 16
  · have small : lpmIndex k.bytes 0 16 < tableSize16 := root ▸ top_lt k.bytes 16
    simp only [lpmDelete, if_pos long]
    rw [lpmDeleteRec_absent (Nat.le_refl 16) rfl (ok _ small) ⟨long, root.symm⟩ contents absent]
    simp only [Function.update_eq_self]
  · simp only [lpmDelete, if_neg long]
    exact deleteLoop_absent (site_root k (by omega)) (tableOk_iff.mp ok) contents absent

/-- **`lpm_delete`** of a key that is present removes its route. -/
theorem lpmDelete_present (ok : TableOk stored table) (distinct : Distinct stored) {t : Stored}
    (member : t ∈ stored) (same : t.route.Same k)
    (heap : HeapOk h (tableBlocks table ++ restB) (tableLinks table ++ restL))
    (contents : Contents h stored) :
    ∃ table' h', lpmDelete table k.bytes k.len k.id h = (true, table', h') ∧ Heap.Step h h' ∧
      h'.pool.refused = h.pool.refused ∧
      TableOk (stored.filter fun s => ¬ s.route.Same k) table' ∧
      HeapOk h' (tableBlocks table' ++ restB) (tableLinks table' ++ restL) := by
  have root := lpmIndex_root k.bytes
  by_cases long : k.len > 16
  · have small : lpmIndex k.bytes 0 16 < tableSize16 := root ▸ top_lt k.bytes 16
    have below : k.Below 16 (lpmIndex k.bytes 0 16) := ⟨long, root.symm⟩
    have childHeap := heap.perm (gather_child small restB) (gather_child small restL)
    obtain ⟨node, h', ran, step, quiet, nodeOk, heap'⟩ :=
      lpmDeleteRec_present (Nat.le_refl 16) rfl (ok _ small) below distinct member same childHeap contents
    simp only [lpmDelete, if_pos long, ran]
    generalize lpmIndex k.bytes 0 16 = i at *
    refine ⟨_, h', rfl, step, quiet, ?_, heap'.perm
      (gather_update_child small node _).symm (gather_update_child small node _).symm⟩
    rw [← Nat.zero_add i] at below nodeOk
    exact tableOk_iff.mpr (children_filter (Nat.le_refl 16) (tableOk_iff.mp ok) below nodeOk)
  · obtain ⟨table', h', ran, step, quiet, heap', all⟩ :=
      deleteLoop_present (site_root k (by omega)) (tableOk_iff.mp ok) distinct member same (Nat.zero_add _)
        (fun j lower upper => by omega) (fun _ _ => rfl) heap contents
    exact ⟨table', h', by simpa only [lpmDelete, if_neg long] using ran, step, quiet, tableOk_iff.mpr all, heap'⟩

end Delete

end Ufp.Daemon
