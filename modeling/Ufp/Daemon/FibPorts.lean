/-
# Ufp.Daemon.FibPorts — routes lead to ports of the thread

`ufp_tx_assign` takes the port number a route holds on trust. Routes get theirs
from `netlink_route`, which finds it among the thread's ports or stores -1. The
number stays in range whatever else happens to the tables: after allocations that
fail half way, and after entries that were freed while they were linked.

`Node.All Q` says that every entry linked at or below a node satisfies `Q`. The
table functions link nothing but the new entry, and of an entry they change the
counter only.
-/
import Ufp.Daemon.Forward
import Ufp.Daemon.Netlink

namespace Ufp.Daemon

set_option autoImplicit false

/-! ## Linked entries -/

/-- Every entry linked at or below a node points to an address that satisfies `Q`. -/
def Node.All (Q : Nat → Prop) : Node → Prop
  | .leaf head => ∀ entry ∈ head, Q entry.ptr
  | .inner head _ table => (∀ entry ∈ head, Q entry.ptr) ∧ ∀ i, (table i).All Q

/-- The same for the nodes of a table. -/
def Table.All (Q : Nat → Prop) (table : Table) : Prop := ∀ i, (table i).All Q

section All

variable {Q : Nat → Prop} {node : Node} {table : Table}

theorem Node.All.head (all : node.All Q) : ∀ entry ∈ node.head, Q entry.ptr := by
  cases node with
  | leaf head => exact all
  | inner head blk table => exact all.1

theorem Node.All.setHead (all : node.All Q) {head : List LpmEntry}
    (more : ∀ entry ∈ head, Q entry.ptr) : (node.setHead head).All Q := by
  cases node with
  | leaf _ => exact more
  | inner _ blk table => exact ⟨more, all.2⟩

theorem Table.All.update (all : Table.All Q table) {j : Nat} (new : node.All Q) :
    Table.All Q (Function.update table j node) := by
  exact (Function.forall_update_iff table fun _ node => node.All Q).mpr ⟨new, fun i _ => all i⟩

theorem Table.all_empty : Table.All Q fun _ => .leaf [] := by
  intro i entry member
  cases member

end All

/-- The port numbers in the entries of the pool. -/
def Heap.ports (h : Heap) : Nat → Int := fun ptr => (h.fibEntry ptr).portIndex

variable {h h' : Heap} {n : Nat} {Q : Nat → Prop} {fib : Fib} {thread : UfpdThread}

theorem Heap.setEntry_ports {ptr : Nat} {entry : FibEntry} (same : entry.portIndex = h.ports ptr) :
    (h.setEntry ptr entry).ports = h.ports := by
  funext a
  by_cases here : a = ptr
  · subst here
    simpa [Heap.ports, Heap.setEntry] using same
  · simp [Heap.ports, Heap.setEntry, Function.update_of_ne here]

theorem Heap.alloc_ports {blk : Option Nat} (answer : h.alloc = (blk, h')) : h'.ports = h.ports := by
  have kept : h.alloc.2.ports = h.ports := rfl
  rwa [answer] at kept

@[simp] theorem fibEntryPull_ports (h : Heap) (ptr : Nat) : (fibEntryPull h ptr).ports = h.ports :=
  Heap.setEntry_ports rfl

@[simp] theorem fibEntryPut_ports (h : Heap) (ptr : Nat) : (fibEntryPut h ptr).ports = h.ports := by
  unfold fibEntryPut
  generalize (if (h.fibEntry ptr).refcount = 0 then 2 ^ 32 - 1 else (h.fibEntry ptr).refcount - 1) = refcount
  have same : (h.setEntry ptr { h.fibEntry ptr with refcount }).ports = h.ports := Heap.setEntry_ports rfl
  dsimp only
  split
  · exact same
  · exact same

/-- What a table function leaves: links that satisfy `Q`, and the port numbers. -/
structure Links (Q : Nat → Prop) (h : Heap) (table : Table) (h' : Heap) : Prop where
  all : Table.All Q table
  ports : h'.ports = h.ports

/-- The same for a function on one node. -/
structure NodeLinks (Q : Nat → Prop) (h : Heap) (node : Node) (h' : Heap) : Prop where
  all : node.All Q
  ports : h'.ports = h.ports

theorem Links.after {h₁ h₂ : Heap} {table : Table} (links : Links Q h₁ table h₂) (same : h₁.ports = h.ports) :
    Links Q h table h₂ := ⟨links.all, links.ports.trans same⟩

/-! ## Entries of one node -/

theorem lpmEntryInsert_all {head head' : List LpmEntry} {id : Int} {len : Nat} {entry : LpmEntry} (new : Q entry.ptr)
    (all : ∀ e ∈ head, Q e.ptr) (done : lpmEntryInsert h head id len entry = some (head', h')) :
    (∀ e ∈ head', Q e.ptr) ∧ h'.ports = h.ports := by
  unfold lpmEntryInsert at done
  split at done
  · cases done
  · rename_i after scan
    obtain ⟨rfl, rfl⟩ := Prod.mk.inj (Option.some.inj done)
    refine ⟨fun e member => ?_, fibEntryPull_ports h _⟩
    rcases List.mem_append.mp member with front | back
    · exact all e (List.mem_of_mem_take front)
    · rcases List.mem_cons.mp back with rfl | back
      · exact new
      · exact all e (List.mem_of_mem_drop back)

theorem lpmEntryDelete_all {id : Int} {len : Nat} {head head' : List LpmEntry} (all : ∀ e ∈ head, Q e.ptr)
    (done : lpmEntryDelete h id len head = some (head', h')) : (∀ e ∈ head', Q e.ptr) ∧ h'.ports = h.ports := by
  induction head generalizing head' h' with
  | nil => cases done
  | cons entry rest ih =>
      obtain ⟨first, others⟩ := List.forall_mem_cons.mp all
      simp only [lpmEntryDelete] at done
      split at done
      · obtain ⟨rfl, rfl⟩ := Prod.mk.inj (Option.some.inj done)
        exact ⟨others, fibEntryPut_ports h _⟩
      · split at done
        · cases done
        · rename_i rest' h₁ deeper
          obtain ⟨rfl, rfl⟩ := Prod.mk.inj (Option.some.inj done)
          obtain ⟨kept, ports⟩ := ih others deeper
          exact ⟨List.forall_mem_cons.mpr ⟨first, kept⟩, ports⟩

/-! ## The loops over the nodes of a table -/

section Loops

variable {Q : Nat → Prop} {id : Int} {len ptr index : Nat}

theorem fillLoop_links (new : Q ptr) {todo i : Nat} {table : Table} {h : Heap}
    (all : Table.All Q table) :
    Links Q h (fillLoop id len ptr index todo i table h).2.2.1
      (fillLoop id len ptr index todo i table h).2.2.2 := by
  induction todo generalizing i table h with
  | zero => exact ⟨all, rfl⟩
  | succ todo ih =>
      simp only [fillLoop]
      rcases answer : h.alloc with ⟨_ | blk, h₁⟩
      · exact ⟨all, Heap.alloc_ports answer⟩
      · have same := Heap.alloc_ports answer
        dsimp only
        rcases done : lpmEntryInsert h₁ (table (index ||| i)).head id len ⟨blk, ptr⟩ with
          _ | ⟨head, h₂⟩
        · exact ⟨all, same⟩
        · obtain ⟨more, ports⟩ := lpmEntryInsert_all new (all _).head done
          obtain ⟨rest, ports'⟩ := @ih (i + 1) _ h₂ (all.update ((all (index ||| i)).setHead more))
          exact ⟨rest, ports'.trans (ports.trans same)⟩

/-- An entry unlinked from one node, and whatever the loop does after that. -/
theorem Links.delete {i : Nat} {table table' : Table} {h₁ h₂ : Heap} {head : List LpmEntry} (all : Table.All Q table)
    (done : lpmEntryDelete h id len (table i).head = some (head, h₁))
    (later : Table.All Q (Function.update table i ((table i).setHead head)) → Links Q h₁ table' h₂) :
    Links Q h table' h₂ := by
  obtain ⟨less, ports⟩ := lpmEntryDelete_all (all _).head done
  exact (later (all.update ((all i).setHead less))).after ports

theorem rollbackLoop_links {todo i : Nat} {table : Table} {h : Heap} (all : Table.All Q table) :
    Links Q h (rollbackLoop id len index todo i table h).1
      (rollbackLoop id len index todo i table h).2 := by
  induction todo generalizing i table h with
  | zero => exact ⟨all, rfl⟩
  | succ todo ih =>
      simp only [rollbackLoop]
      rcases done : lpmEntryDelete h id len (table (index ||| i)).head with _ | ⟨head, h₁⟩
      · exact ih all
      · exact .delete all done ih

theorem deleteLoop_links {todo i : Nat} {table : Table} {h : Heap} (all : Table.All Q table) :
    Links Q h (deleteLoop id len index todo i table h).2.1
      (deleteLoop id len index todo i table h).2.2 := by
  induction todo generalizing i table h with
  | zero => exact ⟨all, rfl⟩
  | succ todo ih =>
      simp only [deleteLoop]
      rcases done : lpmEntryDelete h id len (table (index ||| i)).head with _ | ⟨head, h₁⟩
      · exact ⟨all, rfl⟩
      · exact .delete all done ih

end Loops

/-! ## Adding and deleting -/

section Walk

variable {Q : Nat → Prop} {bytes : Bytes} {len : Nat} {id : Int} {ptr : Nat}

theorem pruneTable_links {head : List LpmEntry} {blk : Nat} {table : Table} (front : ∀ entry ∈ head, Q entry.ptr)
    (links : Links Q h table h') :
    NodeLinks Q h (pruneTable head blk table h').1 (pruneTable head blk table h').2 := by
  unfold pruneTable
  split
  · exact ⟨front, links.ports⟩
  · exact ⟨⟨front, links.all⟩, links.ports⟩

theorem ensureTable_links {parent : Node} {made : Option (Nat × Table)} (all : parent.All Q)
    (done : ensureTable parent h = (made, h')) :
    h'.ports = h.ports ∧ ∀ blk table, made = some (blk, table) → Table.All Q table := by
  cases parent with
  | inner head blk table =>
      obtain ⟨rfl, rfl⟩ := Prod.mk.inj done
      refine ⟨rfl, fun _ _ same => ?_⟩
      obtain ⟨-, rfl⟩ := Prod.mk.inj (Option.some.inj same)
      exact all.2
  | leaf head =>
      simp only [ensureTable] at done
      rcases answer : h.alloc with ⟨_ | blk, h₁⟩
      · rw [answer] at done
        obtain ⟨rfl, rfl⟩ := Prod.mk.inj done
        exact ⟨Heap.alloc_ports answer, fun _ _ same => by cases same⟩
      · rw [answer] at done
        obtain ⟨rfl, rfl⟩ := Prod.mk.inj done
        refine ⟨Heap.alloc_ports answer, fun _ _ same => ?_⟩
        obtain ⟨-, rfl⟩ := Prod.mk.inj (Option.some.inj same)
        exact Table.all_empty

theorem lpmAddRec_links (new : Q ptr) (parent : Node) (offset : Nat) (h : Heap) (all : parent.All Q) :
    NodeLinks Q h (lpmAddRec bytes len id ptr parent offset h).2.1
      (lpmAddRec bytes len id ptr parent offset h).2.2 := by
  fun_induction lpmAddRec bytes len id ptr parent offset h with
  | case1 parent offset h h₁ missing =>
      exact ⟨all, (ensureTable_links all missing).1⟩
  | case2 parent offset h blk table h₁ made index longer node h₂ done ih =>
      obtain ⟨same, tables⟩ := ensureTable_links all made
      have below := ih (tables _ _ rfl index)
      rw [done] at below
      exact ⟨⟨all.head, (tables _ _ rfl).update below.all⟩, below.ports.trans same⟩
  | case3 parent offset h blk table h₁ made index longer node h₂ done ih =>
      obtain ⟨same, tables⟩ := ensureTable_links all made
      have below := ih (tables _ _ rfl index)
      rw [done] at below
      have links : Links Q h (Function.update table index node) h₂ :=
        ⟨(tables _ _ rfl).update below.all, below.ports.trans same⟩
      exact pruneTable_links all.head links
  | case4 parent offset h blk table h₁ made raw here range index count table' h₂ done =>
      obtain ⟨same, tables⟩ := ensureTable_links all made
      have filled := @fillLoop_links Q id len ptr index new range 0 table h₁ (tables _ _ rfl)
      rw [done] at filled
      exact ⟨⟨all.head, filled.all⟩, filled.ports.trans same⟩
  | case5 parent offset h blk table h₁ made raw here range index count table' h₂ done none table'' h₃
      undone =>
      obtain ⟨same, tables⟩ := ensureTable_links all made
      have filled := @fillLoop_links Q id len ptr index new range 0 table h₁ (tables _ _ rfl)
      rw [done] at filled
      have rolled := @rollbackLoop_links Q id len index none 0 table' h₂ filled.all
      rw [undone] at rolled
      exact pruneTable_links all.head (rolled.after (filled.ports.trans same))

theorem lpmAdd_links (new : Q ptr) {table : Table} {h : Heap} (all : Table.All Q table) :
    Links Q h (lpmAdd table bytes len id ptr h).2.1 (lpmAdd table bytes len id ptr h).2.2 := by
  unfold lpmAdd
  dsimp only
  split
  · have below := @lpmAddRec_links Q bytes len id ptr new _ 16 h (all (lpmIndex bytes 0 16))
    exact ⟨all.update below.all, below.ports⟩
  · generalize maskIndex (lpmIndex bytes 0 16) (1 <<< (16 - len)) = index
    have filled := @fillLoop_links Q id len ptr index new (1 <<< (16 - len)) 0 table h all
    rcases done : fillLoop id len ptr index (1 <<< (16 - len)) 0 table h with
      ⟨_ | _, count, table', h₁⟩
    · rw [done] at filled
      exact (rollbackLoop_links filled.all).after filled.ports
    · rw [done] at filled
      exact filled

theorem lpmDeleteRec_links (parent : Node) (offset : Nat) (h : Heap) (all : parent.All Q) :
    NodeLinks Q h (lpmDeleteRec bytes len id parent offset h).2.1
      (lpmDeleteRec bytes len id parent offset h).2.2 := by
  fun_induction lpmDeleteRec bytes len id parent offset h with
  | case1 offset head => exact ⟨all, rfl⟩
  | case2 offset head blk table index longer node h₁ done ih =>
      have below := ih (all.2 index)
      rw [done] at below
      have links : Links Q h (Function.update table index node) h₁ :=
        ⟨Table.All.update all.2 below.all, below.ports⟩
      exact pruneTable_links all.1 links
  | case3 offset head blk table index longer node h₁ done ih =>
      have below := ih (all.2 index)
      rw [done] at below
      exact ⟨⟨all.1, Table.All.update all.2 below.all⟩, below.ports⟩
  | case4 offset head blk table raw here range index table' h₁ done =>
      have unlinked := @deleteLoop_links Q id len index range 0 table h all.2
      rw [done] at unlinked
      exact pruneTable_links all.1 unlinked
  | case5 offset head blk table raw here range index table' h₁ done =>
      have unlinked := @deleteLoop_links Q id len index range 0 table h all.2
      rw [done] at unlinked
      exact ⟨⟨all.1, unlinked.all⟩, unlinked.ports⟩

theorem lpmDelete_links {table : Table} {h : Heap} (all : Table.All Q table) :
    Links Q h (lpmDelete table bytes len id h).2.1 (lpmDelete table bytes len id h).2.2 := by
  unfold lpmDelete
  dsimp only
  split
  · have below := @lpmDeleteRec_links Q bytes len id _ 16 h (all (lpmIndex bytes 0 16))
    exact ⟨all.update below.all, below.ports⟩
  · exact deleteLoop_links all

theorem lpmLookupRec_all {dst : Bytes} {node : Node} {offset : Nat} {head : List LpmEntry}
    (all : node.All Q) (found : lpmLookupRec dst node offset = some head) :
    ∀ entry ∈ head, Q entry.ptr := by
  induction node generalizing offset head with
  | leaf _ => cases found
  | inner _ blk table ih =>
      simp only [lpmLookupRec] at found
      split at found
      · rename_i head' deeper
        obtain rfl := Option.some.inj found
        exact ih _ (all.2 _) deeper
      · split at found
        · cases found
        · obtain rfl := Option.some.inj found
          exact (all.2 _).head

theorem lpmLookup_all {table : Table} {dst : Bytes} {entry : LpmEntry} (all : Table.All Q table)
    (found : lpmLookup table dst = some entry) : Q entry.ptr := by
  have member := List.mem_of_mem_head? found
  split at member
  · rename_i head deeper
    exact lpmLookupRec_all (all _) deeper entry member
  · exact (all _).head entry member

end Walk

/-! ## Routes -/

/-- Every linked route leads to one of `n` ports, or to none. -/
def Fib.PortsIn (n : Nat) (h : Heap) (fib : Fib) : Prop := fib.table.All fun ptr => h.ports ptr < n

theorem Fib.PortsIn.congr (ok : fib.PortsIn n h) (same : h'.ports = h.ports) : fib.PortsIn n h' := by
  unfold Fib.PortsIn
  rwa [same]

theorem Links.now {table : Table} (links : Links (fun ptr => h.ports ptr < n) h table h') :
    table.All fun ptr => h'.ports ptr < n := by
  rw [links.ports]
  exact links.all

theorem Node.All.mono {R : Nat → Prop} (weaker : ∀ ptr, Q ptr → R ptr) {node : Node} (all : node.All Q) :
    node.All R := by
  induction node with
  | leaf head => exact fun entry member => weaker _ (all entry member)
  | inner head blk table ih =>
      exact ⟨fun entry member => weaker _ (all.1 entry member), fun i => ih i (all.2 i)⟩

/-- An entry overwritten with a route in range is still in range, linked or not. -/
theorem Fib.PortsIn.setEntry (ok : fib.PortsIn n h) {ptr : Nat} {entry : FibEntry} (inside : entry.portIndex < n) :
    fib.PortsIn n (h.setEntry ptr entry) := by
  intro i
  refine (ok i).mono fun a less => ?_
  by_cases here : a = ptr
  · subst here
    simpa [Heap.ports, Heap.setEntry] using inside
  · simpa [Heap.ports, Heap.setEntry, Function.update_of_ne here] using less

section Route

variable {n : Nat} {h : Heap} {fib other : Fib} {family : Family} {type : FibType}
  {bytes nexthop : Bytes} {len : Nat} {portIndex id : Int}

theorem fibRouteUpdate_portsIn (ok : fib.PortsIn n h) (ok' : other.PortsIn n h)
    (inside : portIndex < n) :
    let done := fibRouteUpdate fib family type bytes len nexthop portIndex id h
    done.2.1.PortsIn n done.2.2 ∧ other.PortsIn n done.2.2 := by
  unfold fibRouteUpdate
  rcases answer : h.alloc with ⟨_ | ptr, h₁⟩
  · have same := Heap.alloc_ports answer
    exact ⟨ok.congr same, ok'.congr same⟩
  · have same := Heap.alloc_ports answer
    dsimp only
    cases family.bytes with
    | none => exact ⟨ok.congr same, ok'.congr same⟩
    | some size =>
        dsimp only
        generalize written : h₁.setEntry ptr _ = h₂
        have set : fib.PortsIn n h₂ ∧ other.PortsIn n h₂ := by
          rw [← written]
          exact ⟨(ok.congr same).setEntry inside, (ok'.congr same).setEntry inside⟩
        have new : h₂.ports ptr < n := by
          rw [← written]
          simpa [Heap.ports, Heap.setEntry] using inside
        have links := @lpmAdd_links (fun ptr => h₂.ports ptr < n) bytes len id ptr new fib.table h₂ set.1
        rcases added : lpmAdd fib.table bytes len id ptr h₂ with ⟨_ | _, table, h₃⟩
        · rw [added] at links
          have all := links.now
          exact ⟨all, set.2.congr links.ports⟩
        · rw [added] at links
          exact ⟨links.now, set.2.congr links.ports⟩

theorem fibRouteDelete_portsIn (ok : fib.PortsIn n h) (ok' : other.PortsIn n h) :
    let done := fibRouteDelete fib bytes len id h
    done.2.1.PortsIn n done.2.2 ∧ other.PortsIn n done.2.2 := by
  have links := @lpmDelete_links (fun ptr => h.ports ptr < n) bytes len id fib.table h ok
  exact ⟨links.now, ok'.congr links.ports⟩

end Route

/-! ## Neighbours -/

/-- Deleting an entry of the table frees its block and nothing else. -/
def NeighTable.Plain (neigh : NeighTable) : Prop := neigh.table.hashEntryDelete = neighEntryDelete

theorem neighAdd_plain {neigh : NeighTable} (plain : neigh.Plain) (family : Family) (addr mac : Bytes)
    (h : Heap) :
    (neighAdd neigh family addr mac h).2.1.Plain ∧
      (neighAdd neigh family addr mac h).2.2.ports = h.ports := by
  unfold neighAdd
  rcases answer : h.alloc with ⟨_ | blk, h₁⟩
  · exact ⟨plain, Heap.alloc_ports answer⟩
  · have same := Heap.alloc_ports answer
    dsimp only
    cases family.bytes with
    | none => exact ⟨plain, same⟩
    | some size =>
        dsimp only
        unfold hashAdd
        dsimp only
        split
        · rename_i none
          exact ⟨plain, same⟩
        · rename_i table some
          refine ⟨?_, same⟩
          split at some
          · cases some
          · obtain rfl := Option.some.inj some
            exact plain

theorem neighDelete_plain {neigh : NeighTable} (plain : neigh.Plain) (addr : Bytes) (h : Heap) :
    (neighDelete neigh addr h).2.1.Plain ∧ (neighDelete neigh addr h).2.2.ports = h.ports := by
  unfold neighDelete hashDelete
  dsimp only
  split
  · exact ⟨plain, rfl⟩
  · refine ⟨plain, ?_⟩
    dsimp only
    rw [plain]
    rfl

/-! ## Messages -/

/-- The routes of both FIBs lead to the thread's ports. -/
structure UfpdThread.PortsIn (thread : UfpdThread) : Prop where
  inet : thread.fibInet.PortsIn thread.numPorts thread.heap
  inet6 : thread.fibInet6.PortsIn thread.numPorts thread.heap
  neigh : ∀ port < thread.numPorts, (thread.neighInet port).Plain ∧ (thread.neighInet6 port).Plain

theorem UfpdThread.portIndex_lt (thread : UfpdThread) (ifindex : Int) :
    thread.portIndex ifindex < thread.numPorts := by
  unfold portIndex
  split
  · rename_i i found
    have member := List.mem_of_find?_eq_some found
    have inside : i < thread.numPorts := List.mem_range.mp member
    exact_mod_cast inside
  · have natural : (0 : Int) ≤ thread.numPorts := Int.natCast_nonneg _
    omega

theorem netlinkRoute_portsIn (ok : thread.PortsIn) (nlh : List UInt8) : (netlinkRoute thread nlh).PortsIn := by
  unfold netlinkRoute
  dsimp only
  generalize rtaLoop routeAttr {} _ _ = attrs
  generalize (if u8At (List.drop nlmsgHdrlen nlh) 4 = rtTableLocal then FibType.localhost
    else attrs.type) = type
  generalize u8At (List.drop nlmsgHdrlen nlh) 1 = len
  generalize familyOf _ = family
  have update : ∀ fib other : Fib, fib.PortsIn thread.numPorts thread.heap →
      other.PortsIn thread.numPorts thread.heap → ∀ done : Fib × Heap,
      done = (if nlmsgType nlh = rtmNewroute then
          (fibRouteUpdate fib family type attrs.prefixBytes len attrs.nexthop
            (thread.portIndex attrs.ifindex) attrs.ifindex thread.heap).2
        else if nlmsgType nlh = rtmDelroute then
          (fibRouteDelete fib attrs.prefixBytes len attrs.ifindex thread.heap).2
        else (fib, thread.heap)) →
      done.1.PortsIn thread.numPorts done.2 ∧ other.PortsIn thread.numPorts done.2 := by
    rintro fib other one two done rfl
    split_ifs
    · exact fibRouteUpdate_portsIn one two (thread.portIndex_lt attrs.ifindex)
    · exact fibRouteDelete_portsIn one two
    · exact ⟨one, two⟩
  cases family with
  | inet =>
      obtain ⟨one, two⟩ := update _ _ ok.inet ok.inet6 _ rfl
      exact ⟨one, two, ok.neigh⟩
  | inet6 =>
      obtain ⟨one, two⟩ := update _ _ ok.inet6 ok.inet _ rfl
      exact ⟨two, one, ok.neigh⟩
  | other => exact ok

/-- A port's tables after one of them changed. -/
theorem plain_update {port : Nat} {tables : Nat → NeighTable} {table : NeighTable} (plain : ∀ p < n, (tables p).Plain)
    (new : table.Plain) : ∀ p < n, (Function.update tables port table p).Plain := by
  exact (Function.forall_update_iff tables fun p table => p < n → table.Plain).mpr
    ⟨fun _ => new, fun p _ => plain p⟩

theorem netlinkNeigh_portsIn (ok : thread.PortsIn) (nlh : List UInt8) : (netlinkNeigh thread nlh).PortsIn := by
  unfold netlinkNeigh
  dsimp only
  generalize rtaLoop neighAttr {} _ _ = attrs
  generalize familyOf _ = family
  split
  · exact ok
  · rename_i port found
    have inside : port < thread.numPorts := List.mem_range.mp (List.mem_of_find?_eq_some found)
    obtain ⟨plain, plain6⟩ := ok.neigh port inside
    have update : ∀ neigh : NeighTable, neigh.Plain → ∀ done : NeighTable × Heap,
        done = (if nlmsgType nlh = rtmNewneigh then
            (neighAdd neigh family attrs.dstAddr attrs.dstMac thread.heap).2
          else if nlmsgType nlh = rtmDelneigh then (neighDelete neigh attrs.dstAddr thread.heap).2
          else (neigh, thread.heap)) → done.1.Plain ∧ done.2.ports = thread.heap.ports := by
      rintro neigh plain done rfl
      split_ifs
      · exact neighAdd_plain plain _ _ _ _
      · exact neighDelete_plain plain _ _
      · exact ⟨plain, rfl⟩
    cases family with
    | inet =>
        obtain ⟨table, ports⟩ := update _ plain _ rfl
        exact ⟨ok.inet.congr ports, ok.inet6.congr ports, fun p less =>
          ⟨plain_update (fun p less => (ok.neigh p less).1) table p less, (ok.neigh p less).2⟩⟩
    | inet6 =>
        obtain ⟨table, ports⟩ := update _ plain6 _ rfl
        exact ⟨ok.inet.congr ports, ok.inet6.congr ports, fun p less =>
          ⟨(ok.neigh p less).1, plain_update (fun p less => (ok.neigh p less).2) table p less⟩⟩
    | other => exact ok

theorem netlinkMessage_numPorts (thread : UfpdThread) (nlh : List UInt8) :
    (netlinkMessage thread nlh).numPorts = thread.numPorts := by
  unfold netlinkMessage
  split_ifs
  · unfold netlinkRoute
    dsimp only
    split <;> rfl
  · unfold netlinkNeigh
    dsimp only
    split
    · rfl
    · split <;> rfl
  · rfl

theorem netlinkProcess_numPorts (thread : UfpdThread) (buf : List UInt8) (size : Nat) :
    (netlinkProcess thread buf size).numPorts = thread.numPorts := by
  fun_induction netlinkProcess thread buf size with
  | case1 thread buf size ok ih => rw [ih, netlinkMessage_numPorts]
  | case2 thread buf size bad => rfl

/-- **Whatever is read from the netlink socket, routes lead to ports of the thread.** -/
theorem netlinkProcess_portsIn (ok : thread.PortsIn) (buf : List UInt8) (size : Nat) :
    (netlinkProcess thread buf size).PortsIn := by
  fun_induction netlinkProcess thread buf size with
  | case1 thread buf size good ih =>
      apply ih
      unfold netlinkMessage
      split_ifs
      · exact netlinkRoute_portsIn ok buf
      · exact netlinkNeigh_portsIn ok buf
      · exact ok
  | case2 thread buf size bad => exact ok

theorem fibAlloc_portsIn (made : fibAlloc h = (some fib, h')) (later : Heap) : fib.PortsIn n later := by
  unfold fibAlloc at made
  split at made
  · cases made
  · obtain ⟨rfl, -⟩ := Prod.mk.inj made |>.imp_left Option.some.inj
    exact Table.all_empty

theorem threadPrepare_portsIn {numPorts : Nat} {tunIndex : Nat → Int} {macaddr : Nat → Bytes}
    (made : threadPrepare numPorts tunIndex macaddr h = some thread) : thread.PortsIn := by
  obtain ⟨⟨ports, -⟩, fresh, -⟩ := threadPrepare_spec made
  have neigh : ∀ port < thread.numPorts,
      (thread.neighInet port).Plain ∧ (thread.neighInet6 port).Plain := by
    rw [ports]
    exact fun port inside => ⟨(fresh port inside).1.1.delete, (fresh port inside).2.1.delete⟩
  obtain ⟨h₁, h₂, -, -, -, -, one, two, -⟩ := threadPrepare_cases made
  exact ⟨fibAlloc_portsIn one _, fibAlloc_portsIn two _, neigh⟩

/-! ## Forwarding -/

/-- A lookup leads to a port of the thread. -/
theorem nextHop_port {neigh : Nat → NeighTable} {dst : Bytes} {port : Nat} {entry : NeighEntry} (ok : fib.PortsIn n h)
    (found : nextHop fib neigh h dst = .via port entry) : port < n := by
  unfold nextHop fibLookup at found
  rcases looked : lpmLookup fib.table dst with _ | e
  · rw [looked] at found
    cases found
  · rw [looked] at found
    have inside : (h.fibEntry e.ptr).portIndex < n := lpmLookup_all ok looked
    dsimp only at found
    split at found
    · cases found
    · rename_i natural
      split at found
      · cases found
      · obtain ⟨rfl, -⟩ := NextHop.via.inj found
        omega

end Ufp.Daemon
