/-
# Ufp.Lib.IrqVector — the vectors of a device's interrupts, `lib/lib_vfio.c`

`ufp_vfio_irq_vector_get` reads the directory `msi_irqs` of a device, whose entries
are the vectors in no particular order, keeps them in a sorted list and gives them to
the interrupts of the device in turn. The list is intrusive; here it is the list of its
entries, and a pointer to an entry is its position. `addEntryLinks` is the same insertion
store by store, and `addEntryLinks_refines` says that this makes no difference.

`irq_vectors_in_order`: the interrupts get the smallest vectors in the order in which
their eventfds are passed to VFIO, whatever the order of the directory.
-/
import Ufp.Lib.Irq
import Ufp.Lib.CircularList
import Ufp.Theory.CLibrary
import Mathlib.Data.List.Sort

namespace Ufp.Lib.Irq

open Ufp.Theory.CLibrary (scanfU)

set_option autoImplicit false

/-! ## The code -/

/-- The loop over the list that finds the last entry with a smaller vector; `pos` is
the position of the first entry of `entries`. -/
def priorLoop (vector : Nat) : (entries : List Nat) → (pos : Nat) → (prior : Option Nat) → Option Nat
  | [], _, prior => prior
  | other :: entries, pos, prior =>
      priorLoop vector entries (pos + 1) (if vector > other then some pos else prior)

/-- `list_add_after`, behind the entry at `prior`. -/
def listAddAfter (head : List Nat) (prior new : Nat) : List Nat :=
  head.take (prior + 1) ++ new :: head.drop (prior + 1)

/-- A new entry behind the last smaller one, or at the head of the list. -/
def addEntry (head : List Nat) (vector : Nat) : List Nat :=
  match priorLoop vector head 0 none with
  | some prior => listAddAfter head prior vector
  | none => vector :: head

/-- The vector that `sscanf` reads from a name. -/
def vectorOf (name : List Char) : Option Nat := (scanfU name).map Int.toNat

/-- The loop over the directory; `calls` counts those of `malloc`. -/
def readEntries (malloc : Nat → Bool) : (names : List (List Char)) → (calls : Nat) → (head : List Nat) →
    Option (List Nat)
  | [], _, head => some head
  | name :: names, calls, head =>
      match vectorOf name with
      | none => readEntries malloc names calls head
      | some vector =>
          if malloc calls then readEntries malloc names (calls + 1) (addEntry head vector) else none

/-- A loop that gives vectors to the interrupts of an array: the interrupts, whether
the list was long enough, and what is left of it. -/
def takeVectors : List UfpIrq → List Nat → List UfpIrq × Bool × List Nat
  | [], head => ([], true, head)
  | irq :: irqs, [] => (irq :: irqs, false, [])
  | irq :: irqs, vector :: head =>
      let (irqs, done, head) := takeVectors irqs head
      ({ irq with vector } :: irqs, done, head)

/-- The loop over the interfaces. -/
def takeIfaces : List Iface → List Nat → List Iface × Bool
  | [], _ => ([], true)
  | iface :: ifaces, head =>
      match takeVectors iface.rxIrq head with
      | (rxIrq, false, _) => ({ iface with rxIrq } :: ifaces, false)
      | (rxIrq, true, head) =>
          match takeVectors iface.txIrq head with
          | (txIrq, false, _) => ({ iface with rxIrq, txIrq } :: ifaces, false)
          | (txIrq, true, head) =>
              let (ifaces, done) := takeIfaces ifaces head
              ({ iface with rxIrq, txIrq } :: ifaces, done)

/-- `ufp_vfio_irq_vector_get`: whether it returns 0, and the device. `dir` are the names
in the directory, if it can be opened. -/
def ufpVfioIrqVectorGet (malloc : Nat → Bool) (dir : Option (List (List Char))) (dev : Dev) : Bool × Dev :=
  match dir with
  | none => (false, dev)
  | some names =>
      match readEntries malloc names 0 [] with
      | none => (false, dev)
      | some head =>
          match takeVectors dev.miscIrq head with
          | (miscIrq, false, _) => (false, { dev with miscIrq })
          | (miscIrq, true, head) =>
              let (ifaces, done) := takeIfaces dev.ifaces head
              (done, { dev with miscIrq, ifaces })

/-! ## The list in memory -/

section Memory

open Ufp.Lib.CircularList (Node IsList Becomes listForEach listAddFirst listForEach_visits listAddFirst_becomes
  listAddAfter_becomes)
open Ufp.Theory.Circular (Links)

variable {η ν : Type}

/-- The loop over the list, with `prior` the address of a node; `vector` reads the field of the
entry that a node is in. -/
def priorNode (vector : Node η ν → Nat) (new : Node η ν) (visited : List (Node η ν)) (prior : Option (Node η ν)) :
    Option (Node η ν) :=
  visited.foldl (fun prior node => if vector new > vector node then some node else prior) prior

/-- A new entry, with `list_for_each`, `list_add_after` and `list_add_first` on the links. -/
def addEntryLinks [DecidableEq η] [DecidableEq ν] (vector : Node η ν → Nat) (fuel : Nat) (h : η) (new : ν)
    (links : Links (Node η ν)) : Option (Links (Node η ν)) :=
  (listForEach fuel h links).map fun visited =>
    match priorNode vector (.entry new) visited none with
    | some prior => CircularList.listAddAfter prior (.entry new) links
    | none => listAddFirst h new links

variable {vector : Node η ν → Nat} {links : Links (Node η ν)} {h : η} {new : ν} {entries : List ν}

/-- A position and the node at it. -/
def Points (nodes : List (Node η ν)) : Option Nat → Option (Node η ν) → Prop :=
  Option.Rel fun pos node => nodes[pos]? = some node

theorem priorLoop_points {front rest : List (Node η ν)} {pos : Option Nat} {prior : Option (Node η ν)}
    (points : Points (front ++ rest) pos prior) (new : Node η ν) :
    Points (front ++ rest) (priorLoop (vector new) (rest.map vector) front.length pos)
      (priorNode vector new rest prior) := by
  induction rest generalizing front pos prior with
  | nil => exact points
  | cons node rest ih =>
      have here : (front ++ node :: rest)[front.length]? = some node := by
        rw [List.getElem?_append_right (Nat.le_refl _), Nat.sub_self, List.getElem?_cons_zero]
      rw [List.append_cons] at points here ⊢
      rw [List.map_cons, priorLoop, priorNode, List.foldl_cons, ← priorNode]
      have length : (front ++ [node]).length = front.length + 1 := List.length_append
      rw [← length]
      refine ih ?_
      split
      · exact .some here
      · exact points

variable [DecidableEq η] [DecidableEq ν]

/-- **The stores of an insertion.** They leave a well-formed list with the new entry, whose
vectors are those of `addEntry`, and every other list as it was. -/
theorem addEntryLinks_refines {fuel : Nat} (list : IsList links h entries) (absent : new ∉ entries)
    (enough : entries.length ≤ fuel) :
    ∃ links' entries', addEntryLinks vector fuel h new links = some links' ∧ Becomes links links' h entries' [new] ∧
      (entries'.map Node.entry).map vector = addEntry ((entries.map Node.entry).map vector) (vector (.entry new)) := by
  have points : Points ([] ++ entries.map Node.entry)
      (priorLoop (vector (.entry new)) ((entries.map Node.entry).map vector) 0 none)
      (priorNode vector (.entry new) (entries.map Node.entry) none) :=
    priorLoop_points .none (.entry new)
  simp only [addEntryLinks, listForEach_visits list enough, Option.map_some, addEntry]
  generalize priorLoop (vector (.entry new)) ((entries.map Node.entry).map vector) 0 none = pos at points ⊢
  generalize priorNode vector (.entry new) (entries.map Node.entry) none = prior at points ⊢
  cases points with
  | none => exact ⟨_, new :: entries, rfl, listAddFirst_becomes list absent, rfl⟩
  | @some pos prior here =>
      rw [List.nil_append, List.getElem?_map, Option.map_eq_some_iff] at here
      obtain ⟨n, here, rfl⟩ := here
      obtain ⟨inside, rfl⟩ := List.getElem?_eq_some_iff.mp here
      have split : entries.take pos ++ entries[pos] :: entries.drop (pos + 1) = entries := by
        rw [List.getElem_cons_drop, List.take_append_drop]
      have upto : entries.take (pos + 1) = entries.take pos ++ [entries[pos]] := List.take_succ_eq_append_getElem inside
      rw [← split] at list absent
      refine ⟨_, _, rfl, listAddAfter_becomes list absent, ?_⟩
      show _ = listAddAfter _ pos _
      rw [listAddAfter, ← List.map_take, ← List.map_take, ← List.map_drop, ← List.map_drop, upto]
      simp only [List.map_append, List.map_cons, List.map_nil, List.append_assoc, List.cons_append, List.nil_append]

end Memory

/-! ## The list is sorted -/

theorem priorLoop_append (vector : Nat) (first rest : List Nat) (pos : Nat) (prior : Option Nat) :
    priorLoop vector (first ++ rest) pos prior =
      priorLoop vector rest (pos + first.length) (priorLoop vector first pos prior) := by
  induction first generalizing pos prior with
  | nil => rfl
  | cons other first ih =>
      rw [List.cons_append, priorLoop, ih, priorLoop, List.length_cons, Nat.add_assoc, Nat.add_comm 1]

variable {head : List Nat} {vector : Nat} {irqs : List UfpIrq} {ifaces : List Iface}

theorem priorLoop_large {entries : List Nat} (large : ∀ other ∈ entries, vector ≤ other) (pos : Nat)
    (prior : Option Nat) : priorLoop vector entries pos prior = prior := by
  induction entries generalizing pos with
  | nil => rfl
  | cons other entries ih =>
      rw [List.forall_mem_cons] at large
      rw [priorLoop, if_neg (by omega), ih large.2]

/-- Behind entries that are all smaller, the last of them is `prior`. -/
theorem priorLoop_small {entries : List Nat} (small : ∀ other ∈ entries, other < vector) (pos : Nat)
    (prior : Option Nat) :
    priorLoop vector entries pos prior = if entries = [] then prior else some (pos + entries.length - 1) := by
  induction entries generalizing pos prior with
  | nil => rfl
  | cons other entries ih =>
      rw [List.forall_mem_cons] at small
      rw [priorLoop, if_pos small.1, ih small.2, if_neg (List.cons_ne_nil _ _)]
      cases entries with
      | nil => rfl
      | cons next entries =>
          rw [if_neg (List.cons_ne_nil _ _)]
          simp only [List.length_cons]
          congr 1
          omega

/-- A vector goes behind the smaller ones. -/
theorem addEntry_append {small large : List Nat} (below : ∀ other ∈ small, other < vector)
    (above : ∀ other ∈ large, vector ≤ other) : addEntry (small ++ large) vector = small ++ vector :: large := by
  rw [addEntry, priorLoop_append, priorLoop_large above, priorLoop_small below]
  cases small with
  | nil => rfl
  | cons other small =>
      rw [if_neg (List.cons_ne_nil _ _)]
      simp [listAddAfter]

theorem addEntry_eq (sorted : head.Pairwise (· ≤ ·)) (vector : Nat) :
    addEntry head vector = head.orderedInsert (· ≤ ·) vector := by
  obtain ⟨small, large, rfl, below, above, inserted⟩ : ∃ small large, head = small ++ large ∧
      (∀ other ∈ small, other < vector) ∧ (∀ other ∈ large, vector ≤ other) ∧
      head.orderedInsert (· ≤ ·) vector = small ++ vector :: large := by
    induction head with
    | nil => exact ⟨[], [], rfl, by simp, by simp, rfl⟩
    | cons other head ih =>
        obtain ⟨first, rest⟩ := List.pairwise_cons.mp sorted
        by_cases before : vector ≤ other
        · refine ⟨[], other :: head, rfl, by simp, ?_, List.orderedInsert_cons_of_le _ _ before⟩
          rw [List.forall_mem_cons]
          exact ⟨before, fun later member => before.trans (first later member)⟩
        · obtain ⟨small, large, rfl, below, above, inserted⟩ := ih rest
          refine ⟨other :: small, large, rfl, ?_, above, ?_⟩
          · rw [List.forall_mem_cons]
            exact ⟨by omega, below⟩
          · rw [List.orderedInsert_of_not_le _ _ before, inserted, List.cons_append]
  rw [inserted, addEntry_append below above]

/-- The vectors that the directory lists, in its order. -/
def listed (names : List (List Char)) : List Nat := names.filterMap vectorOf

/-- The vectors in ascending order. -/
def ascending (vectors : List Nat) : List Nat := vectors.insertionSort (· ≤ ·)

theorem ascending_eq {vectors sorted : List Nat} (order : sorted.Pairwise (· ≤ ·))
    (same : sorted.Perm vectors) : ascending vectors = sorted := by
  refine List.Perm.eq_of_pairwise (fun a b _ _ => Nat.le_antisymm) (List.pairwise_insertionSort _ _) order ?_
  exact (List.perm_insertionSort _ _).trans same.symm

/-- The list is sorted after every entry. -/
theorem readEntries_eq {malloc : Nat → Bool} (granted : ∀ n, malloc n = true) (names : List (List Char)) (calls : Nat)
    (sorted : head.Pairwise (· ≤ ·)) :
    readEntries malloc names calls head = some (ascending (head ++ listed names)) := by
  induction names generalizing calls head with
  | nil => rw [readEntries, listed, List.filterMap_nil, List.append_nil, ascending_eq sorted (.refl _)]
  | cons name names ih =>
      cases found : vectorOf name with
      | none =>
          have same : listed (name :: names) = listed names := List.filterMap_cons_none found
          simp only [readEntries, found, same]
          exact ih calls sorted
      | some vector =>
          have same : listed (name :: names) = vector :: listed names := List.filterMap_cons_some found
          simp only [readEntries, found, granted, if_true, same]
          rw [addEntry_eq sorted, ih (calls + 1) (sorted.orderedInsert vector head)]
          refine congrArg some (ascending_eq (List.pairwise_insertionSort _ _) ?_)
          refine (List.perm_insertionSort _ _).trans (List.perm_middle.trans ?_)
          exact ((List.perm_orderedInsert (· ≤ ·) vector head).append_right _).symm

/-! ## The interrupts in turn -/

/-- The interrupts with these vectors. -/
def assign (irqs : List UfpIrq) (vectors : List Nat) : List UfpIrq :=
  irqs.zipWith (fun irq vector => { irq with vector }) vectors

theorem assign_append (irqs more : List UfpIrq) (vectors : List Nat) :
    assign (irqs ++ more) vectors = assign irqs vectors ++ assign more (vectors.drop irqs.length) := by
  induction irqs generalizing vectors with
  | nil => rfl
  | cons irq irqs ih =>
      cases vectors with
      | nil => simp [assign]
      | cons vector vectors => exact congrArg _ (ih vectors)

theorem assign_vectors {vectors : List Nat} (enough : irqs.length ≤ vectors.length) :
    (assign irqs vectors).map UfpIrq.vector = vectors.take irqs.length ∧
      (assign irqs vectors).map (fun irq => (irq.fd, irq.entryIdx)) =
        irqs.map fun irq => (irq.fd, irq.entryIdx) := by
  induction irqs generalizing vectors with
  | nil => exact ⟨rfl, rfl⟩
  | cons irq irqs ih =>
      cases vectors with
      | nil => simp at enough
      | cons vector vectors =>
          obtain ⟨given, kept⟩ := ih (Nat.le_of_succ_le_succ enough)
          exact ⟨congrArg (vector :: ·) given, congrArg ((irq.fd, irq.entryIdx) :: ·) kept⟩

theorem takeVectors_enough (enough : irqs.length ≤ head.length) :
    takeVectors irqs head = (assign irqs head, true, head.drop irqs.length) := by
  induction irqs generalizing head with
  | nil => rfl
  | cons irq irqs ih =>
      cases head with
      | nil => simp at enough
      | cons vector head =>
          simp only [takeVectors, ih (Nat.le_of_succ_le_succ enough)]
          rfl

theorem takeVectors_short (short : head.length < irqs.length) : (takeVectors irqs head).2.1 = false := by
  induction irqs generalizing head with
  | nil => simp at short
  | cons irq irqs ih =>
      cases head with
      | nil => rfl
      | cons vector head => exact ih (Nat.lt_of_succ_lt_succ short)

/-- The interrupts of some interfaces. -/
def ifaceIrqs (ifaces : List Iface) : List UfpIrq := ifaces.flatMap fun iface => iface.rxIrq ++ iface.txIrq

theorem takeIfaces_enough (enough : (ifaceIrqs ifaces).length ≤ head.length) :
    (takeIfaces ifaces head).2 = true ∧
      ifaceIrqs (takeIfaces ifaces head).1 = assign (ifaceIrqs ifaces) head := by
  induction ifaces generalizing head with
  | nil => exact ⟨rfl, rfl⟩
  | cons iface ifaces ih =>
      simp only [ifaceIrqs, List.flatMap_cons, List.length_append] at enough
      have rx := takeVectors_enough (show iface.rxIrq.length ≤ head.length by omega)
      have tx := takeVectors_enough (show iface.txIrq.length ≤ (head.drop iface.rxIrq.length).length by
        rw [List.length_drop]
        omega)
      have left : (ifaceIrqs ifaces).length ≤
          ((head.drop iface.rxIrq.length).drop iface.txIrq.length).length := by
        simp only [ifaceIrqs, List.length_drop]
        omega
      obtain ⟨done, rest⟩ := ih left
      simp only [takeIfaces, rx, tx]
      refine ⟨done, ?_⟩
      simp only [ifaceIrqs, List.flatMap_cons] at rest ⊢
      rw [rest, assign_append, assign_append, List.length_append, List.drop_drop]

theorem takeIfaces_short (short : head.length < (ifaceIrqs ifaces).length) : (takeIfaces ifaces head).2 = false := by
  induction ifaces generalizing head with
  | nil => simp [ifaceIrqs] at short
  | cons iface ifaces ih =>
      simp only [ifaceIrqs, List.flatMap_cons, List.length_append] at short
      by_cases rxEnough : iface.rxIrq.length ≤ head.length
      · by_cases txEnough : iface.txIrq.length ≤ (head.drop iface.rxIrq.length).length
        · simp only [takeIfaces, takeVectors_enough rxEnough, takeVectors_enough txEnough]
          rw [List.length_drop] at txEnough
          refine ih ?_
          simp only [ifaceIrqs, List.length_drop]
          omega
        · have stop := takeVectors_short (Nat.lt_of_not_le txEnough)
          rcases tx : takeVectors iface.txIrq (head.drop iface.rxIrq.length) with ⟨txIrq, done, rest⟩
          rw [tx] at stop
          obtain rfl : done = false := stop
          simp only [takeIfaces, takeVectors_enough rxEnough, tx]
      · have stop := takeVectors_short (Nat.lt_of_not_le rxEnough)
        rcases rx : takeVectors iface.rxIrq head with ⟨rxIrq, done, rest⟩
        rw [rx] at stop
        obtain rfl : done = false := stop
        simp only [takeIfaces, rx]

/-- The arrays of a device have the sizes that `ufp_up` gives them. -/
structure Dev.Made (dev : Dev) : Prop where
  misc : dev.miscIrq.length = dev.numMiscIrqs
  queues : ∀ iface ∈ dev.ifaces, iface.rxIrq.length = iface.numQps ∧ iface.txIrq.length = iface.numQps

/-- The interrupts of a device. -/
def Dev.numIrqs (dev : Dev) : Nat := dev.numMiscIrqs + 2 * (dev.ifaces.map Iface.numQps).sum

theorem Dev.Made.irqs_length {dev : Dev} (made : dev.Made) : dev.irqs.length = dev.numIrqs := by
  have queues : ∀ ifaces : List Iface,
      (∀ iface ∈ ifaces, iface.rxIrq.length = iface.numQps ∧ iface.txIrq.length = iface.numQps) →
      (ifaceIrqs ifaces).length = 2 * (ifaces.map Iface.numQps).sum := by
    intro ifaces sizes
    induction ifaces with
    | nil => rfl
    | cons iface ifaces ih =>
        rw [List.forall_mem_cons] at sizes
        have rest := ih sizes.2
        simp only [ifaceIrqs, List.flatMap_cons, List.length_append, List.map_cons, List.sum_cons] at rest ⊢
        omega
  rw [Dev.irqs, List.length_append, made.misc, Dev.numIrqs]
  exact congrArg _ (queues dev.ifaces made.queues)

section

variable {malloc : Nat → Bool} (granted : ∀ n, malloc n = true) (names : List (List Char)) {dev : Dev}

include granted

/-- The call reads the vectors in ascending order. -/
theorem ufpVfioIrqVectorGet_eq : ufpVfioIrqVectorGet malloc (some names) dev =
    match takeVectors dev.miscIrq (ascending (listed names)) with
    | (miscIrq, false, _) => (false, { dev with miscIrq })
    | (miscIrq, true, head) =>
        ((takeIfaces dev.ifaces head).2, { dev with miscIrq, ifaces := (takeIfaces dev.ifaces head).1 }) := by
  simp only [ufpVfioIrqVectorGet, readEntries_eq granted names 0 List.Pairwise.nil, List.nil_append]

theorem ufpVfioIrqVectorGet_enough (enough : dev.irqs.length ≤ (listed names).length) :
    (ufpVfioIrqVectorGet malloc (some names) dev).1 = true ∧
      (ufpVfioIrqVectorGet malloc (some names) dev).2.irqs = assign dev.irqs (ascending (listed names)) := by
  have count : (ascending (listed names)).length = (listed names).length := List.length_insertionSort _ _
  rw [← count, Dev.irqs, List.length_append] at enough
  have left : (ifaceIrqs dev.ifaces).length ≤ ((ascending (listed names)).drop dev.miscIrq.length).length := by
    rw [List.length_drop]
    exact Nat.le_sub_of_add_le (by rw [Nat.add_comm]; exact enough)
  obtain ⟨done, rest⟩ := takeIfaces_enough left
  rw [ufpVfioIrqVectorGet_eq granted, takeVectors_enough (by omega)]
  refine ⟨done, ?_⟩
  rw [Dev.irqs, Dev.irqs, assign_append]
  exact congrArg _ rest

theorem ufpVfioIrqVectorGet_short (short : (listed names).length < dev.irqs.length) :
    (ufpVfioIrqVectorGet malloc (some names) dev).1 = false := by
  have count : (ascending (listed names)).length = (listed names).length := List.length_insertionSort _ _
  rw [← count, Dev.irqs, List.length_append] at short
  rw [ufpVfioIrqVectorGet_eq granted]
  by_cases misc : dev.miscIrq.length ≤ (ascending (listed names)).length
  · rw [takeVectors_enough misc]
    refine takeIfaces_short ?_
    rw [List.length_drop]
    exact Nat.sub_lt_left_of_lt_add misc short
  · have stop := takeVectors_short (Nat.lt_of_not_le misc)
    rcases taken : takeVectors dev.miscIrq (ascending (listed names)) with ⟨miscIrq, done, rest⟩
    rw [taken] at stop
    obtain rfl : done = false := stop
    rfl

end

/-- **The vectors are given out in ascending order, whatever the directory's.** For
every listing of the directory and every device as `ufp_up` passes it: the call
returns 0 exactly if there are at least as many vectors as interrupts; then interrupt
`k`, counting the misc interrupts and for each interface the RX and the TX interrupts,
gets the `k`-th smallest vector, and nothing else of it changes; and a listing with
the same vectors in another order gives the same result. -/
theorem irq_vectors_in_order {malloc : Nat → Bool} (granted : ∀ n, malloc n = true) {dev : Dev}
    (made : dev.Made) (names : List (List Char)) :
    let result := ufpVfioIrqVectorGet malloc (some names) dev
    (result.1 = true ↔ dev.numMiscIrqs + 2 * (dev.ifaces.map Iface.numQps).sum ≤ (listed names).length) ∧
      (result.1 = true →
        result.2.irqs.map UfpIrq.vector = (ascending (listed names)).take dev.numIrqs ∧
        result.2.irqs.map (fun irq => (irq.fd, irq.entryIdx)) =
          dev.irqs.map fun irq => (irq.fd, irq.entryIdx)) ∧
      ∀ names', (listed names').Perm (listed names) → ufpVfioIrqVectorGet malloc (some names') dev = result := by
  intro result
  have total : dev.irqs.length = dev.numIrqs := made.irqs_length
  have returns : result.1 = true ↔ dev.irqs.length ≤ (listed names).length := by
    constructor
    · intro done
      by_contra short
      cases (ufpVfioIrqVectorGet_short granted names (Nat.lt_of_not_le short)).symm.trans done
    · exact fun enough => (ufpVfioIrqVectorGet_enough granted names enough).1
  refine ⟨by rw [returns, total, Dev.numIrqs], fun done => ?_, fun names' same => ?_⟩
  · have enough := returns.mp done
    have count : (ascending (listed names)).length = (listed names).length := List.length_insertionSort _ _
    rw [(ufpVfioIrqVectorGet_enough granted names enough).2, ← total]
    exact assign_vectors (by rw [count]; exact enough)
  · have sorted : ascending (listed names') = ascending (listed names) :=
      ascending_eq (List.pairwise_insertionSort _ _) ((List.perm_insertionSort _ _).trans same.symm)
    rw [ufpVfioIrqVectorGet_eq granted, sorted]
    exact (ufpVfioIrqVectorGet_eq granted names).symm

/-- One misc interrupt and one queue pair. -/
def sampleIrqs : Dev :=
  { numMiscIrqs := 1, miscIrq := [⟨3, 0, 0⟩]
    ifaces := [{ numQps := 1, baseQp := 0, irqRate := 0, rxIrq := [⟨4, 1, 0⟩], txIrq := [⟨5, 2, 0⟩] }] }

/-- The entries `.`, `61`, `9` and `60` of a directory. -/
theorem irq_vectors_in_order_sample :
    let result := ufpVfioIrqVectorGet (fun _ => true)
      (some [".".toList, "61".toList, "9".toList, "60".toList]) sampleIrqs
    result.1 = true ∧ result.2.irqs.map UfpIrq.vector = [9, 60, 61] := by
  intro result
  have made : sampleIrqs.Made := ⟨rfl, by simp [sampleIrqs]⟩
  have names : listed [".".toList, "61".toList, "9".toList, "60".toList] = [61, 9, 60] := by decide +kernel
  obtain ⟨returns, given, -⟩ := irq_vectors_in_order (fun _ => rfl) made
    [".".toList, "61".toList, "9".toList, "60".toList]
  have done : result.1 = true := returns.mpr (by rw [names]; decide)
  refine ⟨done, (given done).1.trans ?_⟩
  rw [names]
  decide

/-! ## The device that `ufp_up` passes -/

theorem upIfaces_sizes {sys : Answers} {numQps irqIdx next : Nat} {up : List Iface} {host host' : Host}
    (done : upIfaces sys numQps ifaces irqIdx host = (up, true, next, host')) :
    ∀ iface ∈ up, iface.rxIrq.length = iface.numQps ∧ iface.txIrq.length = iface.numQps := by
  induction ifaces generalizing irqIdx host up with
  | nil =>
      cases done
      simp
  | cons iface ifaces ih =>
      rw [upIfaces] at done
      rcases first : ufpUpIface sys { iface with numQps } host with ⟨_ | upped, middle⟩
      · simp [first] at done
      rcases rest : upIfaces sys numQps ifaces ((irqIdx + numQps * 2) % 2 ^ 32) middle with
        ⟨others, flag, after, last⟩
      simp only [first, rest, Prod.mk.injEq] at done
      obtain ⟨rfl, rfl, rfl, rfl⟩ := done
      obtain ⟨rxIrq, txIrq, rfl, rxLength, txLength, -⟩ := ufpUpIface_some first
      rw [List.forall_mem_cons]
      exact ⟨⟨rxLength, txLength⟩, ih rest⟩

/-- The arrays of a device that is up have their sizes. -/
theorem ufpUp_made {sys : Answers} {dev dev' : Dev} {numQps : Nat} {host host' : Host} {set : IrqSet}
    (up : ufpUp sys dev numQps host = (some (dev', set), host')) : dev'.Made := by
  simp only [ufpUp] at up
  rcases block : malloc sys host with ⟨_ | _, host₁⟩
  · simp [block] at up
  rcases opened : openIrqs sys dev.numMiscIrqs 0 host₁ with ⟨miscIrq, _ | _, irqIdx, host₂⟩
  · simp [block, opened] at up
  rcases ifacesUp : upIfaces sys numQps dev.ifaces irqIdx host₂ with ⟨ifaces, _ | _, next, host₃⟩
  · simp [block, opened, ifacesUp] at up
  simp only [block, opened, ifacesUp] at up
  rcases passed : ufpVfioIrqSet sys { dev with miscIrq, ifaces } next host₃ with ⟨_ | set', host₄⟩
  · simp only [passed] at up
    cases up
  simp only [passed] at up
  split at up
  · obtain ⟨rfl, rfl⟩ := Prod.mk.inj (Option.some.inj (Prod.mk.inj up).1)
    exact ⟨(openIrqs_done opened).1, upIfaces_sizes ifacesUp⟩
  · cases up

end Ufp.Lib.Irq
