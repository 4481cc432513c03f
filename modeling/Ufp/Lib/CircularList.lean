/-
# Ufp.Lib.CircularList — the circular lists of `lib_list.h`

Interfaces, interrupts, sessions, drivers and descriptors are kept in lists of `struct
list_node`: circular, doubly linked, with a `struct list_head` as the sentinel. The
functions are translated store by store over an explicit heap, in which any number of
heads and entries live.

With the lemmas of `Theory.Circular` each function is an operation on the list of
entries, and leaves every other list as it is (`circular_refines_list`). The loops over
a list come in both directions; `list_for_each_safe` reads the link of the current entry
before its body runs.
-/
import Ufp.Theory.Circular
import Mathlib.Data.List.Nodup

namespace Ufp.Lib.CircularList

open Ufp.Theory.Circular

set_option autoImplicit false

/-! ## The code -/

/-- A `struct list_node`: the one in a head, or the one in an entry. -/
inductive Node (η ν : Type) where
  | head (h : η)
  | entry (n : ν)
  deriving DecidableEq

section Code

variable {α : Type} [DecidableEq α]

/-- `node->next = value`. -/
def setNext (node value : α) (links : Links α) : Links α :=
  { links with next := Function.update links.next node value }

/-- `node->prev = value`. -/
def setPrev (node value : α) (links : Links α) : Links α :=
  { links with prev := Function.update links.prev node value }

/-- `list_add_before`. -/
def listAddBefore (node new : α) (links : Links α) : Links α :=
  let links := setNext new node links
  let links := setPrev new (links.prev node) links
  let links := setNext (links.prev node) new links
  setPrev node new links

/-- `list_add_after`. -/
def listAddAfter (node new : α) (links : Links α) : Links α :=
  let links := setNext new (links.next node) links
  let links := setPrev new node links
  let links := setPrev (links.next node) new links
  setNext node new links

/-- `list_del`. -/
def listDel (node : α) (links : Links α) : Links α :=
  let links := setNext (links.prev node) (links.next node) links
  setPrev (links.next node) (links.prev node) links

variable {η ν : Type} [DecidableEq η] [DecidableEq ν]

/-- `list_add_first`. -/
def listAddFirst (h : η) (new : ν) (links : Links (Node η ν)) : Links (Node η ν) :=
  listAddAfter (.head h) (.entry new) links

/-- `list_add_last`. -/
def listAddLast (h : η) (new : ν) (links : Links (Node η ν)) : Links (Node η ν) :=
  listAddBefore (.head h) (.entry new) links

/-- `list_del_first`. -/
def listDelFirst (h : η) (links : Links (Node η ν)) : Links (Node η ν) := listDel (links.next (.head h)) links

/-- `list_del_last`. -/
def listDelLast (h : η) (links : Links (Node η ν)) : Links (Node η ν) := listDel (links.prev (.head h)) links

/-- `list_empty`. -/
def listEmpty (h : η) (links : Links (Node η ν)) : Bool := links.next (.head h) = .head h

/-- `list_init`. -/
def listInit (h : η) (links : Links (Node η ν)) : Links (Node η ν) :=
  setPrev (.head h) (.head h) (setNext (.head h) (.head h) links)

/-- `list_for_each_dir`, with a body that leaves the links alone: the nodes that are visited.
`none` means that `fuel` is used up. -/
def forEachDir (dir : Node η ν → Node η ν) (h : η) : Nat → Node η ν → Option (List (Node η ν))
  | 0, data => if data = .head h then some [] else none
  | fuel + 1, data => if data = .head h then some [] else (forEachDir dir h fuel (dir data)).map (data :: ·)

/-- `list_for_each`. -/
def listForEach (fuel : Nat) (h : η) (links : Links (Node η ν)) : Option (List (Node η ν)) :=
  forEachDir links.next h fuel (links.next (.head h))

/-- `list_for_each_rev`. -/
def listForEachRev (fuel : Nat) (h : η) (links : Links (Node η ν)) : Option (List (Node η ν)) :=
  forEachDir links.prev h fuel (links.prev (.head h))

/-- `list_for_each_safe` from its test on; the body may take the current node out of the list. -/
def forEachSafe (body : Node η ν → Links (Node η ν) → Links (Node η ν)) (h : η) :
    Nat → (data temp : Node η ν) → Links (Node η ν) → Option (List (Node η ν) × Links (Node η ν))
  | 0, data, _, links => if data = .head h then some ([], links) else none
  | fuel + 1, data, temp, links =>
      if data = .head h then some ([], links)
      else
        let links := body data links
        (forEachSafe body h fuel temp (links.next temp) links).map fun (visited, links) => (data :: visited, links)

/-- `list_for_each_safe`. -/
def listForEachSafe (body : Node η ν → Links (Node η ν) → Links (Node η ν)) (fuel : Nat) (h : η)
    (links : Links (Node η ν)) : Option (List (Node η ν) × Links (Node η ν)) :=
  let data := links.next (.head h)
  forEachSafe body h fuel data (links.next data) links

end Code

/-! ## Stores -/

section Stores

variable {α : Type} [DecidableEq α] {node new : α} {links : Links α}

theorem listAddBefore_inserted (apart : node ≠ new) (far : links.prev node ≠ new) :
    Inserted links (listAddBefore node new links) (links.prev node) node new := by
  have back : Function.update links.prev new (links.prev node) node = links.prev node :=
    Function.update_of_ne apart ..
  refine ⟨?_, ?_, ?_, ?_, fun x left off => ?_, fun x right off => ?_⟩ <;>
    simp only [listAddBefore, setNext, setPrev, back]
  · rw [Function.update_of_ne far.symm, Function.update_self]
  · rw [Function.update_of_ne apart.symm, Function.update_self]
  · rw [Function.update_self]
  · rw [Function.update_self]
  · rw [Function.update_of_ne left, Function.update_of_ne off]
  · rw [Function.update_of_ne right, Function.update_of_ne off]

theorem listAddAfter_inserted (apart : node ≠ new) (far : links.next node ≠ new) :
    Inserted links (listAddAfter node new links) node (links.next node) new := by
  have ahead : Function.update links.next new (links.next node) node = links.next node :=
    Function.update_of_ne apart ..
  refine ⟨?_, ?_, ?_, ?_, fun x left off => ?_, fun x right off => ?_⟩ <;>
    simp only [listAddAfter, setNext, setPrev, ahead]
  · rw [Function.update_of_ne apart.symm, Function.update_self]
  · rw [Function.update_of_ne far.symm, Function.update_self]
  · rw [Function.update_self]
  · rw [Function.update_self]
  · rw [Function.update_of_ne left, Function.update_of_ne off]
  · rw [Function.update_of_ne right, Function.update_of_ne off]

theorem listDel_removed (apart : links.prev node ≠ node) :
    Removed links (listDel node links) (links.prev node) (links.next node) node := by
  have ahead : Function.update links.next (links.prev node) (links.next node) node = links.next node :=
    Function.update_of_ne apart.symm ..
  refine ⟨?_, ?_, fun x left _ => ?_, fun x right _ => ?_⟩ <;> simp only [listDel, setNext, setPrev, ahead]
  · rw [Function.update_self]
  · rw [Function.update_self]
  · rw [Function.update_of_ne left]
  · rw [Function.update_of_ne right]

end Stores

/-! ## Lists -/

section Lists

variable {η ν : Type} {links links' : Links (Node η ν)} {h : η} {n new : ν} {entries front back : List ν}

/-- The list of head `h`. -/
def IsList (links : Links (Node η ν)) (h : η) (entries : List ν) : Prop :=
  Circle links (.head h) (entries.map .entry)

/-- The list of `h` has become `entries`, and every other list is as it was, provided that it
has none of the entries `fresh`. -/
structure Becomes (links links' : Links (Node η ν)) (h : η) (entries fresh : List ν) : Prop where
  list : IsList links' h entries
  others : ∀ other list, other ≠ h → IsList links other list → (∀ n ∈ list, n ∉ fresh) → IsList links' other list

theorem IsList.nodup (list : IsList links h entries) : entries.Nodup :=
  List.Nodup.of_map Node.entry (List.nodup_cons.mp list.2).2

theorem mem_nodes {x : Node η ν} : x ∈ Node.head h :: entries.map .entry ↔ x = .head h ∨ ∃ n ∈ entries, x = .entry n := by
  simp only [List.mem_cons, List.mem_map, eq_comm]

/-- What touches a list and fresh entries only leaves the other lists alone. -/
theorem Becomes.of_touches {after fresh : List ν} (before : IsList links h entries) (list : IsList links' h after)
    (touches : Touches links links' ((fresh.map .entry) ++ Node.head h :: entries.map .entry)) :
    Becomes links links' h after fresh := by
  refine ⟨list, fun other theirs differs circle absent => circle.frame touches fun x member touched => ?_⟩
  have outside : Node.head other ∉ Node.head h :: entries.map Node.entry := by
    intro inside
    rcases mem_nodes.mp inside with same | ⟨n, -, same⟩
    · exact differs (Node.head.inj same)
    · cases same
  rcases List.mem_append.mp touched with new | own
  · obtain ⟨n, isNew, rfl⟩ := List.mem_map.mp new
    rcases mem_nodes.mp member with same | ⟨m, among, same⟩
    · cases same
    · exact absent m among (Node.entry.inj same ▸ isNew)
  · exact before.apart circle outside x member own

theorem entry_fresh (absent : new ∉ entries) : Node.entry new ∉ Node.head h :: entries.map Node.entry := by
  intro inside
  rcases mem_nodes.mp inside with same | ⟨n, among, same⟩
  · cases same
  · exact absent (Node.entry.inj same ▸ among)

/-- An entry that comes after a part of the list. -/
theorem IsList.insert (before : IsList links h (front ++ back)) (absent : new ∉ front ++ back)
    (inserted : Inserted links links' ((front.map Node.entry).getLastD (.head h))
      ((back.map Node.entry).headD (.head h)) (.entry new)) :
    Becomes links links' h (front ++ new :: back) [new] := by
  have circle := before
  have fresh := entry_fresh (h := h) absent
  rw [IsList, List.map_append] at circle
  rw [List.map_append] at fresh
  obtain ⟨after, touches⟩ := circle.insert inserted fresh
  refine .of_touches before ?_ (touches.mono ?_)
  · rw [IsList, List.map_append, List.map_cons]
    exact after
  · rw [List.map_append]
    exact List.Subset.refl _

/-- An entry that leaves the list. -/
theorem IsList.remove (before : IsList links h (front ++ n :: back))
    (removed : Removed links links' ((front.map Node.entry).getLastD (.head h))
      ((back.map Node.entry).headD (.head h)) (.entry n)) :
    Becomes links links' h (front ++ back) [] := by
  have circle := before
  rw [IsList, List.map_append, List.map_cons] at circle
  obtain ⟨after, touches⟩ := circle.remove removed
  refine .of_touches before ?_ (touches.mono ?_)
  · rw [IsList, List.map_append]
    exact after
  · rw [List.map_append, List.map_cons]
    exact List.Subset.refl _

theorem IsList.neighbours (list : IsList links h (front ++ n :: back)) :
    links.prev (.entry n) = (front.map Node.entry).getLastD (.head h) ∧
      links.next (.entry n) = (back.map Node.entry).headD (.head h) := by
  rw [IsList, List.map_append, List.map_cons] at list
  exact list.neighbours

theorem getLastD_ne (absent : new ∉ front) : (front.map Node.entry).getLastD (.head h) ≠ Node.entry new := by
  intro same
  have member := getLastD_mem (front.map Node.entry) (Node.head h)
  rw [same] at member
  exact entry_fresh absent member

theorem headD_ne (absent : new ∉ back) : (back.map Node.entry).headD (.head h) ≠ Node.entry new := by
  intro same
  have member := headD_mem (back.map Node.entry) (Node.head h)
  rw [same] at member
  refine entry_fresh (h := h) absent ?_
  rcases List.mem_append.mp member with inside | last
  · exact List.mem_cons_of_mem _ inside
  · cases List.mem_singleton.mp last

variable [DecidableEq η] [DecidableEq ν]

theorem listAddFirst_becomes (before : IsList links h entries) (absent : new ∉ entries) :
    Becomes links (listAddFirst h new links) h (new :: entries) [new] := by
  have start : IsList links h ([] ++ entries) := before
  have first : links.next (.head h) = (entries.map Node.entry).headD (.head h) := before.path.next_eq
  refine start.insert absent ?_
  rw [← first]
  exact listAddAfter_inserted nofun (by rw [first]; exact headD_ne absent)

theorem listAddLast_becomes (before : IsList links h entries) (absent : new ∉ entries) :
    Becomes links (listAddLast h new links) h (entries ++ [new]) [new] := by
  have whole : IsList links h (entries ++ []) := by rwa [List.append_nil]
  have last : links.prev (.head h) = (entries.map Node.entry).getLastD (.head h) := before.path.prev_eq
  refine whole.insert (by rwa [List.append_nil]) ?_
  rw [← last]
  exact listAddBefore_inserted nofun (by rw [last]; exact getLastD_ne absent)

theorem listAddBefore_becomes (before : IsList links h (front ++ n :: back)) (absent : new ∉ front ++ n :: back) :
    Becomes links (listAddBefore (.entry n) (.entry new) links) h (front ++ new :: n :: back) [new] := by
  obtain ⟨left, -⟩ := before.neighbours
  refine before.insert absent ?_
  rw [← left]
  refine listAddBefore_inserted ?_ ?_
  · rintro ⟨⟩
    exact absent (List.mem_append_right _ List.mem_cons_self)
  · rw [left]
    exact getLastD_ne fun inside => absent (List.mem_append_left _ inside)

theorem listAddAfter_becomes (before : IsList links h (front ++ n :: back)) (absent : new ∉ front ++ n :: back) :
    Becomes links (listAddAfter (.entry n) (.entry new) links) h (front ++ n :: new :: back) [new] := by
  obtain ⟨-, right⟩ := before.neighbours
  rw [List.append_cons] at before absent ⊢
  have last : ((front ++ [n]).map Node.entry).getLastD (.head h) = Node.entry n := by
    rw [List.map_append, List.map_singleton, List.getLastD_concat]
  refine before.insert absent ?_
  rw [last, ← right]
  refine listAddAfter_inserted ?_ ?_
  · rintro ⟨⟩
    exact absent (List.mem_append_left _ (List.mem_append_right _ List.mem_cons_self))
  · rw [right]
    exact headD_ne fun inside => absent (List.mem_append_right _ inside)

theorem listDel_becomes (before : IsList links h (front ++ n :: back)) :
    Becomes links (listDel (.entry n) links) h (front ++ back) [] := by
  obtain ⟨left, right⟩ := before.neighbours
  refine before.remove ?_
  rw [← left, ← right]
  refine listDel_removed ?_
  rw [left]
  exact getLastD_ne fun inside => (List.nodup_append.mp before.nodup).2.2 n inside n List.mem_cons_self rfl

theorem listDelFirst_becomes (before : IsList links h (n :: entries)) :
    Becomes links (listDelFirst h links) h entries [] := by
  have first : links.next (.head h) = Node.entry n := before.path.next_eq
  have start : IsList links h ([] ++ n :: entries) := before
  rw [listDelFirst, first]
  exact listDel_becomes start

theorem listDelLast_becomes (before : IsList links h (entries ++ [n])) :
    Becomes links (listDelLast h links) h entries [] := by
  have last : links.prev (.head h) = Node.entry n := by
    have eq := before.path.prev_eq
    rwa [List.map_append, List.map_singleton, List.getLastD_concat] at eq
  have done := listDel_becomes before
  rw [List.append_nil] at done
  rw [listDelLast, last]
  exact done

theorem listEmpty_iff (list : IsList links h entries) : listEmpty h links = true ↔ entries = [] := by
  rw [listEmpty, decide_eq_true_iff, list.path.next_eq]
  cases entries with
  | nil => exact ⟨fun _ => rfl, fun _ => rfl⟩
  | cons n entries => exact ⟨nofun, nofun⟩

theorem listInit_becomes (links : Links (Node η ν)) (h : η) : Becomes links (listInit h links) h ([] : List ν) [] := by
  have touches : Touches links (listInit h links) [.head h] := by
    intro x outside
    have other : x ≠ .head h := fun same => outside (List.mem_singleton.mpr same)
    exact ⟨Function.update_of_ne other .., Function.update_of_ne other ..⟩
  refine ⟨⟨⟨Function.update_self .., Function.update_self ..⟩, List.nodup_singleton _⟩, ?_⟩
  intro other list differs circle _
  refine circle.frame touches fun x member touched => ?_
  rw [List.mem_singleton.mp touched] at member
  rcases mem_nodes.mp member with same | ⟨n, -, same⟩
  · exact differs (Node.head.inj same).symm
  · cases same

/-! ## Loops -/

variable {fuel : Nat}

/-- A loop that goes along the links visits the entries of the list. -/
theorem forEachDir_visits {a : Node η ν} (path : Path links a (entries.map .entry) (.head h))
    (enough : entries.length ≤ fuel) : forEachDir links.next h fuel (links.next a) = some (entries.map .entry) := by
  induction entries generalizing a fuel with
  | nil =>
      rw [path.next_eq]
      cases fuel <;> exact if_pos rfl
  | cons n entries ih =>
      obtain ⟨fuel, rfl⟩ := Nat.exists_eq_add_one.mpr (Nat.zero_lt_of_lt enough)
      obtain ⟨next, -, later⟩ := path
      rw [next, forEachDir, if_neg nofun, ih later (Nat.le_of_succ_le_succ enough)]
      rfl

theorem listForEach_visits (list : IsList links h entries) (enough : entries.length ≤ fuel) :
    listForEach fuel h links = some (entries.map .entry) :=
  forEachDir_visits list.path enough

/-- The other direction is the same loop over the flipped links. -/
theorem listForEachRev_visits (list : IsList links h entries) (enough : entries.length ≤ fuel) :
    listForEachRev fuel h links = some (entries.reverse.map .entry) := by
  have back : Path links.flip (.head h) (entries.reverse.map .entry) (.head h) := by
    rw [List.map_reverse]
    exact list.path.flip
  exact forEachDir_visits back (by rwa [List.length_reverse])

/-- The body of a loop takes the current entry out if `drop` says so, and leaves the links
alone if not. The own links of an entry that was taken out may be anything afterwards. -/
structure Deletes (drop : ν → Bool) (body : Node η ν → Links (Node η ν) → Links (Node η ν)) : Prop where
  next : ∀ {n}, drop n = true → ∀ links x, x ≠ .entry n →
    (body (.entry n) links).next x = (listDel (.entry n) links).next x
  prev : ∀ {n}, drop n = true → ∀ links x, x ≠ .entry n →
    (body (.entry n) links).prev x = (listDel (.entry n) links).prev x
  keep : ∀ {n}, drop n = false → ∀ links, body (.entry n) links = links

variable {drop : ν → Bool} {body : Node η ν → Links (Node η ν) → Links (Node η ν)} {kept rest : List ν}

theorem Deletes.removed (deletes : Deletes drop body) (dropped : drop n = true)
    (before : IsList links h (front ++ n :: back)) :
    Removed links (body (.entry n) links) ((front.map Node.entry).getLastD (.head h))
      ((back.map Node.entry).headD (.head h)) (.entry n) := by
  obtain ⟨left, right⟩ := before.neighbours
  have outside : n ∉ front := fun inside => (List.nodup_append.mp before.nodup).2.2 n inside n List.mem_cons_self rfl
  have later : n ∉ back := (List.nodup_cons.mp (List.nodup_append.mp before.nodup).2.1).1
  have away : links.prev (.entry n) ≠ .entry n := by
    rw [left]
    exact getLastD_ne outside
  have removed := listDel_removed away
  rw [left, right] at removed
  exact {
    next_left := (deletes.next dropped links _ (getLastD_ne outside)).trans removed.next_left
    prev_right := (deletes.prev dropped links _ (headD_ne later)).trans removed.prev_right
    next := fun x away other => (deletes.next dropped links x other).trans (removed.next x away other)
    prev := fun x away other => (deletes.prev dropped links x other).trans (removed.prev x away other) }

/-- One turn of the loop: the entry goes or stays. -/
theorem Deletes.turn (deletes : Deletes drop body) (before : IsList links h (kept ++ n :: rest)) :
    IsList (body (.entry n) links) h (kept ++ [n].filter (fun n => !drop n) ++ rest) ∧
      Touches links (body (.entry n) links) (.head h :: (kept ++ n :: rest).map .entry) := by
  cases dropped : drop n with
  | true =>
      have circle := before
      rw [IsList, List.map_append, List.map_cons] at circle
      obtain ⟨after, touches⟩ := circle.remove (deletes.removed dropped before)
      rw [← List.map_cons, ← List.map_append] at touches
      rw [← List.map_append] at after
      refine ⟨?_, touches⟩
      simpa [IsList, dropped] using after
  | false =>
      rw [deletes.keep dropped]
      refine ⟨?_, fun _ _ => ⟨rfl, rfl⟩⟩
      simpa [dropped] using before

/-- The walk over what is left of a list, with the entries that were kept before it. -/
theorem forEachSafe_visits (deletes : Deletes drop body) (before : IsList links h (kept ++ rest))
    (enough : rest.length ≤ fuel) :
    ∃ links', forEachSafe body h fuel ((rest.map Node.entry).headD (.head h))
        (links.next ((rest.map Node.entry).headD (.head h))) links = some (rest.map .entry, links') ∧
      IsList links' h (kept ++ rest.filter fun n => !drop n) ∧
        Touches links links' (.head h :: (kept ++ rest).map .entry) := by
  induction rest generalizing links kept fuel with
  | nil =>
      refine ⟨links, ?_, before, fun _ _ => ⟨rfl, rfl⟩⟩
      cases fuel <;> exact if_pos rfl
  | cons n rest ih =>
      obtain ⟨fuel, rfl⟩ := Nat.exists_eq_add_one.mpr (Nat.zero_lt_of_lt enough)
      -- the next entry was read before the body ran
      obtain ⟨-, next⟩ := before.neighbours
      obtain ⟨after, touches⟩ := deletes.turn before
      obtain ⟨links', loop, left, touches'⟩ := ih after (Nat.le_of_succ_le_succ enough)
      refine ⟨links', ?_, ?_, touches.trans (touches'.mono ?_)⟩
      · rw [List.map_cons, List.headD_cons, next, forEachSafe, if_neg nofun]
        dsimp only
        rw [loop]
        rfl
      · rwa [List.append_assoc, ← List.filter_append] at left
      · intro x inside
        rcases mem_nodes.mp inside with rfl | ⟨m, member, rfl⟩
        · exact List.mem_cons_self
        · refine List.mem_cons_of_mem _ (List.mem_map_of_mem ?_)
          simp only [List.mem_append, List.mem_filter, List.mem_cons] at member ⊢
          grind

theorem listForEachSafe_visits (deletes : Deletes drop body) (before : IsList links h entries)
    (enough : entries.length ≤ fuel) :
    ∃ links', listForEachSafe body fuel h links = some (entries.map .entry, links') ∧
      Becomes links links' h (entries.filter fun n => !drop n) [] := by
  have start : IsList links h ([] ++ entries) := before
  obtain ⟨links', loop, left, touches⟩ := forEachSafe_visits deletes start enough
  refine ⟨links', ?_, .of_touches before left touches⟩
  rw [listForEachSafe, before.path.next_eq]
  exact loop

end Lists

/-- **The operations on circular lists are operations on lists.** On a well-formed list,
`list_add_first`, `list_add_last`, `list_add_after`, `list_add_before`, `list_del`,
`list_del_first` and `list_del_last` give a well-formed list with the new entry first, last,
right after or right before an entry, or without the entry; all other lists are unchanged.
`list_for_each` visits the entries in order and `list_for_each_rev` from the last to the
first. `list_for_each_safe` with a body that deletes the current entry, always or for some
entries, ends and has visited each entry once; the others are left. -/
theorem circular_refines_list {η ν : Type} [DecidableEq η] [DecidableEq ν] (links : Links (Node η ν)) (h : η) :
    (∀ entries, IsList links h entries →
      (∀ new ∉ entries, Becomes links (listAddFirst h new links) h (new :: entries) [new] ∧
        Becomes links (listAddLast h new links) h (entries ++ [new]) [new]) ∧
      (listEmpty h links = true ↔ entries = []) ∧
      (∀ fuel ≥ entries.length, listForEach fuel h links = some (entries.map .entry) ∧
        listForEachRev fuel h links = some (entries.reverse.map .entry)) ∧
      ∀ drop body, Deletes drop body → ∀ fuel ≥ entries.length,
        ∃ links', listForEachSafe body fuel h links = some (entries.map .entry, links') ∧ entries.Nodup ∧
          Becomes links links' h (entries.filter fun n => !drop n) []) ∧
    (∀ front n back, IsList links h (front ++ n :: back) →
      (∀ new ∉ front ++ n :: back,
        Becomes links (listAddAfter (.entry n) (.entry new) links) h (front ++ n :: new :: back) [new] ∧
        Becomes links (listAddBefore (.entry n) (.entry new) links) h (front ++ new :: n :: back) [new]) ∧
      Becomes links (listDel (.entry n) links) h (front ++ back) []) ∧
    ∀ entries n, (IsList links h (n :: entries) → Becomes links (listDelFirst h links) h entries []) ∧
      (IsList links h (entries ++ [n]) → Becomes links (listDelLast h links) h entries []) := by
  refine ⟨fun entries list => ⟨fun new absent => ?_, listEmpty_iff list, fun fuel enough => ?_, ?_⟩,
    fun front n back list => ⟨fun new absent => ?_, listDel_becomes list⟩,
    fun entries n => ⟨listDelFirst_becomes, listDelLast_becomes⟩⟩
  · exact ⟨listAddFirst_becomes list absent, listAddLast_becomes list absent⟩
  · exact ⟨listForEach_visits list enough, listForEachRev_visits list enough⟩
  · intro drop body deletes fuel enough
    obtain ⟨links', loop, becomes⟩ := listForEachSafe_visits deletes list enough
    exact ⟨links', loop, list.nodup, becomes⟩
  · exact ⟨listAddAfter_becomes list absent, listAddBefore_becomes list absent⟩

/-- Heads 0 and 1, with entries 1 and 2 and with none. -/
def sampleCircles : Links (Node Nat Nat) where
  next
    | .head 0 => .entry 1
    | .entry 1 => .entry 2
    | .entry 2 => .head 0
    | x => x
  prev
    | .head 0 => .entry 2
    | .entry 1 => .head 0
    | .entry 2 => .entry 1
    | x => x

theorem circular_refines_list_sample :
    IsList sampleCircles 0 [1, 2] ∧ IsList sampleCircles 1 [] ∧
      Becomes sampleCircles (listAddLast 0 3 sampleCircles) 0 [1, 2, 3] [3] ∧
      Becomes sampleCircles (listAddBefore (.entry 2) (.entry 3) sampleCircles) 0 [1, 3, 2] [3] ∧
      listForEachRev 2 0 sampleCircles = some [.entry 2, .entry 1] ∧
      Becomes sampleCircles (listDelLast 0 sampleCircles) 0 [1] [] := by
  have list : IsList sampleCircles 0 [1, 2] := ⟨⟨rfl, rfl, rfl, rfl, rfl, rfl⟩, by decide⟩
  obtain ⟨whole, around, ends⟩ := circular_refines_list sampleCircles 0
  exact ⟨list, ⟨⟨rfl, rfl⟩, by decide⟩, ((whole _ list).1 3 (by decide)).2, ((around [1] 2 [] list).1 3 (by decide)).2,
    ((whole _ list).2.2.1 2 (Nat.le_refl _)).2, (ends [1] 2).2 list⟩

end Ufp.Lib.CircularList
