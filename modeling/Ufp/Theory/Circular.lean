/-
# Ufp.Theory.Circular — circular doubly linked lists

Every node has a link to the next node and one to the previous node. `Path links a nodes b`
says that the next links lead from `a` through `nodes` to `b`, and the previous links
back. A circular list with the sentinel `head` is a path from `head` to itself that meets
no node twice (`Circle`).

A node is put between two neighbours, or two nodes become neighbours, by changing one link
of each (`Inserted`, `Removed`); the path then has one node more or less
(`Path.insert`, `Path.remove`). What a circle is depends on the links of its own nodes
only, and circles whose sentinels are not in each other are apart (`Circle.apart`).
-/
import Mathlib.Data.List.Basic
import Mathlib.Logic.Function.Basic

namespace Ufp.Theory.Circular

set_option autoImplicit false

@[ext]
structure Links (ν : Type) where
  next : ν → ν
  prev : ν → ν

variable {ν : Type}

/-- The same nodes, seen from the other end. -/
def Links.flip (links : Links ν) : Links ν := ⟨links.prev, links.next⟩

/-- From `a` through `nodes` to `b` and back. -/
def Path (links : Links ν) : ν → List ν → ν → Prop
  | a, [], b => links.next a = b ∧ links.prev b = a
  | a, n :: nodes, b => links.next a = n ∧ links.prev n = a ∧ Path links n nodes b

section Path

variable {links links' : Links ν} {a b n new : ν} {nodes front back : List ν}

theorem path_append : Path links a (front ++ n :: back) b ↔ Path links a front n ∧ Path links n back b := by
  induction front generalizing a with
  | nil => exact and_assoc.symm
  | cons m front ih =>
      show _ ∧ _ ∧ Path links m (front ++ n :: back) b ↔ (_ ∧ _ ∧ Path links m front n) ∧ _
      rw [ih, and_assoc, and_assoc]

theorem Path.flip (path : Path links a nodes b) : Path links.flip b nodes.reverse a := by
  induction nodes generalizing a with
  | nil => exact ⟨path.2, path.1⟩
  | cons n nodes ih =>
      obtain ⟨next, prev, later⟩ := path
      rw [List.reverse_cons]
      exact path_append.mpr ⟨ih later, prev, next⟩

/-- A path reads the next links of all nodes but the last and the previous links of all but
the first. -/
theorem Path.congr (path : Path links a nodes b) (next : ∀ x ∈ a :: nodes, links'.next x = links.next x)
    (prev : ∀ x ∈ nodes ++ [b], links'.prev x = links.prev x) : Path links' a nodes b := by
  induction nodes generalizing a with
  | nil => exact ⟨(next a List.mem_cons_self).trans path.1, (prev b List.mem_cons_self).trans path.2⟩
  | cons n nodes ih =>
      obtain ⟨first, back, later⟩ := path
      refine ⟨(next a List.mem_cons_self).trans first, (prev n List.mem_cons_self).trans back, ih later ?_ ?_⟩
      · exact fun x inside => next x (List.mem_cons_of_mem _ inside)
      · exact fun x inside => prev x (List.mem_cons_of_mem _ inside)

theorem Path.next_eq (path : Path links a nodes b) : links.next a = nodes.headD b := by
  cases nodes with
  | nil => exact path.1
  | cons n nodes => exact path.1

theorem Path.prev_eq (path : Path links a nodes b) : links.prev b = nodes.getLastD a := by
  induction nodes generalizing a with
  | nil => exact path.2
  | cons n nodes ih =>
      rw [List.getLastD_cons]
      exact ih path.2.2

theorem headD_mem (nodes : List ν) (b : ν) : nodes.headD b ∈ nodes ++ [b] := by
  cases nodes with
  | nil => exact List.mem_cons_self
  | cons n nodes => exact List.mem_cons_self

theorem getLastD_mem (nodes : List ν) (a : ν) : nodes.getLastD a ∈ a :: nodes := by
  induction nodes generalizing a with
  | nil => exact List.mem_cons_self
  | cons n nodes ih =>
      rw [List.getLastD_cons]
      exact List.mem_cons_of_mem _ (ih n)

end Path

/-! ## A node more, a node less -/

/-- `new` is put between `l` and `r`. -/
structure Inserted (links links' : Links ν) (l r new : ν) : Prop where
  next_new : links'.next new = r
  prev_new : links'.prev new = l
  next_left : links'.next l = new
  prev_right : links'.prev r = new
  next : ∀ x, x ≠ l → x ≠ new → links'.next x = links.next x
  prev : ∀ x, x ≠ r → x ≠ new → links'.prev x = links.prev x

/-- `l` and `r` become neighbours; the links of `n`, which was between them, may be anything. -/
structure Removed (links links' : Links ν) (l r n : ν) : Prop where
  next_left : links'.next l = r
  prev_right : links'.prev r = l
  next : ∀ x, x ≠ l → x ≠ n → links'.next x = links.next x
  prev : ∀ x, x ≠ r → x ≠ n → links'.prev x = links.prev x

section Change

variable {links links' : Links ν} {a b n new : ν} {front back : List ν}

/-- Induction along the part of the path before the new node. -/
theorem Path.insert (path : Path links a (front ++ back) b)
    (inserted : Inserted links links' (front.getLastD a) (back.headD b) new) (sources : (a :: front ++ back).Nodup)
    (targets : (front ++ back ++ [b]).Nodup) (fresh : new ∉ a :: front ++ back ++ [b]) :
    Path links' a (front ++ new :: back) b := by
  induction front generalizing a with
  | nil =>
      refine ⟨inserted.next_left, inserted.prev_new, ?_⟩
      cases back with
      | nil => exact ⟨inserted.next_new, inserted.prev_right⟩
      | cons r back =>
          refine ⟨inserted.next_new, inserted.prev_right, path.2.2.congr (fun x inside => ?_) fun x inside => ?_⟩
          · refine inserted.next x ?_ ?_
            · rintro rfl
              exact (List.nodup_cons.mp sources).1 inside
            · rintro rfl
              exact fresh (List.mem_cons_of_mem _ (List.mem_append_left _ inside))
          · refine inserted.prev x ?_ ?_
            · rintro rfl
              exact (List.nodup_cons.mp targets).1 inside
            · rintro rfl
              exact fresh (List.mem_cons_of_mem _ (List.mem_cons_of_mem _ inside))
  | cons m front ih =>
      obtain ⟨first, before, later⟩ := path
      rw [List.getLastD_cons] at inserted
      obtain ⟨apart, sources'⟩ := List.nodup_cons.mp sources
      obtain ⟨apart', targets'⟩ := List.nodup_cons.mp targets
      refine ⟨?_, ?_, ih later inserted sources' targets' fun inside => fresh (List.mem_cons_of_mem _ inside)⟩
      · refine (inserted.next a ?_ ?_).trans first
        · intro same
          exact apart (same ▸ List.mem_append_left back (getLastD_mem front m))
        · rintro rfl
          exact fresh List.mem_cons_self
      · refine (inserted.prev m ?_ ?_).trans before
        · intro same
          refine apart' (same ▸ ?_)
          show back.headD b ∈ front ++ back ++ [b]
          rw [List.append_assoc]
          exact List.mem_append_right front (headD_mem back b)
        · rintro rfl
          exact fresh (List.mem_cons_of_mem _ List.mem_cons_self)

theorem Path.remove (path : Path links a (front ++ n :: back) b)
    (removed : Removed links links' (front.getLastD a) (back.headD b) n) (sources : (a :: front ++ n :: back).Nodup)
    (targets : (front ++ n :: back ++ [b]).Nodup) : Path links' a (front ++ back) b := by
  induction front generalizing a with
  | nil =>
      obtain ⟨-, -, later⟩ := path
      cases back with
      | nil => exact ⟨removed.next_left, removed.prev_right⟩
      | cons r back =>
          obtain ⟨apart, sources'⟩ := List.nodup_cons.mp sources
          obtain ⟨apart', targets'⟩ := List.nodup_cons.mp targets
          refine ⟨removed.next_left, removed.prev_right, later.2.2.congr (fun x inside => ?_) fun x inside => ?_⟩
          · refine removed.next x ?_ ?_
            · rintro rfl
              exact apart (List.mem_cons_of_mem _ inside)
            · rintro rfl
              exact (List.nodup_cons.mp sources').1 inside
          · refine removed.prev x ?_ ?_
            · rintro rfl
              exact (List.nodup_cons.mp targets').1 inside
            · rintro rfl
              exact apart' (List.mem_cons_of_mem _ inside)
  | cons m front ih =>
      obtain ⟨first, before, later⟩ := path
      rw [List.getLastD_cons] at removed
      obtain ⟨apart, sources'⟩ := List.nodup_cons.mp sources
      obtain ⟨apart', targets'⟩ := List.nodup_cons.mp targets
      refine ⟨?_, ?_, ih later removed sources' targets'⟩
      · refine (removed.next a ?_ ?_).trans first
        · intro same
          exact apart (same ▸ List.mem_append_left (n :: back) (getLastD_mem front m))
        · rintro rfl
          exact apart (List.mem_append_right _ List.mem_cons_self)
      · have inside : ∀ x ∈ n :: (back ++ [b]), x ∈ front ++ n :: back ++ [b] := by
          intro x member
          rw [List.append_assoc]
          exact List.mem_append_right front member
        refine (removed.prev m ?_ ?_).trans before
        · intro same
          exact apart' (inside m (same ▸ List.mem_cons_of_mem _ (headD_mem back b)))
        · rintro rfl
          exact apart' (inside m List.mem_cons_self)

end Change

/-! ## Circles -/

/-- The circular list of `head`. -/
structure Circle (links : Links ν) (head : ν) (nodes : List ν) : Prop where
  path : Path links head nodes head
  nodup : (head :: nodes).Nodup

/-- All links but those of some nodes are as they were. -/
def Touches (links links' : Links ν) (touched : List ν) : Prop :=
  ∀ x ∉ touched, links'.next x = links.next x ∧ links'.prev x = links.prev x

section Circle

variable {links links' links'' : Links ν} {head other n new : ν} {nodes others front back touched : List ν}

theorem Touches.trans (first : Touches links links' touched) (second : Touches links' links'' touched) :
    Touches links links'' touched :=
  fun x outside => ⟨(second x outside).1.trans (first x outside).1, (second x outside).2.trans (first x outside).2⟩

theorem Touches.mono {more : List ν} (touches : Touches links links' touched) (sub : touched ⊆ more) :
    Touches links links' more := fun x outside => touches x fun inside => outside (sub inside)

/-- A circle with none of the nodes touched stays. -/
theorem Circle.frame (circle : Circle links head nodes) (touches : Touches links links' touched)
    (apart : ∀ x ∈ head :: nodes, x ∉ touched) : Circle links' head nodes := by
  refine ⟨circle.path.congr (fun x inside => (touches x (apart x inside)).1) fun x inside => ?_, circle.nodup⟩
  refine (touches x (apart x ?_)).2
  rcases List.mem_append.mp inside with node | last
  · exact List.mem_cons_of_mem _ node
  · rw [List.mem_singleton.mp last]
    exact List.mem_cons_self

theorem Circle.targets (circle : Circle links head nodes) : (nodes ++ [head]).Nodup :=
  (List.perm_append_singleton head nodes).nodup_iff.mpr circle.nodup

theorem Circle.insert (circle : Circle links head (front ++ back))
    (inserted : Inserted links links' (front.getLastD head) (back.headD head) new)
    (fresh : new ∉ head :: (front ++ back)) :
    Circle links' head (front ++ new :: back) ∧ Touches links links' (new :: head :: (front ++ back)) := by
  refine ⟨⟨circle.path.insert inserted circle.nodup circle.targets ?_, ?_⟩, fun x outside => ⟨?_, ?_⟩⟩
  · intro inside
    rcases List.mem_append.mp inside with node | last
    · exact fresh node
    · rw [List.mem_singleton.mp last] at fresh
      exact fresh List.mem_cons_self
  · have grown : (head :: (front ++ new :: back)).Perm (new :: head :: (front ++ back)) :=
      (List.perm_middle.cons head).trans (.swap ..)
    exact grown.nodup_iff.mpr (List.nodup_cons.mpr ⟨fresh, circle.nodup⟩)
  · refine inserted.next x ?_ fun same => outside (same ▸ List.mem_cons_self)
    intro same
    refine outside (same ▸ List.mem_cons_of_mem _ ?_)
    rw [← List.cons_append]
    exact List.mem_append_left back (getLastD_mem front head)
  · refine inserted.prev x ?_ fun same => outside (same ▸ List.mem_cons_self)
    intro same
    refine outside (same ▸ List.mem_cons_of_mem _ ?_)
    rcases List.mem_append.mp (headD_mem back head) with node | last
    · exact List.mem_cons_of_mem _ (List.mem_append_right front node)
    · rw [List.mem_singleton.mp last]
      exact List.mem_cons_self

theorem Circle.remove (circle : Circle links head (front ++ n :: back))
    (removed : Removed links links' (front.getLastD head) (back.headD head) n) :
    Circle links' head (front ++ back) ∧ Touches links links' (head :: (front ++ n :: back)) := by
  have here : n ∈ head :: (front ++ n :: back) :=
    List.mem_cons_of_mem _ (List.mem_append_right front List.mem_cons_self)
  refine ⟨⟨circle.path.remove removed circle.nodup circle.targets, ?_⟩, fun x outside => ⟨?_, ?_⟩⟩
  · refine circle.nodup.sublist ?_
    exact ((List.sublist_cons_self n back).append_left front).cons_cons head
  · refine removed.next x ?_ fun same => outside (same ▸ here)
    intro same
    refine outside (same ▸ ?_)
    rw [← List.cons_append]
    exact List.mem_append_left (n :: back) (getLastD_mem front head)
  · refine removed.prev x ?_ fun same => outside (same ▸ here)
    intro same
    refine outside (same ▸ ?_)
    rcases List.mem_append.mp (headD_mem back head) with node | last
    · exact List.mem_cons_of_mem _ (List.mem_append_right front (List.mem_cons_of_mem _ node))
    · rw [List.mem_singleton.mp last]
      exact List.mem_cons_self

/-- The neighbours of a node. -/
theorem Circle.neighbours (circle : Circle links head (front ++ n :: back)) :
    links.prev n = front.getLastD head ∧ links.next n = back.headD head := by
  obtain ⟨left, right⟩ := path_append.mp circle.path
  exact ⟨left.prev_eq, right.next_eq⟩

theorem Path.next_mem {a b : ν} (path : Path links a nodes b) {x : ν} (inside : x ∈ a :: nodes) :
    links.next x ∈ nodes ++ [b] := by
  induction nodes generalizing a with
  | nil =>
      rw [List.mem_singleton.mp inside, path.1]
      exact List.mem_cons_self
  | cons m nodes ih =>
      rcases List.mem_cons.mp inside with rfl | later
      · rw [path.1]
        exact List.mem_cons_self
      · exact List.mem_cons_of_mem _ (ih path.2.2 later)

/-- Whoever follows the next links from a node of a circle stays on it. -/
theorem Circle.stays (circle : Circle links head nodes) {a b : ν} {list : List ν} (path : Path links a list b)
    (inside : a ∈ head :: nodes) : b ∈ head :: nodes := by
  have closed : ∀ x ∈ head :: nodes, links.next x ∈ head :: nodes := by
    intro x member
    rcases List.mem_append.mp (circle.path.next_mem member) with node | last
    · exact List.mem_cons_of_mem _ node
    · rw [List.mem_singleton.mp last]
      exact List.mem_cons_self
  induction list generalizing a with
  | nil => exact path.1 ▸ closed a inside
  | cons m list ih => exact ih path.2.2 (path.1 ▸ closed a inside)

/-- Circles are apart if the sentinel of one is not on the other. -/
theorem Circle.apart (circle : Circle links head nodes) (circle' : Circle links other others)
    (outside : other ∉ head :: nodes) : ∀ x ∈ other :: others, x ∉ head :: nodes := by
  intro x member inside
  rcases List.mem_cons.mp member with rfl | later
  · exact outside inside
  · obtain ⟨left, right, rfl⟩ := List.append_of_mem later
    exact outside (circle.stays (path_append.mp circle'.path).2 inside)

end Circle

end Ufp.Theory.Circular
