/-
# Ufp.Lib.MemTree — what one allocation and one release do to the node tree

`Shape size ptr t` is the form every reachable tree has: an unallocated node is
a leaf, and a split node is allocated, covers its two halves exactly and hands
out something below. `HandedOut` are the allocated leaves, the nodes that back
live blocks.

* `ufpMemAllocRec_spec`: on such a tree a call either finds nothing and changes
  nothing, or hands out one more leaf, large enough, and keeps every other.
* `ufpMemFreeRec_spec`: releasing a handed-out leaf keeps every other, and
  merging restores the shape.

The first needs `CleanSplits`: wherever `malloc` fails below a leaf the search has
split, the other half must serve. Otherwise children stay behind under an
unallocated node.
-/
import Ufp.Lib.Mem

namespace Ufp.Lib.Mem

set_option autoImplicit false

/-! ## Shape of the tree -/

/-- A tree over `[ptr, ptr + size)` in which every unallocated node is a leaf. -/
inductive Shape : Nat → Nat → Mnode → Prop
  | leaf (allocated : Bool) (size ptr : Nat) : Shape size ptr (.leaf allocated size ptr)
  | split {size ptr : Nat} {left right : Mnode} (low : Shape (size / 2) ptr left)
      (high : Shape (size / 2) (ptr + size / 2) right)
      (used : left.allocated = true ∨ right.allocated = true) :
      Shape size ptr (.node true size ptr left right)

/-- The node at `path` is an allocated leaf: it backs a live block. -/
def HandedOut (t : Mnode) (path : Path) (size ptr : Nat) : Prop :=
  t.get path = .leaf true size ptr

theorem get_null (path : Path) : Mnode.null.get path = .null := by
  induction path with
  | nil => rfl
  | cons index path ih => simpa [Mnode.get, Mnode.child] using ih

theorem get_node_cons (a : Bool) (s p : Nat) (left right : Mnode) (index : Bool) (path : Path) :
    (Mnode.node a s p left right).get (index :: path) =
      (if index then right else left).get path := by
  cases index <;> rfl

theorem handedOut_null (path : Path) (size ptr : Nat) : ¬ HandedOut .null path size ptr := by
  simp [HandedOut, get_null, Mnode.leaf]

theorem handedOut_leaf_cons (a : Bool) (s p : Nat) (index : Bool) (path : Path) (size ptr : Nat) :
    ¬ HandedOut (.leaf a s p) (index :: path) size ptr := by
  cases index <;> exact handedOut_null path size ptr

theorem handedOut_free (s p : Nat) (path : Path) (size ptr : Nat) :
    ¬ HandedOut (.leaf false s p) path size ptr := by
  cases path with
  | nil => simp [HandedOut, Mnode.get, Mnode.leaf]
  | cons index path => exact handedOut_leaf_cons false s p index path size ptr

variable {size ptr request s p s' p' : Nat} {t left right : Mnode} {path : Path} {m : Malloc} {a index : Bool}

theorem handedOut_cons : HandedOut (.node a s p left right) (index :: path) size ptr ↔
      HandedOut (if index then right else left) path size ptr := by
  simp only [HandedOut, get_node_cons]

/-- A split node is not itself handed out. -/
theorem handedOut_split (shape : Shape s' p' left) (size ptr : Nat) :
    ¬ HandedOut (.node a s p left right) [] size ptr := by
  intro out
  simp only [HandedOut, Mnode.get, Mnode.leaf, Mnode.node.injEq] at out
  cases shape <;> simp [Mnode.leaf] at out

/-- A handed-out node lies inside its tree's range. -/
theorem HandedOut.inside (shape : Shape size ptr t) (out : HandedOut t path s p) : ptr ≤ p ∧ p + s ≤ ptr + size := by
  induction shape generalizing path with
  | leaf allocated size ptr =>
      cases path with
      | nil =>
          simp only [HandedOut, Mnode.get, Mnode.leaf, Mnode.node.injEq] at out
          omega
      | cons index path => exact absurd out (handedOut_leaf_cons _ _ _ _ _ _ _)
  | split low high used ihLow ihHigh =>
      cases path with
      | nil => exact absurd out (handedOut_split low _ _)
      | cons index path =>
          rw [handedOut_cons] at out
          cases index with
          | false => have := ihLow out; omega
          | true => have := ihHigh out; omega

/-- Two handed-out nodes at different positions have disjoint ranges. -/
theorem HandedOut.disjoint (shape : Shape size ptr t) {path' : Path} (out : HandedOut t path s p)
    (out' : HandedOut t path' s' p') (ne : path ≠ path') : p + s ≤ p' ∨ p' + s' ≤ p := by
  induction shape generalizing path path' with
  | leaf allocated size ptr =>
      cases path with
      | cons index path => exact absurd out (handedOut_leaf_cons _ _ _ _ _ _ _)
      | nil =>
          cases path' with
          | cons index path => exact absurd out' (handedOut_leaf_cons _ _ _ _ _ _ _)
          | nil => exact absurd rfl ne
  | split low high used ihLow ihHigh =>
      cases path with
      | nil => exact absurd out (handedOut_split low _ _)
      | cons index path =>
          cases path' with
          | nil => exact absurd out' (handedOut_split low _ _)
          | cons index' path' =>
              rw [handedOut_cons] at out out'
              cases index <;> cases index'
              · exact ihLow out out' (fun same => ne (by rw [same]))
              · have := out.inside low
                have := out'.inside high
                omega
              · have := out.inside high
                have := out'.inside low
                omega
              · exact ihHigh out out' (fun same => ne (by rw [same]))

/-- A tree that hands something out is allocated at its root. -/
theorem HandedOut.allocated (shape : Shape size ptr t) (out : HandedOut t path s p) : t.allocated = true := by
  cases shape with
  | leaf allocated size ptr =>
      cases path with
      | nil =>
          simp only [HandedOut, Mnode.get, Mnode.leaf, Mnode.node.injEq] at out
          simp [Mnode.leaf, Mnode.allocated, out.1]
      | cons index path => exact absurd out (handedOut_leaf_cons _ _ _ _ _ _ _)
  | split low high used => rfl

/-! ## Allocation -/

/-- The unallocated leaves a search for `request` tries, in order, each by the
number of splits that lead from it to the node it would hand out. -/
def Mnode.candidates (request : Nat) : Mnode → List Nat
  | .null => []
  | .node allocated size _ child0 child1 =>
      if size / 2 < request then
        if !allocated && request ≤ size then [0] else []
      else if allocated then child0.candidates request ++ child1.candidates request
      else [Nat.log 2 (size / request)]

/-- What the splits below an unallocated leaf come to, where `splits` of them lead to the node
it would hand out, with `malloc` afterwards: `some true` if a node is handed out, `some false`
if the leaf is given up as it was, which is when one of its own children is refused. If it was
split and neither half serves, its children stay behind (`none`). -/
def trySplits : Nat → Malloc → Option (Bool × Malloc)
  | 0, m => some (true, m)
  | splits + 1, m =>
      if !m.grant m.next then some (false, m.advance 1)
      else if !m.grant (m.next + 1) then some (false, m.advance 2)
      else
        match trySplits splits (m.advance 2) with
        | some (false, m) => (trySplits splits m).filter Prod.fst
        | result => result

/-- The same for the leaves a search tries one after the other. -/
def tryLeaves : List Nat → Malloc → Option (Bool × Malloc)
  | [], m => some (false, m)
  | splits :: rest, m =>
      match trySplits splits m with
      | some (false, m) => tryLeaves rest m
      | result => result

/-- The search leaves no children behind under an unallocated node. -/
def CleanSplits (leaves : List Nat) (m : Malloc) : Prop := (tryLeaves leaves m).isSome = true

instance (leaves : List Nat) (m : Malloc) : Decidable (CleanSplits leaves m) :=
  inferInstanceAs (Decidable (_ = true))

/-- What a successful search leaves: `path` is handed out, large enough and not
twice as large as needed, and every other position is as before. -/
structure AllocOk (request : Nat) (t t' : Mnode) (path : Path) : Prop where
  allocated : t'.allocated = true
  found : ∃ size ptr, HandedOut t' path size ptr ∧ request ≤ size ∧ size / 2 < request
  fresh : ∀ size ptr, ¬ HandedOut t path size ptr
  others : ∀ q, q ≠ path → ∀ size ptr, HandedOut t' q size ptr ↔ HandedOut t q size ptr

section Unfold

variable {m m' : Malloc} {allocated : Bool} {size ptr request : Nat} {positive : 0 < request}
  {child0 child1 left right : Mnode}

theorem ufpMemAllocRec_small (small : size / 2 < request) :
    ufpMemAllocRec (.node allocated size ptr child0 child1) request positive m =
      if !allocated && request ≤ size then (some [], .node true size ptr child0 child1, m)
      else (none, .node allocated size ptr child0 child1, m) := by
  rw [ufpMemAllocRec, dif_pos small]

theorem ufpMemAllocRec_error (large : ¬ size / 2 < request)
    (made : ufpMemChildren m allocated size ptr child0 child1 = (.error (left, right), m')) :
    ufpMemAllocRec (.node allocated size ptr child0 child1) request positive m =
      (none, .node allocated size ptr left right, m') := by
  rw [ufpMemAllocRec, dif_neg large]
  split
  · rename_i h
    cases made.symm.trans h
    rfl
  · rename_i h
    cases made.symm.trans h

theorem ufpMemAllocRec_descend (large : ¬ size / 2 < request)
    (made : ufpMemChildren m allocated size ptr child0 child1 = (.ok (left, right), m')) :
    ufpMemAllocRec (.node allocated size ptr child0 child1) request positive m =
      match ufpMemAllocRec left request positive m' with
      | (some path, left, m) => (some (false :: path), .node true size ptr left right, m)
      | (none, left, m) =>
          match ufpMemAllocRec right request positive m with
          | (some path, right, m) => (some (true :: path), .node true size ptr left right, m)
          | (none, right, m) => (none, .node allocated size ptr left right, m) := by
  rw [ufpMemAllocRec, dif_neg large]
  split
  · rename_i h
    cases made.symm.trans h
  · rename_i h
    cases made.symm.trans h
    rfl

end Unfold

theorem ufpMemAllocRec_null (request : Nat) (positive : 0 < request) (m : Malloc) :
    ufpMemAllocRec .null request positive m = (none, .null, m) := by
  rw [ufpMemAllocRec]

theorem ufpMemChildren_grant {m' : Malloc} {allocated : Bool} {child0 child1 : Mnode}
    {made : Except (Mnode × Mnode) (Mnode × Mnode)}
    (ran : ufpMemChildren m allocated size ptr child0 child1 = (made, m')) : m'.grant = m.grant := by
  have second := congrArg (fun r => r.2.grant) ran
  rw [← second]
  cases allocated with
  | true => rfl
  | false =>
      simp only [ufpMemChildren, Bool.false_eq_true, if_false, ufpMemSplit_eq]
      split
      · split <;> rfl
      · rfl

/-- A search never changes what `malloc` will answer. -/
theorem ufpMemAllocRec_grant (t : Mnode) (request : Nat) (positive : 0 < request) (m : Malloc) :
    (ufpMemAllocRec t request positive m).2.2.grant = m.grant := by
  fun_induction ufpMemAllocRec t request positive m with
  | case1 => rfl
  | case2 => rfl
  | case3 => rfl
  | case4 m allocated size ptr child0 child1 large left right m₁ made =>
      exact ufpMemChildren_grant made
  | case5 m allocated size ptr child0 child1 large left right m₁ made path left' m₂ found ih =>
      rw [found] at ih
      exact ih.trans (ufpMemChildren_grant made)
  | case6 m allocated size ptr child0 child1 large left right m₁ made left' m₂ missed path
      right' m₃ found ih ih' =>
      rw [missed] at ih
      rw [found] at ih'
      exact (ih'.trans ih).trans (ufpMemChildren_grant made)
  | case7 m allocated size ptr child0 child1 large left right m₁ made left' m₂ missed right'
      m₃ missed' ih ih' =>
      rw [missed] at ih
      rw [missed'] at ih'
      exact (ih'.trans ih).trans (ufpMemChildren_grant made)

/-- A leaf handed out in one child, the other child as it was. -/
theorem AllocOk.child {left' right' : Mnode}
    (ok : AllocOk request (if index then right else left) (if index then right' else left') path)
    (kept : (if index then left' else right') = if index then left else right)
    (root : ∀ s p, ¬ HandedOut (.node a size ptr left right) [] s p)
    (root' : ∀ s p, ¬ HandedOut (.node true size ptr left' right') [] s p) :
    AllocOk request (.node a size ptr left right) (.node true size ptr left' right') (index :: path) where
  allocated := rfl
  found := by
    obtain ⟨s, p, out, fits⟩ := ok.found
    exact ⟨s, p, handedOut_cons.mpr out, fits⟩
  fresh := fun s p out => ok.fresh s p (handedOut_cons.mp out)
  others := by
    intro q ne s p
    cases q with
    | nil => exact iff_of_false (root' s p) (root s p)
    | cons other q =>
        rw [handedOut_cons, handedOut_cons]
        by_cases same : other = index
        · subst same
          exact ok.others q (fun same => ne (by rw [same])) s p
        · cases index <;> cases other <;> simp_all

theorem AllocOk.of_free {t' : Mnode} (ok : AllocOk request t t' path) (none : ∀ q s p, ¬ HandedOut t q s p) :
    AllocOk request (.leaf false size ptr) t' path where
  allocated := ok.allocated
  found := ok.found
  fresh := fun s p => handedOut_free size ptr path s p
  others := fun q ne s p =>
    (ok.others q ne s p).trans (iff_of_false (none q s p) (handedOut_free size ptr q s p))

theorem log_half (positive : 0 < request) (large : ¬ size / 2 < request) :
    Nat.log 2 (size / request) = Nat.log 2 (size / 2 / request) + 1 := by
  have two : 2 ≤ size / request := by
    rw [Nat.le_div_iff_mul_le positive]
    omega
  rw [Nat.log_of_one_lt_of_le (by decide) two, Nat.div_div_eq_div_mul, Nat.div_div_eq_div_mul,
    Nat.mul_comm]

/-- A free leaf that is large enough is tried. -/
theorem candidates_free (positive : 0 < request) (fits : request ≤ size) :
    (Mnode.leaf false size ptr).candidates request = [Nat.log 2 (size / request)] := by
  by_cases small : size / 2 < request
  · have below : size / request < 2 := by
      rw [Nat.div_lt_iff_lt_mul positive]
      omega
    simp [Mnode.leaf, Mnode.candidates, small, fits, Nat.log_of_lt below]
  · simp [Mnode.leaf, Mnode.candidates, small]

/-- What a search of a tree returns, by what its splits come to. -/
inductive Searched (size ptr request : Nat) (t : Mnode) : Option (Bool × Malloc) → Option Path × Mnode × Malloc → Prop
  | missed (m : Malloc) : Searched size ptr request t (some (false, m)) (none, t, m)
  | found (path : Path) (t' : Mnode) (m : Malloc) (shape : Shape size ptr t') (ok : AllocOk request t t' path) :
      Searched size ptr request t (some (true, m)) (some path, t', m)
  | abandoned (path : Option Path) (t' : Mnode) (m : Malloc) (changed : path = none → t' ≠ t) :
      Searched size ptr request t none (path, t', m)

/-- A search of a leaf that is handed out. -/
theorem ufpMemAllocRec_used (request : Nat) (positive : 0 < request) (size ptr : Nat) (m : Malloc) :
    ufpMemAllocRec (.leaf true size ptr) request positive m = (none, .leaf true size ptr, m) := by
  by_cases small : size / 2 < request
  · simp [Mnode.leaf, ufpMemAllocRec_small small]
  · have bare : ufpMemChildren m true size ptr .null .null = (.ok (.null, .null), m) := rfl
    rw [Mnode.leaf, ufpMemAllocRec_descend small bare]
    simp [ufpMemAllocRec_null]

/-- A search makes no node a NULL pointer. -/
theorem ufpMemAllocRec_ne_null (node : t ≠ .null) (request : Nat) (positive : 0 < request) (m : Malloc) :
    (ufpMemAllocRec t request positive m).2.1 ≠ .null := by
  fun_cases ufpMemAllocRec t request positive m with
  | case1 => exact node
  | _ => exact nofun

/-- The leaf that is handed out as it is. -/
theorem AllocOk.leaf (ptr : Nat) (fits : request ≤ size) (small : size / 2 < request) :
    AllocOk request (.leaf false size ptr) (.leaf true size ptr) [] where
  allocated := rfl
  found := ⟨size, ptr, rfl, fits, small⟩
  fresh := fun s p => handedOut_free size ptr [] s p
  others := by
    intro q ne s p
    cases q with
    | nil => exact absurd rfl ne
    | cons index q => exact iff_of_false (handedOut_leaf_cons _ _ _ _ _ _ _) (handedOut_leaf_cons _ _ _ _ _ _ _)

/-- A leaf handed out below a leaf that has been split. -/
theorem AllocOk.half
    (ok : AllocOk request (.leaf false (size / 2) (if index then ptr + size / 2 else ptr))
      (if index then right else left) path)
    (kept : (if index then left else right) = .leaf false (size / 2) (if index then ptr else ptr + size / 2))
    (shape : Shape (size / 2) ptr left) :
    AllocOk request (.leaf false size ptr) (.node true size ptr left right) (index :: path) := by
  have before : ∀ s p, ¬ HandedOut (.node false size ptr (.leaf false (size / 2) ptr)
      (.leaf false (size / 2) (ptr + size / 2))) [] s p := handedOut_split (.leaf false _ _)
  refine AllocOk.of_free (t := .node false size ptr (.leaf false (size / 2) ptr)
    (.leaf false (size / 2) (ptr + size / 2))) ?_ ?_
  · refine AllocOk.child ?_ ?_ before (handedOut_split shape)
    · cases index <;> exact ok
    · cases index <;> exact kept
  · intro q s p out
    cases q with
    | nil => exact before _ _ out
    | cons other q =>
        rw [handedOut_cons] at out
        cases other <;> exact handedOut_free _ _ _ _ _ out

/-- The search of a leaf that has been split, from the searches of its halves. -/
theorem Searched.halves {splits : Nat} {positive : 0 < request}
    (low : Searched (size / 2) ptr request (.leaf false (size / 2) ptr) (trySplits splits m)
      (ufpMemAllocRec (.leaf false (size / 2) ptr) request positive m))
    (high : ∀ m, Searched (size / 2) (ptr + size / 2) request (.leaf false (size / 2) (ptr + size / 2))
      (trySplits splits m) (ufpMemAllocRec (.leaf false (size / 2) (ptr + size / 2)) request positive m)) :
    Searched size ptr request (.leaf false size ptr)
      (match trySplits splits m with
      | some (false, m) => (trySplits splits m).filter Prod.fst
      | result => result)
      (match ufpMemAllocRec (.leaf false (size / 2) ptr) request positive m with
      | (some path, left, m) =>
          (some (false :: path), .node true size ptr left (.leaf false (size / 2) (ptr + size / 2)), m)
      | (none, left, m) =>
          match ufpMemAllocRec (.leaf false (size / 2) (ptr + size / 2)) request positive m with
          | (some path, right, m) => (some (true :: path), .node true size ptr left right, m)
          | (none, right, m) => (none, .node false size ptr left right, m)) := by
  -- what is not a leaf any more has changed
  have changed : ∀ {left right : Mnode}, left ≠ .null ∨ right ≠ .null →
      Mnode.node false size ptr left right ≠ .leaf false size ptr := by
    rintro left right node ⟨⟩
    exact node.elim (fun left => left rfl) fun right => right rfl
  generalize trySplits splits m = tried at low ⊢
  generalize ufpMemAllocRec (.leaf false (size / 2) ptr) request positive m = result at low ⊢
  cases low with
  | found path left m shape ok =>
      exact .found (false :: path) _ m (.split shape (.leaf false _ _) (.inl ok.allocated)) (.half ok rfl shape)
  | missed m =>
      have high := high m
      dsimp only
      generalize trySplits splits m = tried at high ⊢
      generalize ufpMemAllocRec (.leaf false (size / 2) (ptr + size / 2)) request positive m = result at high ⊢
      cases high with
      | found path right m shape ok =>
          refine .found (true :: path) _ m (.split (.leaf false _ _) shape (.inr ok.allocated)) ?_
          exact .half ok rfl (.leaf false _ _)
      | missed m => exact .abandoned none _ m fun _ => changed (.inl nofun)
      | abandoned path right m _ =>
          cases path with
          | some path => exact .abandoned _ _ m nofun
          | none => exact .abandoned none _ m fun _ => changed (.inl nofun)
  | abandoned path left m _ =>
      cases path with
      | some path => exact .abandoned _ _ m nofun
      | none =>
          have node := ufpMemAllocRec_ne_null (t := .leaf false (size / 2) (ptr + size / 2)) nofun request positive m
          dsimp only
          generalize ufpMemAllocRec (.leaf false (size / 2) (ptr + size / 2)) request positive m = result at node ⊢
          rcases result with ⟨_ | path, right, m⟩
          · exact .abandoned none _ m fun _ => changed (.inr node)
          · exact .abandoned _ _ m nofun

/-- A search of a free leaf that is large enough, by induction on the splits. -/
theorem ufpMemAllocRec_free (request : Nat) (positive : 0 < request) (size : Nat) :
    ∀ (ptr : Nat) (m : Malloc), request ≤ size →
      Searched size ptr request (.leaf false size ptr) (trySplits (Nat.log 2 (size / request)) m)
        (ufpMemAllocRec (.leaf false size ptr) request positive m) := by
  induction size using Nat.strong_induction_on with
  | _ size ih =>
      intro ptr m fits
      by_cases small : size / 2 < request
      · have below : size / request < 2 := by
          rw [Nat.div_lt_iff_lt_mul positive]
          omega
        rw [Nat.log_of_lt below, Mnode.leaf, ufpMemAllocRec_small small, if_pos (by simpa using fits)]
        exact .found [] _ m (.leaf true size ptr) (.leaf ptr fits small)
      rw [log_half positive small, trySplits]
      cases first : m.grant m.next with
      | false =>
          have refused : ufpMemChildren m false size ptr .null .null = (.error (.null, .null), m.advance 1) := by
            simp [ufpMemChildren, ufpMemSplit_eq, first]
          rw [Mnode.leaf, ufpMemAllocRec_error small refused]
          exact .missed _
      | true =>
          cases second : m.grant (m.next + 1) with
          | false =>
              have refused : ufpMemChildren m false size ptr .null .null = (.error (.null, .null), m.advance 2) := by
                simp [ufpMemChildren, ufpMemSplit_eq, first, second]
              rw [Mnode.leaf, ufpMemAllocRec_error small refused]
              exact .missed _
          | true =>
              have made : ufpMemChildren m false size ptr .null .null =
                  (.ok (.leaf false (size / 2) ptr, .leaf false (size / 2) (ptr + size / 2)), m.advance 2) := by
                simp [ufpMemChildren, ufpMemSplit_eq, first, second]
              rw [Mnode.leaf, ufpMemAllocRec_descend small made]
              exact .halves (ih _ (by omega) ptr _ (by omega)) fun m => ih _ (by omega) _ m (by omega)

theorem tryLeaves_append (first rest : List Nat) (m : Malloc) :
    tryLeaves (first ++ rest) m =
      match tryLeaves first m with
      | some (false, m) => tryLeaves rest m
      | result => result := by
  induction first generalizing m with
  | nil => rfl
  | cons splits first ih =>
      rw [List.cons_append, tryLeaves, tryLeaves]
      rcases trySplits splits m with _ | ⟨_ | _, m⟩
      · rfl
      · exact ih m
      · rfl

theorem tryLeaves_singleton (splits : Nat) (m : Malloc) : tryLeaves [splits] m = trySplits splits m := by
  rw [tryLeaves]
  rcases trySplits splits m with _ | ⟨_ | _, m⟩ <;> rfl

/-- The search of a split node, from the searches of its children. -/
theorem Searched.children {positive : 0 < request} (lowShape : Shape (size / 2) ptr left)
    (highShape : Shape (size / 2) (ptr + size / 2) right)
    (low : Searched (size / 2) ptr request left (tryLeaves (left.candidates request) m)
      (ufpMemAllocRec left request positive m))
    (high : ∀ m, Searched (size / 2) (ptr + size / 2) request right (tryLeaves (right.candidates request) m)
      (ufpMemAllocRec right request positive m)) :
    Searched size ptr request (.node true size ptr left right)
      (match tryLeaves (left.candidates request) m with
      | some (false, m) => tryLeaves (right.candidates request) m
      | result => result)
      (match ufpMemAllocRec left request positive m with
      | (some path, left, m) => (some (false :: path), .node true size ptr left right, m)
      | (none, left, m) =>
          match ufpMemAllocRec right request positive m with
          | (some path, right, m) => (some (true :: path), .node true size ptr left right, m)
          | (none, right, m) => (none, .node true size ptr left right, m)) := by
  generalize tryLeaves (left.candidates request) m = tried at low ⊢
  generalize ufpMemAllocRec left request positive m = result at low ⊢
  cases low with
  | found path left' m shape ok =>
      refine .found (false :: path) _ m (.split shape highShape (.inl ok.allocated)) ?_
      exact AllocOk.child ok rfl (handedOut_split lowShape) (handedOut_split shape)
  | missed m =>
      have high := high m
      dsimp only
      generalize tryLeaves (right.candidates request) m = tried at high ⊢
      generalize ufpMemAllocRec right request positive m = result at high ⊢
      cases high with
      | found path right' m shape ok =>
          refine .found (true :: path) _ m (.split lowShape shape (.inr ok.allocated)) ?_
          exact AllocOk.child ok rfl (handedOut_split lowShape) (handedOut_split lowShape)
      | missed m => exact .missed m
      | abandoned path right' m changed =>
          cases path with
          | some path => exact .abandoned _ _ m nofun
          | none => exact .abandoned none _ m fun _ same => changed rfl (Mnode.node.inj same).2.2.2.2
  | abandoned path left' m changed =>
      cases path with
      | some path => exact .abandoned _ _ m nofun
      | none =>
          dsimp only
          rcases ufpMemAllocRec right request positive m with ⟨_ | path, right', m⟩
          · exact .abandoned none _ m fun _ same => changed rfl (Mnode.node.inj same).2.2.2.1
          · exact .abandoned _ _ m nofun

/-- **One search on a reachable tree.** If its splits leave no children behind, it finds nothing
and changes nothing, or hands out one more leaf. If they do and it finds nothing, the tree
has changed. -/
theorem ufpMemAllocRec_spec (shape : Shape size ptr t) (request : Nat) (positive : 0 < request) (m : Malloc) :
    Searched size ptr request t (tryLeaves (t.candidates request) m) (ufpMemAllocRec t request positive m) := by
  induction shape generalizing m with
  | leaf allocated size ptr =>
      cases allocated with
      | true =>
          have none : (Mnode.leaf true size ptr).candidates request = [] := by simp [Mnode.leaf, Mnode.candidates]
          rw [none, ufpMemAllocRec_used]
          exact .missed m
      | false =>
          by_cases fits : request ≤ size
          · rw [candidates_free positive fits, tryLeaves_singleton]
            exact ufpMemAllocRec_free request positive size ptr m fits
          · have small : size / 2 < request := by omega
            have none : (Mnode.leaf false size ptr).candidates request = [] := by
              simp [Mnode.leaf, Mnode.candidates, small, fits]
            rw [none, Mnode.leaf, ufpMemAllocRec_small small, if_neg (by simpa using fits)]
            exact .missed m
  | @split size ptr left right low high used ihLow ihHigh =>
      by_cases small : size / 2 < request
      · have none : (Mnode.node true size ptr left right).candidates request = [] := by
          simp [Mnode.candidates, small]
        rw [none, ufpMemAllocRec_small small]
        exact .missed m
      · have both : (Mnode.node true size ptr left right).candidates request =
            left.candidates request ++ right.candidates request := by simp [Mnode.candidates, small]
        have whole : ufpMemChildren m true size ptr left right = (.ok (left, right), m) := rfl
        rw [both, tryLeaves_append, ufpMemAllocRec_descend small whole]
        exact .children low high (ihLow m) ihHigh

/-- A search whose splits leave no children behind. -/
theorem ufpMemAllocRec_clean (shape : Shape size ptr t) (request : Nat) (positive : 0 < request) (m : Malloc)
    (clean : CleanSplits (t.candidates request) m) :
    (∃ m', ufpMemAllocRec t request positive m = (none, t, m')) ∨
      ∃ path t' m', ufpMemAllocRec t request positive m = (some path, t', m') ∧
        Shape size ptr t' ∧ AllocOk request t t' path := by
  have searched := ufpMemAllocRec_spec shape request positive m
  unfold CleanSplits at clean
  generalize tryLeaves (t.candidates request) m = tried at searched clean
  generalize ufpMemAllocRec t request positive m = result at searched ⊢
  cases searched with
  | missed m' => exact .inl ⟨m', rfl⟩
  | found path t' m' shape' ok => exact .inr ⟨path, t', m', rfl, shape', ok⟩
  | abandoned path t' m' changed => cases clean

/-- A search that finds nothing and changes nothing has left no children behind. -/
theorem ufpMemAllocRec_unchanged (shape : Shape size ptr t) {positive : 0 < request} {m' : Malloc}
    (missed : ufpMemAllocRec t request positive m = (none, t, m')) : CleanSplits (t.candidates request) m := by
  have searched := ufpMemAllocRec_spec shape request positive m
  rw [missed] at searched
  unfold CleanSplits
  generalize tryLeaves (t.candidates request) m = tried at searched ⊢
  cases searched with
  | missed => rfl
  | abandoned _ _ _ changed => exact absurd rfl (changed rfl)

/-! ## Release -/

theorem clear_allocated (t : Mnode) : t.clear.allocated = false := by
  cases t <;> rfl

theorem clear_node (a : Bool) (s p : Nat) (left right : Mnode) :
    (Mnode.node a s p left right).clear = .node false s p left right := rfl

theorem modify_node_cons (f : Mnode → Mnode) (index : Bool) (path : Path) (a : Bool) (s p : Nat)
    (left right : Mnode) :
    (Mnode.node a s p left right).modify f (index :: path) =
      .node a s p (if index then left else left.modify f path)
        (if index then right.modify f path else right) := by
  cases index <;> rfl

theorem modify_allocated_cons (f : Mnode → Mnode) (index : Bool) (path : Path) (t : Mnode) :
    (t.modify f (index :: path)).allocated = t.allocated := by
  cases t with
  | null => rfl
  | node a s p left right => cases index <;> rfl

theorem modify_allocated_of_ne_nil (f : Mnode → Mnode) (path : Path) (t : Mnode)
    (below : path ≠ []) : (t.modify f path).allocated = t.allocated := by
  cases path with
  | nil => exact absurd rfl below
  | cons index path => exact modify_allocated_cons f index path t

/-- Releasing below the child `index` of a node, seen from that node: the walk
up reaches it only when both children end up free. -/
theorem ufpMemFreeRec_snoc (index : Bool) (a : Bool) (s p : Nat) (left right : Mnode)
    (pos : List Bool)
    (above : pos ≠ [] → (if index then right else left).allocated = true) :
    ufpMemFreeRec (.node a s p left right) (pos ++ [index]) =
      let freed := ufpMemFreeRec (if index then right else left) pos
      if freed.allocated || (if index then left else right).allocated then
        .node a s p (if index then left else freed) (if index then freed else right)
      else .leaf false s p := by
  induction pos generalizing left right with
  | nil =>
      cases index <;>
        simp [ufpMemFreeRec, modify_node_cons, get_node_cons, Mnode.modify, Mnode.get,
          clear_allocated, clear_node, Mnode.dropChildren, Mnode.leaf]
  | cons i up ih =>
      have live := above (List.cons_ne_nil _ _)
      simp only [List.cons_append, ufpMemFreeRec, List.reverse_cons, List.reverse_append,
        List.reverse_nil, List.nil_append, modify_node_cons, get_node_cons]
      cases index with
      | false =>
          simp only [Bool.false_eq_true, if_false] at live ⊢
          by_cases buddy : ((left.modify Mnode.clear (up.reverse ++ [i])).get
              (up.reverse ++ [!i])).allocated = true
          · have flag : (left.modify Mnode.clear (up.reverse ++ [i])).allocated = true := by
              rw [modify_allocated_of_ne_nil _ _ _ (by simp), live]
            simp [buddy, flag]
          · simp only [buddy, Bool.false_eq_true, if_false]
            have := ih ((left.modify Mnode.clear (up.reverse ++ [i])).modify Mnode.dropChildren
              up.reverse) right (fun ne => by
                simp only [Bool.false_eq_true, if_false]
                rw [modify_allocated_of_ne_nil _ _ _ (by simpa using ne),
                  modify_allocated_of_ne_nil _ _ _ (by simp), live])
            simpa using this
      | true =>
          simp only [if_true] at live ⊢
          by_cases buddy : ((right.modify Mnode.clear (up.reverse ++ [i])).get
              (up.reverse ++ [!i])).allocated = true
          · have flag : (right.modify Mnode.clear (up.reverse ++ [i])).allocated = true := by
              rw [modify_allocated_of_ne_nil _ _ _ (by simp), live]
            simp [buddy, flag]
          · simp only [buddy, Bool.false_eq_true, if_false]
            have := ih left ((right.modify Mnode.clear (up.reverse ++ [i])).modify
              Mnode.dropChildren up.reverse) (fun ne => by
                simp only [if_true]
                rw [modify_allocated_of_ne_nil _ _ _ (by simpa using ne),
                  modify_allocated_of_ne_nil _ _ _ (by simp), live])
            simpa using this

/-- What a release leaves: the shape, and every other handed-out node. -/
structure FreeOk (size ptr : Nat) (t t' : Mnode) (path : Path) : Prop where
  shape : Shape size ptr t'
  others : ∀ q s p, HandedOut t' q s p ↔ HandedOut t q s p ∧ q ≠ path

theorem Shape.eq_free (shape : Shape size ptr t) (free : t.allocated = false) : t = .leaf false size ptr := by
  cases shape with
  | leaf allocated size ptr => simp_all [Mnode.leaf, Mnode.allocated]
  | split low high used => simp [Mnode.allocated] at free

/-- A released child and its free buddy merge into a free node. -/
theorem merge_ok (index : Bool) {freed buddy : Mnode} (low : Shape (size / 2) ptr left)
    (freedOk : FreeOk s' p' (if index then right else left) freed path)
    (buddyEq : (if index then left else right) = buddy) (buddyFree : ∀ q s p, ¬ HandedOut buddy q s p)
    (freedFree : ∀ q s p, ¬ HandedOut freed q s p) :
    FreeOk size ptr (.node true size ptr left right) (.leaf false size ptr) (index :: path) where
  shape := .leaf false size ptr
  others := by
    intro q s p
    refine iff_of_false (handedOut_free size ptr q s p) ?_
    rintro ⟨out, ne⟩
    cases q with
    | nil => exact handedOut_split low s p out
    | cons i q =>
        rw [handedOut_cons] at out
        by_cases same : i = index
        · subst same
          exact freedFree q s p ((freedOk.others q s p).mpr ⟨out, fun e => ne (by rw [e])⟩)
        · refine buddyFree q s p ?_
          rw [← buddyEq]
          cases i <;> cases index <;> simp_all

/-- `_ufp_mem_free` on a handed-out node of a reachable tree. -/
theorem ufpMemFreeRec_spec (shape : Shape size ptr t) (out : HandedOut t path s p) :
    FreeOk size ptr t (ufpMemFreeRec t path.reverse) path := by
  induction shape generalizing path with
  | leaf allocated size ptr =>
      cases path with
      | cons index path => exact absurd out (handedOut_leaf_cons _ _ _ _ _ _ _)
      | nil =>
          refine ⟨.leaf false size ptr, fun q s p => ?_⟩
          refine iff_of_false (handedOut_free size ptr q s p) ?_
          rintro ⟨out, ne⟩
          cases q with
          | nil => exact ne rfl
          | cons index q => exact handedOut_leaf_cons _ _ _ _ _ _ _ out
  | split low high used ihLow ihHigh =>
      rename_i size ptr left right
      cases path with
      | nil => exact absurd out (handedOut_split low _ _)
      | cons index path =>
          rw [handedOut_cons] at out
          rw [List.reverse_cons]
          cases index with
          | false =>
              have freedOk := ihLow out
              rw [ufpMemFreeRec_snoc false true size ptr left right path.reverse
                (fun _ => out.allocated low)]
              simp only [Bool.false_eq_true, if_false]
              split
              · rename_i busy
                refine ⟨.split freedOk.shape high (by simpa using busy), fun q s p => ?_⟩
                cases q with
                | nil =>
                    exact iff_of_false (handedOut_split freedOk.shape s p)
                      (fun h => handedOut_split low s p h.1)
                | cons i q =>
                    rw [handedOut_cons, handedOut_cons]
                    cases i with
                    | false => simpa using freedOk.others q s p
                    | true => simp
              · rename_i idle
                simp only [Bool.or_eq_true, not_or, Bool.not_eq_true] at idle
                have freed := freedOk.shape.eq_free idle.1
                refine merge_ok false low freedOk rfl ?_ ?_
                · rw [if_neg Bool.false_ne_true, high.eq_free idle.2]
                  exact handedOut_free _ _
                · rw [freed]
                  exact handedOut_free _ _
          | true =>
              have freedOk := ihHigh out
              rw [ufpMemFreeRec_snoc true true size ptr left right path.reverse
                (fun _ => out.allocated high)]
              simp only [if_true]
              split
              · rename_i busy
                refine ⟨.split low freedOk.shape (by simpa [or_comm] using busy),
                  fun q s p => ?_⟩
                cases q with
                | nil =>
                    exact iff_of_false (handedOut_split low s p)
                      (fun h => handedOut_split low s p h.1)
                | cons i q =>
                    rw [handedOut_cons, handedOut_cons]
                    cases i with
                    | false => simp
                    | true => simpa using freedOk.others q s p
              · rename_i idle
                simp only [Bool.or_eq_true, not_or, Bool.not_eq_true] at idle
                have freed := freedOk.shape.eq_free idle.1
                refine merge_ok true low freedOk rfl ?_ ?_
                · rw [if_pos rfl, low.eq_free idle.2]
                  exact handedOut_free _ _
                · rw [freed]
                  exact handedOut_free _ _

end Ufp.Lib.Mem
