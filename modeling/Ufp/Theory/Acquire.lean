/-
# Ufp.Theory.Acquire — programs that take things and give them back

A program asks its surroundings for things (memory, descriptors, mappings), any of
which may be refused, and gives them back by name. A `World` answers the requests,
keeps what has been granted and not given back, and remembers whether something was
given back that was not held. An `Attempt` is a piece of such a program: it ends with a
result, or it gives up. The combinators are the idioms of code with error labels:
`onError` runs a label when what follows fails, `always` runs it either way, `collect`
is a loop that on the first failure gives back what it has so far.

`Gets terms pre f post fail lost` is the rule of pre- and postconditions. Started where
`pre` is held, `f` ends holding `post x` with the result `x`, or `fail` with none;
whatever else was held is untouched, nothing is given back wrongly, and besides

* with a result, things of exactly the kinds `lost` are held that nobody keeps track of;
* without one, such things are of the kinds `terms.lossy` at most.

`terms.granted` are the requests taken never to be refused. `Yields f sort` says what a
result looks like, and `Certain f` that there is one.
-/
import Mathlib.Algebra.BigOperators.Group.List.Basic
import Mathlib.Algebra.Order.Group.Multiset
import Mathlib.Tactic.Abel

namespace Ufp.Theory.Acquire

set_option autoImplicit false

/-! ## Programs -/

/-- Things, by kind and name. -/
abbrev Things (κ : Type) : Type := Multiset (κ × Nat)

/-- The surroundings of a program: what they answer to the `n`-th request, if it is one
for a thing of this kind; what they have handed out; whether something came back that was
not out. -/
structure World (κ : Type) where
  answer : κ → Nat → Bool
  next : Nat
  held : Things κ
  wrong : Bool

/-- A piece of a program that may give up. -/
def Attempt (κ α : Type) : Type := World κ → Option α × World κ

variable {κ α β : Type}

instance : Monad (Attempt κ) where
  pure x := fun w => (some x, w)
  bind f g := fun w =>
    match f w with
    | (some x, w) => g x w
    | (none, w) => (none, w)

/-- A request for a thing. -/
def take (kind : κ) : Attempt κ Nat := fun w =>
  if w.answer kind w.next then
    (some w.next, { w with next := w.next + 1, held := (kind, w.next) ::ₘ w.held })
  else (none, { w with next := w.next + 1 })

/-- A request whose refusal goes unnoticed: the program goes on with a name for nothing. -/
def takeUnchecked (kind : κ) : Attempt κ Nat := fun w =>
  if w.answer kind w.next then
    (some w.next, { w with next := w.next + 1, held := (kind, w.next) ::ₘ w.held })
  else (some w.next, { w with next := w.next + 1 })

/-- A call that hands out nothing, but may fail. -/
def ask (kind : κ) : Attempt κ Unit := fun w =>
  (if w.answer kind w.next then some () else none, { w with next := w.next + 1 })

/-- The program gives up unless `ok` holds. -/
def require (ok : Bool) : Attempt κ Unit := fun w => (if ok then some () else none, w)

/-- A piece that is left out when it has been done already. -/
def unlessDone (done : Bool) (f : Attempt κ Unit) : Attempt κ Unit := if done then pure () else f

/-- A thing is given back. -/
def give [DecidableEq κ] (kind : κ) (name : Nat) (w : World κ) : World κ :=
  if (kind, name) ∈ w.held then { w with held := w.held.erase (kind, name) } else { w with wrong := true }

/-- Steps that cannot fail, one after the other. -/
def inOrder (steps : List (World κ → World κ)) (w : World κ) : World κ :=
  steps.foldl (fun w step => step w) w

def releaseAll (release : α → World κ → World κ) (xs : List α) : World κ → World κ :=
  inOrder (xs.map release)

/-- A step that cannot fail, among others that can. -/
def perform (step : World κ → World κ) : Attempt κ Unit := fun w => (some (), step w)

/-- A piece of which the program does not ask how it ended. -/
def regardless (f : Attempt κ α) (w : World κ) : World κ := (f w).2

/-- When `f` gives up, `undo` is run. -/
def onError (undo : World κ → World κ) (f : Attempt κ α) : Attempt κ α := fun w =>
  match f w with
  | (some x, w) => (some x, w)
  | (none, w) => (none, undo w)

/-- However `f` ends, `undo` is run. -/
def always (undo : World κ → World κ) (f : Attempt κ α) : Attempt κ α := fun w =>
  ((f w).1, undo (f w).2)

/-- A piece that is run `n` times, as long as it does not fail. -/
def times (f : Attempt κ Unit) : Nat → Attempt κ Unit
  | 0 => pure ()
  | n + 1 => do
      f
      times f n

/-- A piece whose failure is a result like others. -/
def observe (f : Attempt κ α) : Attempt κ (Option α) := fun w => (some (f w).1, (f w).2)

/-- A loop that keeps what it has also when a request is refused: whether none was, and
what there is. -/
def gather (kind : κ) : Nat → List Nat → Attempt κ (Bool × List Nat)
  | 0, done => pure (true, done)
  | todo + 1, done => do
      match ← observe (take kind) with
      | some name => gather kind todo (done ++ [name])
      | none => return (false, done)

/-- The rest of a loop that has the things `done` and `todo` to go. -/
def collectFrom (acquire : Nat → Attempt κ α) (release : α → World κ → World κ) :
    Nat → List α → Attempt κ (List α)
  | 0, done => pure done
  | todo + 1, done => do
      let x ← onError (releaseAll release done) (acquire done.length)
      collectFrom acquire release todo (done ++ [x])

/-- A loop that acquires `n` things; on the first failure it gives back those it has. -/
def collect (acquire : Nat → Attempt κ α) (release : α → World κ → World κ) (n : Nat) :
    Attempt κ (List α) :=
  collectFrom acquire release n []

/-! ## What they do to what is held -/

section Turns

variable {granted : Set κ} {w w' w'' : World κ} {pre mid post left left' : Things κ}

/-- From `w` to `w'`, `pre` has become `post` and what is left besides is `left`; what was
held with `pre` still is, and nothing has been given back wrongly. Requests of the kinds
`granted` are taken never to be refused. -/
def Turns (granted : Set κ) (w w' : World κ) (pre post left : Things κ) : Prop :=
  (∀ k ∈ granted, ∀ n, w.answer k n = true) →
    ∀ rest, w.held = pre + rest → w'.held = post + (left + rest) ∧ w'.wrong = w.wrong ∧ w'.answer = w.answer

theorem Turns.refl (w : World κ) (m : Things κ) : Turns granted w w m m 0 := by
  intro _ rest holds
  exact ⟨by rw [holds, zero_add], rfl, rfl⟩

theorem Turns.trans (first : Turns granted w w' pre mid left) (second : Turns granted w' w'' mid post left') :
    Turns granted w w'' pre post (left' + left) := by
  intro sure rest holds
  obtain ⟨held, wrong, answer⟩ := first sure rest holds
  obtain ⟨held', wrong', answer'⟩ := second (by rwa [answer]) (left + rest) held
  exact ⟨by rw [held', add_assoc], wrong'.trans wrong, answer'.trans answer⟩

/-- What is not mentioned may be mentioned. -/
theorem Turns.frame (n : Things κ) (turns : Turns granted w w' pre post left) :
    Turns granted w w' (pre + n) (post + n) left := by
  intro sure rest holds
  obtain ⟨held, same⟩ := turns sure (n + rest) (by rw [holds, add_assoc])
  exact ⟨by rw [held]; abel, same⟩

/-- What is no longer kept track of is left. -/
theorem Turns.lose {gone : Things κ} (turns : Turns granted w w' pre (gone + post) left) :
    Turns granted w w' pre post (gone + left) := by
  intro sure rest holds
  obtain ⟨held, same⟩ := turns sure rest holds
  exact ⟨by rw [held]; abel, same⟩

end Turns

/-- A step that makes `post` of `pre`. -/
def Undoes (granted : Set κ) (step : World κ → World κ) (pre post : Things κ) : Prop :=
  ∀ w, Turns granted w (step w) pre post 0

/-- The things of one kind with these names. -/
def named (kind : κ) (names : List Nat) : Things κ := (names.map fun name => {(kind, name)}).sum

theorem mem_sum_map {own : α → Things κ} {xs : List α} {thing : κ × Nat}
    (mem : thing ∈ (xs.map own).sum) : ∃ x ∈ xs, thing ∈ own x := by
  induction xs with
  | nil => simp at mem
  | cons x xs ih =>
      rcases Multiset.mem_add.mp mem with here | later
      · exact ⟨x, List.mem_cons_self, here⟩
      · obtain ⟨y, among, mem⟩ := ih later
        exact ⟨y, List.mem_cons_of_mem x among, mem⟩

theorem mem_named {kind : κ} {names : List Nat} {thing : κ × Nat} (mem : thing ∈ named kind names) :
    thing.1 = kind := by
  obtain ⟨name, -, mem⟩ := mem_sum_map mem
  rw [Multiset.mem_singleton.mp mem]

/-- What is assumed of the surroundings, and what a failure may cost. -/
structure Terms (κ : Type) where
  granted : Set κ
  lossy : Set κ

/-- A piece of a program, by what it does to what is held. -/
structure Gets (terms : Terms κ) (pre : Things κ) (f : Attempt κ α)
    (post : α → Things κ) (fail : Things κ) (lost : Multiset κ) : Prop where
  done : ∀ w w' x, f w = (some x, w') → ∃ left, left.map Prod.fst = lost ∧
    (∀ thing ∈ left, thing.1 ∈ terms.lossy) ∧ Turns terms.granted w w' pre (post x) left
  failed : ∀ w w', f w = (none, w') → ∃ left,
    (∀ thing ∈ left, thing.1 ∈ terms.lossy) ∧ Turns terms.granted w w' pre fail left

/-! ## Rules for steps -/

section Steps

variable {granted : Set κ} {step : World κ → World κ} {steps : List (World κ → World κ)}
  {pre mid post : Things κ}

/-- A step, whatever else is held. -/
theorem Undoes.beside (undoes : Undoes granted step pre post) (n : Things κ) :
    Undoes granted step (pre + n) (post + n) :=
  fun w => (undoes w).frame n

/-- A release, whatever else is held. -/
theorem Undoes.frame (undoes : Undoes granted step pre 0) (n : Things κ) :
    Undoes granted step (pre + n) n := by
  simpa using undoes.beside n

theorem Undoes.give [DecidableEq κ] (kind : κ) (name : Nat) (n : Things κ) :
    Undoes granted (give kind name) ({(kind, name)} + n) n := by
  intro w _ rest holds
  have out : (kind, name) ∈ w.held := by rw [holds]; simp
  simp only [Acquire.give, if_pos out]
  refine ⟨?_, trivial, trivial⟩
  rw [holds, add_assoc, Multiset.singleton_add, Multiset.erase_cons_head, zero_add]

theorem Undoes.giveLast [DecidableEq κ] (kind : κ) (name : Nat) :
    Undoes granted (Acquire.give kind name) {(kind, name)} 0 := by
  simpa using Undoes.give kind name 0

theorem Undoes.nil (m : Things κ) : Undoes granted (inOrder []) m m := fun w => Turns.refl w m

theorem Undoes.cons (first : Undoes granted step pre mid) (later : Undoes granted (inOrder steps) mid post) :
    Undoes granted (inOrder (step :: steps)) pre post := by
  intro w
  rw [← add_zero 0]
  exact (first w).trans (later (step w))

/-- A release in which the things come in another order. -/
theorem Undoes.of_eq {pre' : Things κ} (same : pre = pre') (undoes : Undoes granted step pre' post) :
    Undoes granted step pre post := same ▸ undoes

/-- Each thing is given back, up to what its release forgets. -/
theorem Undoes.releaseKeeping {release : α → World κ → World κ} {own keep : α → Things κ}
    (each : ∀ x, Undoes granted (release x) (own x) (keep x)) (xs : List α) :
    Undoes granted (releaseAll release xs) (xs.map own).sum (xs.map keep).sum := by
  induction xs with
  | nil => exact Undoes.nil 0
  | cons x xs ih =>
      have later := ih.beside (keep x)
      rw [add_comm _ (keep x), add_comm _ (keep x)] at later
      exact ((each x).beside (xs.map own).sum).cons later

theorem Undoes.releaseAll {release : α → World κ → World κ} {own : α → Things κ}
    (each : ∀ x, Undoes granted (release x) (own x) 0) (xs : List α) :
    Undoes granted (releaseAll release xs) (xs.map own).sum 0 := by
  simpa using Undoes.releaseKeeping each xs

theorem Undoes.giveAll [DecidableEq κ] (kind : κ) (names : List Nat) :
    Undoes granted (Acquire.releaseAll (Acquire.give kind) names) (named kind names) 0 :=
  Undoes.releaseAll (fun name => Undoes.giveLast kind name) names

/-- A piece that ends with the same, however it ends, and costs nothing. -/
theorem Undoes.regardless {f : Attempt κ α} (gets : Gets ⟨granted, ∅⟩ pre f (fun _ => post) post 0) :
    Undoes granted (regardless f) pre post := by
  intro w
  rcases run : f w with ⟨_ | x, w'⟩
  · obtain ⟨left, none, turns⟩ := gets.failed w w' run
    have empty : left = 0 := Multiset.eq_zero_of_forall_notMem fun thing mem => none thing mem
    simpa [Acquire.regardless, run, empty] using turns
  · obtain ⟨left, none, -, turns⟩ := gets.done w w' x run
    have empty : left = 0 := by simpa using none
    simpa [Acquire.regardless, run, empty] using turns

end Steps

/-! ## Rules for attempts -/

section Attempts

variable {terms : Terms κ} {f : Attempt κ α} {g : α → Attempt κ β} {pre fail : Things κ}
  {mid : α → Things κ} {post : β → Things κ} {lost lost' : Multiset κ}

theorem Gets.take (kind : κ) (pre : Things κ) :
    Gets terms pre (take kind) (fun name => {(kind, name)} + pre) pre 0 where
  done := by
    intro w w' name run
    simp only [Acquire.take] at run
    split at run
    · cases run
      refine ⟨0, rfl, by simp, fun _ rest holds => ⟨?_, rfl, rfl⟩⟩
      rw [holds, zero_add, add_assoc, Multiset.singleton_add]
    · cases run
  failed := by
    intro w w' run
    simp only [Acquire.take] at run
    split at run
    · cases run
    · cases run
      exact ⟨0, by simp, Turns.refl _ _⟩

variable {own : α → Things κ} {undo : α → World κ → World κ} {kind : κ} {fail' : Things κ}

theorem Gets.takeUnchecked (sure : kind ∈ terms.granted) (pre fail : Things κ) :
    Gets terms pre (takeUnchecked kind) (fun name => {(kind, name)} + pre) fail 0 where
  done := by
    intro w w' name run
    simp only [Acquire.takeUnchecked] at run
    split at run
    · cases run
      refine ⟨0, rfl, by simp, fun _ rest holds => ⟨?_, rfl, rfl⟩⟩
      rw [holds, zero_add, add_assoc, Multiset.singleton_add]
    · rename_i refused
      exact ⟨0, rfl, by simp, fun granted => absurd (granted kind sure _) refused⟩
  failed := by
    intro w w' run
    simp only [Acquire.takeUnchecked] at run
    split at run <;> cases run

/-- A piece that makes the same of what is held however it ends. -/
theorem Gets.of_turns {post : Things κ} (turns : ∀ w, Turns terms.granted w (f w).2 pre post 0) :
    Gets terms pre f (fun _ => post) post 0 where
  done w w' x run := ⟨0, rfl, by simp, by simpa [run] using turns w⟩
  failed w w' run := ⟨0, by simp, by simpa [run] using turns w⟩

theorem Gets.ask (kind : κ) (pre : Things κ) : Gets terms pre (ask kind) (fun _ => pre) pre 0 :=
  Gets.of_turns fun w => Turns.refl w pre

theorem Gets.require (ok : Bool) (pre : Things κ) : Gets terms pre (require ok) (fun _ => pre) pre 0 :=
  Gets.of_turns fun w => Turns.refl w pre

theorem Gets.perform {step : World κ → World κ} {post : Things κ}
    (undoes : Undoes terms.granted step pre post) (fail : Things κ) :
    Gets terms pre (perform step) (fun _ => post) fail 0 where
  done := by
    intro w w' x run
    cases (Prod.mk.inj run).2
    exact ⟨0, rfl, by simp, undoes w⟩
  failed := by
    intro w w' run
    cases (Prod.mk.inj run).1

/-- The end of a function: of what is held, the result names a part and the rest is lost. -/
theorem Gets.losing {x : β} (gone : Things κ) (same : pre = gone + post x)
    (exactly : gone.map Prod.fst = lost) (kinds : ∀ k ∈ lost, k ∈ terms.lossy) :
    Gets terms pre (pure x : Attempt κ β) post fail lost where
  done := by
    intro w w' y run
    cases run
    refine ⟨gone + 0, by rw [add_zero, exactly], fun thing mem => kinds _ ?_, Turns.lose ?_⟩
    · rw [add_zero] at mem
      exact exactly ▸ Multiset.mem_map_of_mem _ mem
    · rw [← same]
      exact Turns.refl _ _
  failed := by
    intro w w' run
    cases (Prod.mk.inj run).1

/-- The end of a function whose result names all that is held. -/
theorem Gets.pure {x : β} (same : pre = post x) : Gets terms pre (Pure.pure x : Attempt κ β) post fail 0 :=
  Gets.losing 0 (by rw [same, zero_add]) (Multiset.map_zero _) (by simp)

theorem Gets.bind (first : Gets terms pre f mid fail lost)
    (later : ∀ x, Gets terms (mid x) (g x) post fail lost') :
    Gets terms pre (f >>= g) post fail (lost' + lost) where
  done := by
    intro w w' y run
    simp only [Bind.bind] at run
    rcases start : f w with ⟨_ | x, w₁⟩
    · simp [start] at run
    · simp only [start] at run
      obtain ⟨left, exactly, kinds, turns⟩ := first.done w w₁ x start
      obtain ⟨left', exactly', kinds', turns'⟩ := (later x).done w₁ w' y run
      refine ⟨left' + left, by rw [Multiset.map_add, exactly, exactly'], fun thing mem => ?_, turns.trans turns'⟩
      exact (Multiset.mem_add.mp mem).elim (kinds' thing) (kinds thing)
  failed := by
    intro w w' run
    simp only [Bind.bind] at run
    rcases start : f w with ⟨_ | x, w₁⟩
    · simp only [start, Prod.mk.injEq, true_and] at run
      subst run
      exact first.failed w w₁ start
    · simp only [start] at run
      obtain ⟨left, exactly, kinds, turns⟩ := first.done w w₁ x start
      obtain ⟨left', kinds', turns'⟩ := (later x).failed w₁ w' run
      refine ⟨left' + left, fun thing mem => ?_, turns.trans turns'⟩
      exact (Multiset.mem_add.mp mem).elim (kinds' thing) (kinds thing)

/-- The usual case: what comes first loses nothing. -/
theorem Gets.andThen (first : Gets terms pre f mid fail 0) (later : ∀ x, Gets terms (mid x) (g x) post fail lost) :
    Gets terms pre (f >>= g) post fail lost := by
  simpa using first.bind later

/-- The other case: what comes later loses nothing. -/
theorem Gets.thenFree (first : Gets terms pre f mid fail lost) (later : ∀ x, Gets terms (mid x) (g x) post fail 0) :
    Gets terms pre (f >>= g) post fail lost :=
  zero_add lost ▸ first.bind later

/-- Whatever else is held. -/
theorem Gets.frame (gets : Gets terms 0 f mid 0 lost) (n : Things κ) :
    Gets terms n f (fun x => mid x + n) n lost where
  done := by
    intro w w' x run
    obtain ⟨left, exactly, kinds, turns⟩ := gets.done w w' x run
    exact ⟨left, exactly, kinds, by simpa using turns.frame n⟩
  failed := by
    intro w w' run
    obtain ⟨left, kinds, turns⟩ := gets.failed w w' run
    exact ⟨left, kinds, by simpa using turns.frame n⟩

/-- The result of a piece, under another name. -/
theorem Gets.post_eq {mid' : α → Things κ} (gets : Gets terms pre f mid fail lost)
    (same : ∀ x, mid x = mid' x) : Gets terms pre f mid' fail lost := funext same ▸ gets

/-- A piece that in the end has nothing, whatever else is held. -/
theorem Gets.beside (gets : Gets terms 0 f (fun _ => 0) 0 lost) (n : Things κ) :
    Gets terms n f (fun _ => n) n lost :=
  (gets.frame n).post_eq fun _ => zero_add n

theorem Gets.unlessDone {done : Bool} {f : Attempt κ Unit} (gets : Gets terms pre f (fun _ => pre) pre 0) :
    Gets terms pre (unlessDone done f) (fun _ => pre) pre 0 := by
  cases done with
  | false => exact gets
  | true => exact Gets.pure rfl

theorem Gets.onError {undo : World κ → World κ} (gets : Gets terms pre f mid fail' lost)
    (undoes : Undoes terms.granted undo fail' fail) : Gets terms pre (onError undo f) mid fail lost where
  done := by
    intro w w' x run
    simp only [Acquire.onError] at run
    rcases start : f w with ⟨_ | y, w₁⟩
    · simp [start] at run
    · simp only [start] at run
      exact gets.done w w' x (by rw [start, run])
  failed := by
    intro w w' run
    simp only [Acquire.onError] at run
    rcases start : f w with ⟨_ | y, w₁⟩
    · simp only [start, Prod.mk.injEq, true_and] at run
      subst run
      obtain ⟨left, kinds, turns⟩ := gets.failed w w₁ start
      exact ⟨left, kinds, by simpa using turns.trans (undoes w₁)⟩
    · simp [start] at run

/-- A piece that has a label of its own for what follows it. -/
theorem Gets.guardLosing (first : Gets terms 0 f own 0 lost) (undoes : ∀ x, Undoes terms.granted (undo x) (own x) 0)
    (later : ∀ x, Gets terms (own x + pre) (g x) post (own x + pre) lost') :
    Gets terms pre (f >>= fun x => Acquire.onError (undo x) (g x)) post pre (lost' + lost) :=
  (first.frame pre).bind fun x => (later x).onError ((undoes x).frame pre)

theorem Gets.guard (first : Gets terms 0 f own 0 0) (undoes : ∀ x, Undoes terms.granted (undo x) (own x) 0)
    (later : ∀ x, Gets terms (own x + pre) (g x) post (own x + pre) lost) :
    Gets terms pre (f >>= fun x => Acquire.onError (undo x) (g x)) post pre lost := by
  simpa using Gets.guardLosing first undoes later

/-- A request with a label of its own for what follows it. -/
theorem Gets.takeGuard [DecidableEq κ] {rest : Nat → Attempt κ β}
    (later : ∀ name, Gets terms ({(kind, name)} + pre) (rest name) post ({(kind, name)} + pre) lost) :
    Gets terms pre (Acquire.take kind >>= fun name => Acquire.onError (Acquire.give kind name) (rest name))
      post pre lost :=
  (Gets.take kind pre).andThen fun name => (later name).onError (Undoes.give kind name pre)

theorem Gets.always {undo : World κ → World κ} {inner : α → Things κ} (gets : Gets terms pre f inner fail' lost)
    (undoes : ∀ x, Undoes terms.granted undo (inner x) (mid x)) (undoes' : Undoes terms.granted undo fail' fail) :
    Gets terms pre (always undo f) mid fail lost where
  done := by
    intro w w' x run
    simp only [Acquire.always, Prod.mk.injEq] at run
    obtain ⟨result, rfl⟩ := run
    obtain ⟨left, exactly, kinds, turns⟩ := gets.done w (f w).2 x (by rw [← result])
    exact ⟨left, exactly, kinds, by simpa using turns.trans (undoes x _)⟩
  failed := by
    intro w w' run
    simp only [Acquire.always, Prod.mk.injEq] at run
    obtain ⟨result, rfl⟩ := run
    obtain ⟨left, kinds, turns⟩ := gets.failed w (f w).2 (by rw [← result])
    exact ⟨left, kinds, by simpa using turns.trans (undoes' _)⟩

/-- A piece that is held while what follows runs. -/
theorem Gets.scopeLosing (first : Gets terms 0 f own 0 lost) (undoes : ∀ x, Undoes terms.granted (undo x) (own x) 0)
    (later : ∀ x, Gets terms (own x + pre) (g x) (fun y => own x + post y) (own x + pre) lost') :
    Gets terms pre (f >>= fun x => Acquire.always (undo x) (g x)) post pre (lost' + lost) :=
  (first.frame pre).bind fun x => (later x).always (fun y => (undoes x).frame (post y)) ((undoes x).frame pre)

theorem Gets.scope (first : Gets terms 0 f own 0 0) (undoes : ∀ x, Undoes terms.granted (undo x) (own x) 0)
    (later : ∀ x, Gets terms (own x + pre) (g x) (fun y => own x + post y) (own x + pre) lost) :
    Gets terms pre (f >>= fun x => Acquire.always (undo x) (g x)) post pre lost := by
  simpa using Gets.scopeLosing first undoes later

/-- A request whose thing is held while what follows runs. -/
theorem Gets.takeScope [DecidableEq κ] {rest : Nat → Attempt κ β}
    (later : ∀ name, Gets terms ({(kind, name)} + pre) (rest name) (fun y => {(kind, name)} + post y)
      ({(kind, name)} + pre) lost) :
    Gets terms pre (Acquire.take kind >>= fun name => Acquire.always (Acquire.give kind name) (rest name))
      post pre lost :=
  (Gets.take kind pre).andThen fun name =>
    (later name).always (fun y => Undoes.give kind name (post y)) (Undoes.give kind name pre)

theorem Gets.times {f : Attempt κ Unit} (gets : Gets terms pre f (fun _ => pre) pre 0) (n : Nat) :
    Gets terms pre (times f n) (fun _ => pre) pre 0 := by
  induction n with
  | zero => exact Gets.pure rfl
  | succ n ih => exact gets.andThen fun _ => ih

theorem Gets.observe (gets : Gets ⟨terms.granted, ∅⟩ pre f mid fail' 0) (fail : Things κ) :
    Gets terms pre (observe f) (fun result => result.elim fail' mid) fail 0 where
  done := by
    intro w w' result run
    simp only [Acquire.observe, Prod.mk.injEq, Option.some.injEq] at run
    obtain ⟨rfl, rfl⟩ := run
    rcases run : f w with ⟨_ | x, w'⟩
    · obtain ⟨left, none, turns⟩ := gets.failed w w' run
      have empty : left = 0 := Multiset.eq_zero_of_forall_notMem fun thing mem => none thing mem
      exact ⟨0, rfl, by simp, empty ▸ turns⟩
    · obtain ⟨left, exactly, none, turns⟩ := gets.done w w' x run
      exact ⟨left, exactly, fun thing mem => (none thing mem).elim, turns⟩
  failed := by
    intro w w' run
    cases (Prod.mk.inj run).1

theorem Gets.gather (kind : κ) (todo : Nat) (done : List Nat) (n fail : Things κ) :
    Gets terms (named kind done + n) (gather kind todo done) (fun found => named kind found.2 + n) fail 0 := by
  induction todo generalizing done with
  | zero => exact Gets.pure rfl
  | succ todo ih =>
      refine ((Gets.take kind _).observe fail).andThen fun result => ?_
      cases result with
      | none => exact Gets.pure rfl
      | some name =>
          have more : named kind (done ++ [name]) + n = {(kind, name)} + (named kind done + n) := by
            simp only [named, List.map_append, List.sum_append, List.map_singleton, List.sum_singleton]
            abel
          have later := ih (done ++ [name])
          rw [more] at later
          exact later

/-- What no label gives back is lost when the rest fails. -/
theorem Gets.abandon (gone : Things κ) (gets : Gets terms pre f mid (gone + fail) lost)
    (kinds : ∀ thing ∈ gone, thing.1 ∈ terms.lossy) : Gets terms pre f mid fail lost where
  done := gets.done
  failed := by
    intro w w' run
    obtain ⟨left, kinds', turns⟩ := gets.failed w w' run
    refine ⟨gone + left, fun thing mem => ?_, turns.lose⟩
    exact (Multiset.mem_add.mp mem).elim (kinds thing) (kinds' thing)

section Loops

variable {acquire : Nat → Attempt κ α} {release : α → World κ → World κ} {own keep : α → Things κ}
  {lost : Nat → Multiset κ}

/-- A loop, once it has `done`: the invariant is that all of `done` is held. What the
release forgets is lost with the first failure. -/
theorem Gets.collectFrom (each : ∀ i, Gets terms 0 (acquire i) own 0 (lost i))
    (back : ∀ x, Undoes terms.granted (release x) (own x) (keep x))
    (kinds : ∀ x, ∀ thing ∈ keep x, thing.1 ∈ terms.lossy) (todo : Nat) (done : List α) :
    Gets terms (done.map own).sum (collectFrom acquire release todo done) (fun xs => (xs.map own).sum) 0
      ((List.range' done.length todo).map lost).sum := by
  induction todo generalizing done with
  | zero => exact Gets.pure rfl
  | succ todo ih =>
      have next : Gets terms (done.map own).sum (Acquire.onError (Acquire.releaseAll release done) (acquire done.length))
          (fun x => ((done ++ [x]).map own).sum) 0 (lost done.length) := by
        have tried := ((each done.length).frame _).onError (Undoes.releaseKeeping back done)
        rw [← add_zero (done.map keep).sum] at tried
        refine (tried.abandon _ fun thing mem => ?_).post_eq fun x => ?_
        · obtain ⟨x, -, mem⟩ := mem_sum_map mem
          exact kinds x thing mem
        · rw [List.map_append, List.sum_append, List.map_singleton, List.sum_singleton, add_comm]
      rw [List.range'_succ, List.map_cons, List.sum_cons, add_comm (lost done.length)]
      refine next.bind fun x => ?_
      have later := ih (done ++ [x])
      rwa [List.length_append, List.length_singleton] at later

theorem Gets.collectKeeping (each : ∀ i, Gets terms 0 (acquire i) own 0 (lost i))
    (back : ∀ x, Undoes terms.granted (release x) (own x) (keep x))
    (kinds : ∀ x, ∀ thing ∈ keep x, thing.1 ∈ terms.lossy) (n : Nat) :
    Gets terms 0 (collect acquire release n) (fun xs => (xs.map own).sum) 0 ((List.range n).map lost).sum := by
  rw [List.range_eq_range']
  exact Gets.collectFrom each back kinds n []

theorem Gets.collect (each : ∀ i, Gets terms 0 (acquire i) own 0 (lost i))
    (back : ∀ x, Undoes terms.granted (release x) (own x) 0) (n : Nat) :
    Gets terms 0 (collect acquire release n) (fun xs => (xs.map own).sum) 0 ((List.range n).map lost).sum :=
  Gets.collectKeeping each back (by simp) n

end Loops

/-- A loop whose turns are all alike. -/
theorem Gets.collectSame {acquire : Attempt κ α} {release : α → World κ → World κ}
    (each : Gets terms 0 acquire own 0 lost) (back : ∀ x, Undoes terms.granted (release x) (own x) 0) (n : Nat) :
    Gets terms 0 (Acquire.collect (fun _ => acquire) release n) (fun xs => (xs.map own).sum) 0 (n • lost) := by
  simpa [List.sum_replicate] using Gets.collect (fun _ => each) back n

/-- A loop in which nothing is lost. -/
theorem Gets.collectFree {acquire : Attempt κ α} {release : α → World κ → World κ}
    (each : Gets terms 0 acquire own 0 0) (back : ∀ x, Undoes terms.granted (release x) (own x) 0) (n : Nat) :
    Gets terms 0 (Acquire.collect (fun _ => acquire) release n) (fun xs => (xs.map own).sum) 0 0 := by
  simpa using Gets.collectSame each back n

/-- What is held in the end, seen from the start. -/
theorem Gets.outcome (gets : Gets terms 0 f mid 0 lost) (w : World κ)
    (sure : ∀ k ∈ terms.granted, ∀ n, w.answer k n = true) :
    (f w).2.wrong = w.wrong ∧ ∃ left, (f w).2.held = (f w).1.elim 0 mid + (left + w.held) ∧
      (∀ thing ∈ left, thing.1 ∈ terms.lossy) ∧ ((f w).1.isSome = true → left.map Prod.fst = lost) := by
  rcases run : f w with ⟨_ | x, w'⟩
  · obtain ⟨left, kinds, turns⟩ := gets.failed w w' run
    obtain ⟨held, wrong, -⟩ := turns sure w.held (zero_add _).symm
    exact ⟨wrong, left, held, kinds, by simp⟩
  · obtain ⟨left, exactly, kinds, turns⟩ := gets.done w w' x run
    obtain ⟨held, wrong, -⟩ := turns sure w.held (zero_add _).symm
    exact ⟨wrong, left, held, kinds, fun _ => exactly⟩

end Attempts

/-! ## Rules for results -/

/-- Every result that `f` ends with is of this sort. -/
def Yields (f : Attempt κ α) (sort : α → Prop) : Prop := ∀ w w' x, f w = (some x, w') → sort x

section Results

variable {f : Attempt κ α} {g : α → Attempt κ β} {first : α → Prop} {sort : β → Prop}

theorem Yields.pure {x : α} (is : first x) : Yields (Pure.pure x : Attempt κ α) first := by
  intro w w' y run
  cases run
  exact is

theorem Yields.bind (start : Yields f first) (later : ∀ x, first x → Yields (g x) sort) :
    Yields (f >>= g) sort := by
  intro w w' y run
  simp only [Bind.bind] at run
  rcases ran : f w with ⟨_ | x, w₁⟩
  · simp [ran] at run
  · simp only [ran] at run
    exact later x (start w w₁ x ran) w₁ w' y run

/-- Where the result does not depend on what comes first. -/
theorem Yields.after (later : ∀ x, Yields (g x) sort) : Yields (f >>= g) sort :=
  @Yields.bind _ _ _ f g (fun _ => True) sort (fun _ _ _ _ => trivial) fun x _ => later x

theorem Yields.always {undo : World κ → World κ} (yields : Yields f first) : Yields (always undo f) first := by
  intro w w' x run
  exact yields w (f w).2 x (by rw [← (Prod.mk.inj run).1])

theorem Yields.onError {undo : World κ → World κ} (yields : Yields f first) : Yields (onError undo f) first := by
  intro w w' x run
  simp only [Acquire.onError] at run
  rcases ran : f w with ⟨_ | y, w₁⟩
  · simp [ran] at run
  · simp only [ran] at run
    exact yields w w' x (by rw [ran, run])

theorem Yields.observe (yields : Yields f first) : Yields (observe f) fun result => ∀ x ∈ result, first x := by
  intro w w' result run x is
  rw [← Option.some.inj (Prod.mk.inj run).1] at is
  exact yields w (f w).2 x (by rw [← is])

theorem Yields.collect {acquire : Nat → Attempt κ α} {release : α → World κ → World κ}
    (each : ∀ i, Yields (acquire i) first) (n : Nat) :
    Yields (collect acquire release n) fun xs => xs.length = n ∧ ∀ x ∈ xs, first x := by
  have loop : ∀ todo done, (∀ x ∈ done, first x) → Yields (collectFrom acquire release todo done)
      fun xs => xs.length = done.length + todo ∧ ∀ x ∈ xs, first x := by
    intro todo
    induction todo with
    | zero => exact fun done all => Yields.pure ⟨rfl, all⟩
    | succ todo ih =>
        intro done all
        refine (each done.length).onError.bind fun x is => ?_
        have later := ih (done ++ [x]) fun y mem => ?_
        · rwa [List.length_append, List.length_singleton, Nat.add_right_comm, Nat.add_assoc] at later
        · rcases List.mem_append.mp mem with old | new
          · exact all y old
          · rwa [List.mem_singleton.mp new]
  have all := loop n [] (List.forall_mem_nil _)
  rwa [List.length_nil, Nat.zero_add] at all

end Results

/-- A piece that does not give up. -/
def Certain (f : Attempt κ α) : Prop := ∀ w, ∃ x w', f w = (some x, w')

theorem Certain.pure (x : α) : Certain (Pure.pure x : Attempt κ α) := fun w => ⟨x, w, rfl⟩

theorem Certain.observe (f : Attempt κ α) : Certain (observe f) := fun w => ⟨(f w).1, (f w).2, rfl⟩

theorem Certain.perform (step : World κ → World κ) : Certain (perform step) := fun w => ⟨(), step w, rfl⟩

theorem Certain.bind {f : Attempt κ α} {g : α → Attempt κ β} (first : Certain f) (later : ∀ x, Certain (g x)) :
    Certain (f >>= g) := by
  intro w
  obtain ⟨x, w₁, ran⟩ := first w
  simp only [Bind.bind, ran]
  exact later x w₁

end Ufp.Theory.Acquire
