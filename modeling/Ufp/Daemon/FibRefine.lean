/-
# Ufp.Daemon.FibRefine — the FIB refines its list of routes

Runs of `fib_route_update` and `fib_route_delete` on a new FIB, next to the same
calls on the abstract list of routes. While the pool grants every allocation the
two return the same values, and `fib_lookup` returns the entry of the longest
match in the list (`fib_refines_routes`).
-/
import Ufp.Daemon.FibInv

namespace Ufp.Daemon

open Ufp.Theory

set_option autoImplicit false

/-- A FIB and the heap it lives in. -/
structure FibState where
  fib : Fib
  heap : Heap

/-- The calls that change a FIB. -/
inductive Call where
  | update (r : Route)
  | delete (k : Key)

/-- One call: its return value (0 is `true`) and the state after it. -/
def FibState.call (st : FibState) : Call → Bool × FibState
  | .update r =>
      let (ret, fib, heap) := updateRoute st.fib r st.heap
      (ret, ⟨fib, heap⟩)
  | .delete k =>
      let (ret, fib, heap) := fibRouteDelete st.fib k.bytes k.len k.id st.heap
      (ret, ⟨fib, heap⟩)

/-- A run: the return values in order, and the last state. -/
def FibState.run : FibState → List Call → List Bool × FibState
  | st, [] => ([], st)
  | st, c :: calls =>
      let (ret, st) := st.call c
      let (rets, st) := st.run calls
      (ret :: rets, st)

/-- The pool refuses no allocation of the run. -/
def FibState.Granted : FibState → List Call → Prop
  | _, [] => True
  | st, c :: calls => (st.call c).2.heap.pool.refused = false ∧ (st.call c).2.Granted calls

/-- The families the FIB knows. -/
def Call.Valid : Call → Prop
  | .update r => r.family ≠ .other
  | .delete _ => True

def Routes.call (routes : Routes) : Call → Bool × Routes
  | .update r => routes.update r
  | .delete k => routes.delete k

def Routes.run : Routes → List Call → List Bool × Routes
  | routes, [] => ([], routes)
  | routes, c :: calls =>
      let (ret, routes) := routes.call c
      let (rets, routes) := routes.run calls
      (ret :: rets, routes)

/-- The FIB holds the routes of the list. -/
def FibState.Holds (st : FibState) (routes : Routes) : Prop :=
  ∃ stored, FibOk st.heap st.fib stored [] [] ∧ stored.map Stored.route = routes

theorem absent_iff {stored : List Stored} {k : Key} :
    (∃ s ∈ stored.map Stored.route, s.Same k) ↔ ¬ Absent stored k := by
  simp [Absent]

/-- One granted call, on both sides; a call that fails leaves the table alone. -/
theorem FibOk.call {st : FibState} {stored : List Stored} {restB restL : List Nat}
    (ok : FibOk st.heap st.fib stored restB restL) {c : Call} (valid : c.Valid)
    (granted : (st.call c).2.heap.pool.refused = false) :
    ∃ stored', FibOk (st.call c).2.heap (st.call c).2.fib stored' restB restL ∧
      Heap.Keeps st.heap (st.call c).2.heap ∧
      ((st.call c).1, stored'.map Stored.route) = Routes.call (stored.map Stored.route) c ∧
      ((st.call c).1 = false → (st.call c).2.fib = st.fib) := by
  cases c with
  | update r =>
      have spec := fibRouteUpdate_spec ok r
      simp only [FibState.call, Routes.call, Routes.update] at granted ⊢
      generalize updateRoute st.fib r st.heap = result at spec granted ⊢
      cases spec with
      | added absent ok' same keeps =>
          rw [if_neg fun present => absent_iff.mp present absent]
          exact ⟨_, ok', keeps, rfl, fun failed => (by cases failed)⟩
      | unchanged ok' keeps single cause =>
          by_cases absent : Absent stored r.toKey
          · have refused := (cause absent valid).2
            rw [refused] at granted
            cases granted
          · rw [if_pos (absent_iff.mpr absent)]
            exact ⟨_, ok', keeps, rfl, fun _ => rfl⟩
      | undone absent known ok' keeps twice short16 first short refused =>
          rw [refused] at granted
          cases granted
      | partly absent known linked fresh dangling long16 first short refused =>
          rw [refused] at granted
          cases granted
  | delete k =>
      simp only [FibState.call, Routes.call, Routes.delete]
      by_cases absent : Absent stored k
      · rw [if_neg fun present => absent_iff.mp present absent, fibRouteDelete_absent ok absent]
        exact ⟨_, ok, (Heap.Step.refl _).keeps, rfl, fun _ => rfl⟩
      · obtain ⟨t, member, same⟩ := not_absent absent
        obtain ⟨fib', h', ran, step, -, -, ok'⟩ := fibRouteDelete_present ok member same
        rw [if_pos (absent_iff.mpr absent), ran]
        refine ⟨_, ok', step.keeps, ?_, fun failed => (by cases failed)⟩
        rw [List.filter_map]
        rfl

theorem FibState.Holds.call {st : FibState} {routes : Routes} (holds : st.Holds routes) {c : Call}
    (valid : c.Valid) (granted : (st.call c).2.heap.pool.refused = false) :
    (st.call c).1 = (routes.call c).1 ∧ (st.call c).2.Holds (routes.call c).2 ∧
      ((st.call c).1 = false → (st.call c).2.fib = st.fib) := by
  obtain ⟨stored, ok, rfl⟩ := holds
  obtain ⟨stored', ok', -, both, still⟩ := ok.call valid granted
  rw [← both]
  exact ⟨rfl, ⟨stored', ok', rfl⟩, still⟩

theorem FibState.Holds.run {st : FibState} {routes : Routes} (holds : st.Holds routes)
    {calls : List Call} (valid : ∀ c ∈ calls, c.Valid) (granted : st.Granted calls) :
    (st.run calls).1 = (routes.run calls).1 ∧ (st.run calls).2.Holds (routes.run calls).2 ∧
      ∀ before c after, calls = before ++ c :: after → ((st.run before).2.call c).1 = false →
        ((st.run before).2.call c).2.fib = (st.run before).2.fib := by
  induction calls generalizing st routes with
  | nil => exact ⟨rfl, holds, fun before c after split => (by cases before <;> cases split)⟩
  | cons c calls ih =>
      obtain ⟨first, rest⟩ := granted
      obtain ⟨same, holds', still⟩ := holds.call (valid c List.mem_cons_self) first
      obtain ⟨returns, last, quiet⟩ :=
        ih holds' (fun d member => valid d (List.mem_cons_of_mem _ member)) rest
      refine ⟨by simp only [FibState.run, Routes.run, same, returns], last, ?_⟩
      rintro (_ | ⟨b, before⟩) d after split
      · obtain ⟨rfl, rfl⟩ := List.cons.inj split
        exact still
      · obtain ⟨rfl, tail⟩ := List.cons.inj split
        exact quiet before d after tail

/-- What `fib_lookup` should find among `routes`: nothing when no route matches;
else the entry of a matching route, the longest and of these the newest. -/
structure IsLongestMatch (routes : Routes) (dst : Bytes) (st : FibState) (found : Option Nat) :
    Prop where
  missing : found = none ↔ ∀ r ∈ routes, ¬ r.Matches dst
  best : ∀ ptr, found = some ptr → ∃ newer r older, routes = newer ++ r :: older ∧
    (st.heap.fibEntry ptr).Holds r ∧ r.Matches dst ∧
    (∀ s ∈ routes, s.Matches dst → s.len ≤ r.len) ∧ ∀ s ∈ newer, s.Matches dst → s.len < r.len

theorem FibOk.lookup {st : FibState} {stored : List Stored} {restB restL : List Nat}
    (ok : FibOk st.heap st.fib stored restB restL) (dst : Bytes) :
    IsLongestMatch (stored.map Stored.route) dst st (fibLookup st.fib dst) := by
  rcases fibLookup_spec ok dst with ⟨missed, none⟩ | ⟨ptr, r, found, best, entry⟩
  · refine ⟨iff_of_true missed (Routes.lookup_none.mp none), fun ptr hit => ?_⟩
    rw [missed] at hit
    cases hit
  · obtain ⟨hit, longest, newer, older, split, shorter⟩ := Routes.lookup_some best
    refine ⟨iff_of_false (by simp [found]) fun none => ?_, fun ptr' same => ?_⟩
    · exact none r (split ▸ List.mem_append_right _ List.mem_cons_self) hit
    · rw [found, Option.some.injEq] at same
      subst same
      exact ⟨newer, r, older, split, entry, hit, longest, shorter⟩

/-- **The FIB is longest-prefix match.** From a new FIB, and while every
allocation is granted, a run of updates and deletions returns what the list of
routes returns, every lookup finds the longest, newest match of the list, and a
call that fails leaves the table as it was. -/
theorem fib_refines_routes {heap : Heap} {st : FibState} (made : fibAlloc heap = (some st.fib, st.heap))
    {calls : List Call} (valid : ∀ c ∈ calls, c.Valid) (granted : st.Granted calls) :
    (st.run calls).1 = (Routes.run [] calls).1 ∧
      (∀ dst, IsLongestMatch (Routes.run [] calls).2 dst (st.run calls).2
        (fibLookup (st.run calls).2.fib dst)) ∧
      ∀ before c after, calls = before ++ c :: after → ((st.run before).2.call c).1 = false →
        ((st.run before).2.call c).2.fib = (st.run before).2.fib := by
  have start : st.Holds [] := ⟨[], (fibAlloc_spec (heapOk_nil heap) made).1, rfl⟩
  obtain ⟨returns, ⟨stored, ok, routes⟩, quiet⟩ := start.run valid granted
  refine ⟨returns, fun dst => ?_, quiet⟩
  rw [← routes]
  exact ok.lookup dst

/-- The route `10.1.2.0/len` out of interface `id`. -/
def sampleRoute (len : Nat) (id : Int) : Route :=
  { bytes := fun i => [10, 1, 2].getD i 0, len, id, family := .inet, nexthop := fun _ => 7
    portIndex := 0, type := .forward }

def sampleFib : FibState := ⟨⟨0, fun _ => .leaf []⟩, (fibAlloc (sampleHeap some)).2⟩

/-- Two routes of one prefix, one of them added twice and then removed. -/
def sampleCalls : List Call :=
  [.update (sampleRoute 24 1), .update (sampleRoute 23 1), .update (sampleRoute 24 1),
    .delete (sampleRoute 24 1).toKey]

theorem fib_refines_routes_sample :
    sampleFib.Granted sampleCalls ∧ (sampleFib.run sampleCalls).1 = [true, true, false, true] ∧
      IsLongestMatch [sampleRoute 23 1] (sampleRoute 24 1).bytes (sampleFib.run sampleCalls).2
        (fibLookup (sampleFib.run sampleCalls).2.fib (sampleRoute 24 1).bytes) := by
  have valid : ∀ c ∈ sampleCalls, c.Valid := by simp [sampleCalls, Call.Valid, sampleRoute]
  have granted : sampleFib.Granted sampleCalls := by
    refine ⟨?_, ?_, ?_, ?_, trivial⟩ <;> decide +kernel
  have made : fibAlloc (sampleHeap some) = (some sampleFib.fib, sampleFib.heap) := rfl
  have whole := fib_refines_routes made valid granted
  have routes : Routes.run [] sampleCalls = ([true, true, false, true], [sampleRoute 23 1]) := rfl
  rw [routes] at whole
  exact ⟨granted, whole.1, whole.2.1 _⟩

end Ufp.Daemon
