/-
# Ufp.Daemon.NeighMemorySim — calls on the neighbour tables in memory

Each function of `hash.c` and `neigh.c` in memory is followed to its end: a search visits
the entries of one chain, so what it finds is what the search of the list finds; an entry
that `hash_delete` finds is unlinked before its block goes back; `hash_delete_all` reads
the next entry before the current one goes.

* `Sim.call`: a call in memory does what the call on lists does;
* `neigh_tables_in_memory`: so does a whole run, from `neigh_alloc` to `neigh_release`.
-/
import Ufp.Daemon.NeighMemory
import Mathlib.Data.List.Find

namespace Ufp.Daemon.InMemory

open Ufp.Theory Ufp.Lib.Hlist
open Ufp.Theory.BackLinked (Cell)

set_option autoImplicit false

/-! ## The calls -/

/-- A search in memory finds the entry that the search of the list finds. -/
theorem Held.find {mem : Memory} {own : Nat → Option Owner} {bound t n fuel : Nat} {neigh : NeighTable}
    (held : Held mem own bound t n neigh) (enough : bound ≤ fuel) {key key' : Bytes} (same : AddrSame n key key') :
    chainFind fuel (pointers neigh) key mem =
      some (((neigh.table.head (neigh.table.hashKeyGenerate key' hashBit)).find? fun entry =>
        neigh.table.hashKeyCompare key' entry.key).map fun entry => entry.owner.blk) := by
  have bucket : neigh.table.hashKeyGenerate key hashBit = neigh.table.hashKeyGenerate key' hashBit :=
    held.generate same
  have inside := held.bounded key'
  have chain := (held.chain _ inside).chain
  have short : (blks (neigh.table.head (neigh.table.hashKeyGenerate key' hashBit))).length ≤ fuel := by
    rw [blks, List.length_map]
    exact Nat.le_trans (held.short _ inside) enough
  unfold chainFind pointers
  dsimp only
  rw [bucket, findLoop_chain chain short, blks, List.find?_map]
  congr 2
  refine List.find?_congr fun entry member => ?_
  obtain ⟨-, holds⟩ := held.entry _ inside entry member
  show neigh.table.hashKeyCompare key (mem.dstAddr (mem.key entry.owner.blk)) = _
  rw [holds.key, held.compare, held.compare, decide_eq_decide]
  exact ⟨fun hit => same.symm.trans (hit.trans holds.dstAddr), fun hit => same.trans (hit.trans holds.dstAddr.symm)⟩

namespace Sim

variable {st : OnLists} {ms : InMem} {own : Nat → Option Owner} {bound fuel t : Nat} {family : Family}
variable {neigh : NeighTable}

theorem set_same (heap : Heap) (here : st.table t = some (family, neigh)) :
    st.set t (some (family, neigh)) heap = { st with heap } := by
  rw [← here, OnLists.set, Function.update_eq_self]

theorem lookup (sim : Sim st ms own bound) (here : st.table t = some (family, neigh)) (enough : bound ≤ fuel)
    (dst : Bytes) :
    ∃ entry, neighLookup fuel (pointers neigh) dst ms.mem = some entry ∧
      (entry.map fun blk => (blk, macBytes (ms.mem.dstMac blk))) =
        (Daemon.neighLookup neigh dst).map fun entry => (entry.blk, macBytes entry.dstMac) := by
  obtain ⟨n, size, held⟩ := sim.held t family neigh here
  have inside := held.bounded dst
  refine ⟨_, held.find enough fun _ _ => rfl, ?_⟩
  show Option.map _ (Option.map _ _) = Option.map _ (Option.map _ _)
  rw [Option.map_map, Option.map_map]
  refine Option.map_congr fun entry found => ?_
  obtain ⟨-, holds⟩ := held.entry _ inside entry (List.mem_of_find?_eq_some found)
  show (entry.owner.blk, macBytes (ms.mem.dstMac entry.owner.blk)) = (entry.owner.blk, macBytes entry.owner.dstMac)
  rw [holds.dstMac]

theorem delete (sim : Sim st ms own bound) (here : st.table t = some (family, neigh)) (enough : bound ≤ fuel)
    (dst : Bytes) :
    ∃ mem own', neighDelete fuel (pointers neigh) dst ms.mem =
        some ((Daemon.neighDelete neigh dst st.heap).1, mem) ∧
      Sim (st.set t (some (family, (Daemon.neighDelete neigh dst st.heap).2.1))
        (Daemon.neighDelete neigh dst st.heap).2.2) { ms with mem } own' bound := by
  obtain ⟨n, size, held⟩ := sim.held t family neigh here
  have search := held.find enough (show AddrSame n dst dst from fun _ _ => rfl)
  rw [neighDelete, hashDelete, search, Option.map_some]
  rcases found : (neigh.table.head (neigh.table.hashKeyGenerate dst hashBit)).find? fun entry =>
      neigh.table.hashKeyCompare dst entry.key with _ | target
  · have listed : Daemon.neighDelete neigh dst st.heap = (false, neigh, st.heap) := by
      simp only [Daemon.neighDelete, Daemon.hashDelete, found]
    rw [listed, found]
    refine ⟨ms.mem, own, rfl, ?_⟩
    rw [set_same _ here]
    exact sim
  · obtain ⟨hit, front, back, chain, misses⟩ := List.find?_eq_some_iff_append.mp found
    have erased : (neigh.table.head (neigh.table.hashKeyGenerate dst hashBit)).eraseP
        (fun entry => neigh.table.hashKeyCompare dst entry.key) = front ++ back := by
      rw [chain, List.eraseP_append_right _ fun e member => by simpa using misses e member, List.eraseP_cons, hit]
      rfl
    have listed : Daemon.neighDelete neigh dst st.heap =
        (true, neigh.withHead (Function.update neigh.table.head (neigh.table.hashKeyGenerate dst hashBit)
          (front ++ back)), st.heap.free target.owner.blk) := by
      have freed : neigh.table.hashEntryDelete target.owner st.heap = st.heap.free target.owner.blk :=
        congrFun (congrFun held.plain target.owner) st.heap
      simp only [Daemon.neighDelete, Daemon.hashDelete, found, erased, freed]
      rfl
    rw [listed, found]
    exact ⟨_, _, rfl, sim.unlink here (held.bounded dst) chain⟩

theorem hashAdd_new {ε σ : Type} (table : Daemon.HashTable ε σ) {key : Bytes} (entry : ε)
    (absent : (table.head (table.hashKeyGenerate key hashBit)).find?
      (fun entry => table.hashKeyCompare key entry.key) = none) :
    Daemon.hashAdd table key entry = some { table with
      head := Function.update table.head (table.hashKeyGenerate key hashBit)
        (⟨key, entry⟩ :: table.head (table.hashKeyGenerate key hashBit)) } := by
  refine if_neg fun hit => ?_
  obtain ⟨e, member, same⟩ := List.any_eq_true.mp hit
  exact List.find?_eq_none.mp absent e member same

theorem hashAdd_known {ε σ : Type} (table : Daemon.HashTable ε σ) {key : Bytes} (entry : ε) {old : HashEntry ε}
    (found : (table.head (table.hashKeyGenerate key hashBit)).find?
      (fun entry => table.hashKeyCompare key entry.key) = some old) : Daemon.hashAdd table key entry = none :=
  if_pos (List.any_eq_true.mpr ⟨old, List.mem_of_find?_eq_some found, (List.find?_eq_some_iff_append.mp found).1⟩)

/-- A filled entry: what `neigh_add` has copied into the block. -/
theorem holds_filled {mem : Memory} {blk n : Nat} {dst mac : Bytes} :
    (hashEntryInit blk blk (neighFill blk n dst mac mem)).Holds n (neighFilled n blk dst mac) where
  key := Function.update_self ..
  dstAddr := by
    show AddrSame n (Function.update mem.dstAddr blk _ blk) (memcpy (fun _ => 0) dst n)
    rw [Function.update_self]
    exact (addrSame_memcpy _ _ _).trans (addrSame_memcpy _ _ _).symm
  dstMac := by
    show macBytes (Function.update mem.dstMac blk _ blk) = macBytes (memcpy (fun _ => 0) mac ethAlen)
    rw [Function.update_self]
    exact List.map_congr_left fun i inside => (addrSame_memcpy _ _ _ i (List.mem_range.mp inside)).trans
      (addrSame_memcpy _ _ _ i (List.mem_range.mp inside)).symm

/-- An unused address: the filled block becomes the first entry of its chain. -/
theorem add_new (sim : Sim st ms own bound) (here : st.table t = some (family, neigh)) {n blk : Nat}
    (size : family.bytes = some n) (free : own blk = none) (live : st.heap.pool.live blk = true) (dst mac : Bytes) :
    ∃ own', Sim (st.set t (some (family, neigh.withHead (Function.update neigh.table.head
        (neigh.table.hashKeyGenerate (neighFilled n blk dst mac).key hashBit)
        (neighFilled n blk dst mac ::
          neigh.table.head (neigh.table.hashKeyGenerate (neighFilled n blk dst mac).key hashBit))))) st.heap)
      { ms with mem := { hashEntryInit blk blk (neighFill blk n dst mac ms.mem) with
        links := hlistAddFirst (neigh.blk, neigh.table.hashKeyGenerate (neighFilled n blk dst mac).key hashBit) blk
          ms.mem.links } } own' (bound + 1) := by
  have filled := sim.write free (hashEntryInit blk blk (neighFill blk n dst mac ms.mem)) rfl rfl fun b other =>
    ⟨Function.update_of_ne other .., Function.update_of_ne other .., Function.update_of_ne other ..⟩
  obtain ⟨n', -, held⟩ := filled.held t family neigh here
  refine ⟨_, filled.link (neighFilled n blk dst mac) here (held.bounded _) free live fun n' size' => ?_⟩
  obtain rfl := Option.some.inj (size.symm.trans size')
  exact holds_filled

theorem add (sim : Sim st ms own bound) (here : st.table t = some (family, neigh)) (enough : bound ≤ fuel)
    (dst mac : Bytes) :
    ∃ mem own', neighAdd fuel (pointers neigh) family dst mac ms.mem =
        some ((Daemon.neighAdd neigh family dst mac st.heap).1, mem) ∧
      Sim (st.set t (some (family, (Daemon.neighAdd neigh family dst mac st.heap).2.1))
        (Daemon.neighAdd neigh family dst mac st.heap).2.2) { ms with mem } own' (bound + 1) := by
  obtain ⟨n, size, -⟩ := sim.held t family neigh here
  rcases sim.alloc with ⟨heap, mem, listed, inMem, after⟩ | ⟨blk, heap, mem, listed, inMem, free, live, after⟩
  · rw [neighAdd, inMem, Daemon.neighAdd, listed]
    refine ⟨mem, own, rfl, ?_⟩
    rw [set_same _ here]
    exact after.mono (Nat.le_succ _)
  · -- the block is filled, and its key points into it
    have filled := after.write free (hashEntryInit blk blk (neighFill blk n dst mac mem)) rfl rfl fun b other =>
      ⟨Function.update_of_ne other .., Function.update_of_ne other .., Function.update_of_ne other ..⟩
    obtain ⟨n', size', held⟩ := filled.held t family neigh here
    obtain rfl := Option.some.inj (size.symm.trans size')
    have key : AddrSame n ((hashEntryInit blk blk (neighFill blk n dst mac mem)).dstAddr blk)
        (neighFilled n blk dst mac).key := (@holds_filled mem blk n dst mac).dstAddr
    have search := held.find enough key
    have bucket : neigh.table.hashKeyGenerate ((hashEntryInit blk blk (neighFill blk n dst mac mem)).dstAddr blk)
        hashBit = neigh.table.hashKeyGenerate (neighFilled n blk dst mac).key hashBit := held.generate key
    rw [neighAdd, inMem, Daemon.neighAdd, listed]
    simp only [size, hashAdd, search, Option.map_some]
    rcases found : (neigh.table.head (neigh.table.hashKeyGenerate (neighFilled n blk dst mac).key hashBit)).find?
        fun entry => neigh.table.hashKeyCompare (neighFilled n blk dst mac).key entry.key with _ | old
    · obtain ⟨own', done⟩ := after.add_new here size free live dst mac
      have new := hashAdd_new neigh.table (neighFilled n blk dst mac).owner found
      change Daemon.hashAdd neigh.table (memcpy (fun _ => 0) dst n)
        ⟨blk, memcpy (fun _ => 0) mac ethAlen, memcpy (fun _ => 0) dst n⟩ = _ at new
      rw [found, new]
      refine ⟨_, own', rfl, ?_⟩
      rw [← bucket] at done ⊢
      exact done
    · have known := hashAdd_known neigh.table (neighFilled n blk dst mac).owner found
      change Daemon.hashAdd neigh.table (memcpy (fun _ => 0) dst n)
        ⟨blk, memcpy (fun _ => 0) mac ethAlen, memcpy (fun _ => 0) dst n⟩ = _ at known
      rw [found, known]
      refine ⟨_, own, rfl, ?_⟩
      rw [set_same _ here]
      exact (filled.free free).mono (Nat.le_succ _)

/-! ## A table comes and goes -/

section Make

variable {b n : Nat} {links : BackLinked.Heap (Nat × Nat) Nat}

/-- Stores to heads in a block of nobody's. -/
theorem init (sim : Sim st ms own bound) (free : own b = none)
    (others : ∀ head nodes, head.1 ≠ b → IsHlist ms.mem.links head nodes → IsHlist links head nodes) :
    Sim st { ms with mem := { ms.mem with links } } own bound := by
  refine sim.keep _ st.heap sim.pool sim.live fun t n neigh held => ?_
  refine held.frame (Nat.le_refl _) (fun i nodes _ hlist => ?_) (fun _ _ _ => ⟨rfl, rfl, rfl⟩) fun _ _ owned _ => owned
  refine others _ _ ?_ hlist
  rintro rfl
  rw [held.owned] at free
  cases free

/-- Table `t` is another one, and a block that no other table has goes to it or to nobody. -/
theorem retable {o : Option Owner} {new : Option (Family × NeighTable)} (sim : Sim st ms own bound)
    (mine : ∀ o, own b = some o → o.of = t) (live : o ≠ none → st.heap.pool.live b = true)
    (held : ∀ family neigh, new = some (family, neigh) →
      ∃ n, family.bytes = some n ∧ Held ms.mem (Function.update own b o) bound t n neigh) :
    Sim (st.set t new st.heap) (ms.set t (new.map fun (family, neigh) => (family, pointers neigh)) ms.mem)
      (Function.update own b o) bound := by
  refine ⟨sim.pool, fun t' => ?_, fun b' owned => ?_, fun t' family' neigh' there => ?_⟩
  · show Function.update ms.table t _ t' = (Function.update st.table t _ t').map _
    by_cases same : t' = t
    · rw [same, Function.update_self, Function.update_self]
    · rw [Function.update_of_ne same, Function.update_of_ne same, sim.table]
  · by_cases same : b' = b
    · rw [same, Function.update_self] at owned
      exact same ▸ live owned
    · rw [Function.update_of_ne same] at owned
      exact sim.live b' owned
  · by_cases same : t' = t
    · subst same
      rw [OnLists.set_self] at there
      exact held family' neigh' there
    · rw [OnLists.set_of_ne same] at there
      obtain ⟨n', size', held'⟩ := sim.held t' family' neigh' there
      refine ⟨n', size', held'.frame (Nat.le_refl _) (fun _ _ _ hlist => hlist) (fun _ _ _ => ⟨rfl, rfl, rfl⟩) ?_⟩
      intro b' o' owned of
      refine (Function.update_of_ne ?_ ..).trans owned
      rintro rfl
      exact same (of.symm.trans (mine o' owned))

/-- The table that `neigh_alloc` returns is held, with nothing in it. -/
theorem held_new {mem : Memory} {h h' : Heap} (size : family.bytes = some n)
    (made : Daemon.neighAlloc family h = (some neigh, h'))
    (chains : ∀ i < 2 ^ hashBit, IsHlist mem.links (neigh.blk, i) []) :
    Held mem (Function.update own neigh.blk (some (.table t))) bound t n neigh := by
  obtain ⟨ok, -⟩ := neighAlloc_spec size made
  obtain ⟨bounded, -⟩ := neighAlloc_bounded made
  have empty : ∀ i, neigh.table.head i = [] := by
    obtain ⟨blk, -, ⟨-, rfl⟩ | ⟨-, rfl⟩⟩ := neighAlloc_cases made
    · exact fun _ => rfl
    · exact fun _ => rfl
  refine ⟨ok.compare, ok.generate, bounded, ok.delete, Function.update_self .., fun i inside => ?_,
    fun i _ entry member => ?_, fun i _ => ?_⟩
  · rw [empty]
    exact chains i inside
  · rw [empty] at member
    cases member
  · rw [empty]
    exact Nat.zero_le _

end Make

/-- `neigh_alloc` returns no table in both, or a new one. -/
theorem allocTable (sim : Sim st ms own bound) (t : Nat) (family : Family) :
    (∃ mem heap, Daemon.neighAlloc family st.heap = (none, heap) ∧ neighAlloc family ms.mem = (none, mem) ∧
      Sim { st with heap } { ms with mem } own bound) ∨
    ∃ neigh mem heap own', Daemon.neighAlloc family st.heap = (some neigh, heap) ∧
      neighAlloc family ms.mem = (some (pointers neigh), mem) ∧
      Sim (st.set t (some (family, neigh)) heap) (ms.set t (some (family, pointers neigh)) mem) own' bound := by
  rcases sim.alloc with ⟨heap, mem, listed, inMem, after⟩ | ⟨blk, heap, mem, listed, inMem, free, live, after⟩
  · left
    refine ⟨mem, heap, ?_, ?_, after⟩
    · rw [Daemon.neighAlloc, listed]
    · rw [neighAlloc, inMem]
  · obtain ⟨links, init, empty, others⟩ := hashInit_links blk mem
    have ready : Sim { st with heap } { ms with mem := { mem with links } } own bound := after.init free others
    have made : ∀ {neigh n}, family.bytes = some n → neigh.blk = blk →
        Daemon.neighAlloc family st.heap = (some neigh, heap) →
        Sim (st.set t (some (family, neigh)) heap) (ms.set t (some (family, pointers neigh)) { mem with links })
          (Function.update own blk (some (.table t))) bound := by
      intro neigh n size same made
      subst same
      refine ready.retable (fun o owned => ?_) (fun _ => live) ?_
      · rw [free] at owned
        cases owned
      · rintro _ _ ⟨⟩
        exact ⟨n, size, held_new size made empty⟩
    cases family with
    | inet =>
        have new : Daemon.neighAlloc .inet st.heap = (some ⟨blk, fun _ => [], Daemon.neighEntryDelete,
            neighKeyGenerateV4, neighKeyCompareV4⟩, heap) := by
          rw [Daemon.neighAlloc, listed]
        refine .inr ⟨_, _, heap, _, new, ?_, made rfl rfl new⟩
        rw [neighAlloc, inMem, ← init]
        rfl
    | inet6 =>
        have new : Daemon.neighAlloc .inet6 st.heap = (some ⟨blk, fun _ => [], Daemon.neighEntryDelete,
            neighKeyGenerateV6, neighKeyCompareV6⟩, heap) := by
          rw [Daemon.neighAlloc, listed]
        refine .inr ⟨_, _, heap, _, new, ?_, made rfl rfl new⟩
        rw [neighAlloc, inMem, ← init]
        rfl
    | other =>
        refine .inl ⟨_, heap.free blk, ?_, ?_, ready.free free⟩
        · rw [Daemon.neighAlloc, listed]
        · rw [neighAlloc, inMem]
          dsimp only
          rw [init]

/-- The inner loop of `hash_delete_all` empties a chain, from its first entry on. -/
theorem deleteChain_empties {entries : List (HashEntry NeighEntry)} {i : Nat} (inside : i < 2 ^ hashBit)
    (sim : Sim st ms own bound) (here : st.table t = some (family, neigh)) (chain : neigh.table.head i = entries)
    (enough : entries.length ≤ fuel) (temp : Option Nat) :
    ∃ temp' mem own', deleteChain (pointers neigh) fuel (blks entries).head?
        (readNext ms.mem.links (blks entries).head? temp) ms.mem = some (temp', mem) ∧
      Sim (st.set t (some (family, neigh.withHead (Function.update neigh.table.head i [])))
        (entries.foldl (fun heap entry => heap.free entry.owner.blk) st.heap)) { ms with mem } own' bound := by
  induction entries generalizing st ms own neigh fuel temp with
  | nil =>
      refine ⟨temp, ms.mem, own, ?_, ?_⟩
      · cases fuel <;> rfl
      · have same : neigh.withHead (Function.update neigh.table.head i []) = neigh := by
          rw [← chain, Function.update_eq_self]
          rfl
        rw [same, set_same _ here]
        exact sim
  | cons entry rest ih =>
      obtain ⟨fuel, rfl⟩ := Nat.exists_eq_add_one.mpr (Nat.zero_lt_of_lt enough)
      obtain ⟨n, -, held⟩ := sim.held t family neigh here
      -- `temp` was read before the entry went
      have next : readNext ms.mem.links (blks (entry :: rest)).head? temp = (blks rest).head? := by
        have whole := (held.chain i inside).chain
        rw [chain] at whole
        exact whole.2.2.cell_first
      have first : neigh.table.head i = [] ++ entry :: rest := chain
      have gone := sim.unlink here inside first
      rw [List.nil_append] at gone
      have now : (neigh.withHead (Function.update neigh.table.head i rest)).table.head i = rest :=
        Function.update_self ..
      obtain ⟨temp', mem, own', loop, after⟩ := ih gone OnLists.set_self now (Nat.le_of_succ_le_succ enough)
        (blks rest).head?
      refine ⟨temp', mem, own', ?_, ?_⟩
      · rw [next]
        exact loop
      · rw [OnLists.set_set] at after
        have same : (neigh.withHead (Function.update neigh.table.head i rest)).withHead
            (Function.update (neigh.withHead (Function.update neigh.table.head i rest)).table.head i []) =
              neigh.withHead (Function.update neigh.table.head i []) := by
          show neigh.withHead (Function.update (Function.update neigh.table.head i rest) i []) = _
          rw [Function.update_idem]
        rw [same] at after
        exact after

/-- The blocks of the chains from bucket `i` on go back to the pool, in turn. -/
def freeChains (head : Nat → List (HashEntry NeighEntry)) (i todo : Nat) (heap : Heap) : Heap :=
  (List.range' i todo).foldl
    (fun heap i => (head i).foldl (fun heap entry => heap.free entry.owner.blk) heap) heap

/-- The outer loop: `head` is what the chains that are left held at the start. -/
theorem deleteChains_empties {head : Nat → List (HashEntry NeighEntry)} {todo i : Nat}
    (inside : i + todo ≤ 2 ^ hashBit) (sim : Sim st ms own bound) (here : st.table t = some (family, neigh))
    (left : ∀ j ≥ i, neigh.table.head j = head j) (enough : bound ≤ fuel) (temp : Option Nat) :
    ∃ mem own' neigh', deleteChains fuel (pointers neigh) todo i temp ms.mem = some mem ∧
      Sim (st.set t (some (family, neigh')) (freeChains head i todo st.heap)) { ms with mem } own' bound ∧
      neigh'.blk = neigh.blk := by
  induction todo generalizing st ms own neigh i temp with
  | zero =>
      refine ⟨ms.mem, own, neigh, rfl, ?_, rfl⟩
      rw [set_same _ here]
      exact sim
  | succ todo ih =>
      have small : i < 2 ^ hashBit := by omega
      obtain ⟨n, -, held⟩ := sim.held t family neigh here
      have chain := left i (Nat.le_refl i)
      have short : (head i).length ≤ fuel := by
        rw [← chain]
        exact Nat.le_trans (held.short i small) enough
      obtain ⟨temp', mem, own', inner, after⟩ := deleteChain_empties small sim here chain short temp
      have left' : ∀ j ≥ i + 1,
          (neigh.withHead (Function.update neigh.table.head i [])).table.head j = head j := by
        intro j beyond
        exact (Function.update_of_ne (by omega) ..).trans (left j (by omega))
      obtain ⟨mem', own'', neigh', outer, done, blk⟩ := ih (by omega) after OnLists.set_self left' temp'
      refine ⟨mem', own'', neigh', ?_, ?_, blk⟩
      · have first : ms.mem.links.cell (.first ((pointers neigh).blk, i)) = (blks (head i)).head? := by
          rw [← chain]
          exact (held.chain i small).chain.cell_first
        rw [deleteChains, first, inner]
        exact outer
      · rw [OnLists.set_set] at done
        exact done

/-- A table goes: its block is nobody's. -/
theorem drop (sim : Sim st ms own bound) (here : st.table t = some (family, neigh)) :
    Sim (st.set t none (st.heap.free neigh.blk)) (ms.set t none (ms.mem.free neigh.blk))
      (Function.update own neigh.blk none) bound := by
  obtain ⟨n, -, held⟩ := sim.held t family neigh here
  have gone : Sim (st.set t none st.heap) (ms.set t none ms.mem) (Function.update own neigh.blk none) bound := by
    refine sim.retable (fun o owned => ?_) (fun out => absurd rfl out) nofun
    rw [← Option.some.inj (held.owned.symm.trans owned), Owner.of]
  exact gone.free (Function.update_self ..)

theorem neighRelease_heap (plain : neigh.Plain) (heap : Heap) :
    Daemon.neighRelease neigh heap = (freeChains neigh.table.head 0 (2 ^ hashBit) heap).free neigh.blk := by
  have deletes : (fun (heap : Heap) (entry : HashEntry NeighEntry) =>
      neigh.table.hashEntryDelete entry.owner heap) = fun heap entry => heap.free entry.owner.blk := by
    rw [plain]
    rfl
  unfold Daemon.neighRelease Daemon.hashDeleteAll freeChains
  rw [deletes, List.range_eq_range']

theorem release (sim : Sim st ms own bound) (here : st.table t = some (family, neigh)) (enough : bound ≤ fuel)
    (temp : Option Nat) :
    ∃ mem own', neighRelease fuel (pointers neigh) temp ms.mem = some mem ∧
      Sim (st.set t none (Daemon.neighRelease neigh st.heap)) (ms.set t none mem) own' bound := by
  obtain ⟨n, -, held⟩ := sim.held t family neigh here
  obtain ⟨mem, own', neigh', loops, after, blk⟩ :=
    deleteChains_empties (Nat.le_of_eq (Nat.zero_add _)) sim here (fun _ _ => rfl) enough temp
  have done := after.drop OnLists.set_self
  rw [OnLists.set_set, OnLists.set_heap, blk] at done
  refine ⟨mem.free neigh.blk, Function.update own' neigh.blk none, ?_, ?_⟩
  · rw [neighRelease, hashDeleteAll, loops]
    rfl
  · rw [neighRelease_heap held.plain]
    exact done

/-! ## Whole runs -/

/-- A call in memory does what the call on lists does. -/
theorem call (sim : Sim st ms own bound) (enough : bound ≤ fuel) (temp : Option Nat) (use : TableUse) :
    ∃ ms' own', ms.call fuel temp use = some ((st.call use).1, ms') ∧ Sim (st.call use).2 ms' own' (bound + 1) := by
  cases use with
  | alloc t family =>
      have table := sim.table t
      rcases here : st.table t with _ | ⟨family', neigh⟩
      · rw [here] at table
        rcases sim.allocTable t family with
          ⟨mem, heap, listed, inMem, after⟩ | ⟨neigh, mem, heap, own', listed, inMem, after⟩
        · simp only [InMem.call, OnLists.call, here, table, Option.map_none, listed, inMem]
          exact ⟨_, own, rfl, after.mono (Nat.le_succ _)⟩
        · simp only [InMem.call, OnLists.call, here, table, Option.map_none, listed, inMem]
          exact ⟨_, own', rfl, after.mono (Nat.le_succ _)⟩
      · rw [here] at table
        simp only [InMem.call, OnLists.call, here, table, Option.map_some]
        exact ⟨_, own, rfl, sim.mono (Nat.le_succ _)⟩
  | add t dst mac =>
      have table := sim.table t
      rcases here : st.table t with _ | ⟨family, neigh⟩
      · rw [here] at table
        simp only [InMem.call, OnLists.call, here, table, Option.map_none]
        exact ⟨_, own, rfl, sim.mono (Nat.le_succ _)⟩
      · rw [here] at table
        obtain ⟨mem, own', inMem, after⟩ := sim.add here enough dst mac
        simp only [InMem.call, OnLists.call, here, table, Option.map_some, inMem]
        exact ⟨_, own', rfl, after⟩
  | delete t dst =>
      have table := sim.table t
      rcases here : st.table t with _ | ⟨family, neigh⟩
      · rw [here] at table
        simp only [InMem.call, OnLists.call, here, table, Option.map_none]
        exact ⟨_, own, rfl, sim.mono (Nat.le_succ _)⟩
      · rw [here] at table
        obtain ⟨mem, own', inMem, after⟩ := sim.delete here enough dst
        simp only [InMem.call, OnLists.call, here, table, Option.map_some, inMem]
        exact ⟨_, own', rfl, after.mono (Nat.le_succ _)⟩
  | lookup t dst =>
      have table := sim.table t
      rcases here : st.table t with _ | ⟨family, neigh⟩
      · rw [here] at table
        simp only [InMem.call, OnLists.call, here, table, Option.map_none]
        exact ⟨_, own, rfl, sim.mono (Nat.le_succ _)⟩
      · rw [here] at table
        obtain ⟨entry, inMem, same⟩ := sim.lookup here enough dst
        simp only [InMem.call, OnLists.call, here, table, Option.map_some, inMem, same]
        exact ⟨_, own, rfl, sim.mono (Nat.le_succ _)⟩
  | release t =>
      have table := sim.table t
      rcases here : st.table t with _ | ⟨family, neigh⟩
      · rw [here] at table
        simp only [InMem.call, OnLists.call, here, table, Option.map_none]
        exact ⟨_, own, rfl, sim.mono (Nat.le_succ _)⟩
      · rw [here] at table
        obtain ⟨mem, own', inMem, after⟩ := sim.release here enough temp
        simp only [InMem.call, OnLists.call, here, table, Option.map_some, inMem]
        exact ⟨_, own', rfl, after.mono (Nat.le_succ _)⟩

/-- Chains grow by at most one entry a call, so fuel for the calls is fuel for every chain. -/
theorem run (sim : Sim st ms own bound) (uses : List TableUse) (enough : bound + uses.length ≤ fuel)
    (temp : Option Nat) :
    ∃ ms' own', ms.run fuel temp uses = some ((st.run uses).1, ms') ∧
      Sim (st.run uses).2 ms' own' (bound + uses.length) := by
  induction uses generalizing st ms own bound with
  | nil => exact ⟨ms, own, rfl, sim⟩
  | cons use uses ih =>
      rw [List.length_cons] at enough ⊢
      obtain ⟨ms', own', first, after⟩ := sim.call (show bound ≤ fuel by omega) temp use
      obtain ⟨ms'', own'', later, done⟩ := ih after (by omega)
      refine ⟨ms'', own'', ?_, ?_⟩
      · rw [InMem.run, first, Option.bind_some]
        dsimp only
        rw [later]
        rfl
      · rw [show bound + (uses.length + 1) = bound + 1 + uses.length by omega]
        exact done

end Sim

/-- **The neighbour tables in memory are the tables on lists.** Take any memory and pool,
any contents of the blocks that come from the pool and go back to it, and any run of
calls that make tables, add, delete and look up addresses in them and release them. The
code in memory comes to an end, returns what the calls on lists return, with the same
blocks, and leaves the pool as they do: the same blocks out, refused and freed. In the
end the hlists of each table are its chains. -/
theorem neigh_tables_in_memory (mem : Memory) (temp : Option Nat) (uses : List TableUse) {fuel : Nat}
    (enough : uses.length ≤ fuel) :
    let start : OnLists := ⟨mem.pool, fun _ => none⟩
    ∃ ms, InMem.run fuel temp ⟨mem, fun _ => none⟩ uses = some ((start.run uses).1, ms) ∧
      ms.mem.pool = (start.run uses).2.heap ∧
      ∀ t family neigh, (start.run uses).2.table t = some (family, neigh) →
        ms.table t = some (family, pointers neigh) ∧
        ∀ i < 2 ^ hashBit, IsHlist ms.mem.links (neigh.blk, i) (blks (neigh.table.head i)) ∧
          ∀ entry ∈ neigh.table.head i, ms.mem.pool.pool.live entry.owner.blk = true := by
  intro start
  have sim : Sim start ⟨mem, fun _ => none⟩ (fun _ => none) 0 :=
    ⟨rfl, fun _ => rfl, fun b owned => absurd rfl owned, fun _ _ _ here => by cases here⟩
  obtain ⟨ms, own, ran, after⟩ := sim.run uses (show 0 + uses.length ≤ fuel by omega) temp
  refine ⟨ms, ran, after.pool, fun t family neigh here => ⟨?_, fun i inside => ?_⟩⟩
  · rw [after.table, here]
    rfl
  · obtain ⟨n, -, held⟩ := after.held t family neigh here
    refine ⟨held.chain i inside, fun entry member => ?_⟩
    rw [after.pool]
    refine after.live _ ?_
    rw [(held.entry i inside entry member).1]
    exact nofun

/-- Memory full of pointers that lead nowhere. -/
def sampleMemory : Memory where
  pool := sampleHeap some
  links := ⟨fun _ => some 7, fun _ => .next 7⟩
  key := fun _ => 7
  dstMac := fun _ _ => 7
  dstAddr := fun _ _ => 7
  dirt := fun _ => ⟨fun _ => some 7, some 7, .next 7, 7, fun _ => 7, fun _ => 7⟩
  time := 0

/-- An address is bound in one table and looked up in two. -/
theorem neigh_tables_in_memory_sample :
    let uses := [.alloc 0 .inet, .alloc 1 .inet, .add 0 (fun _ => 1) (fun _ => 2), .lookup 0 (fun _ => 1),
      .lookup 1 (fun _ => 1), .release 0]
    uses.length ≤ 6 ∧ ∃ ms, InMem.run 6 none ⟨sampleMemory, fun _ => none⟩ uses =
      some ([.returned true, .returned true, .returned true, .found (some (2, [2, 2, 2, 2, 2, 2])), .found none,
        .returned true], ms) := by
  intro uses
  obtain ⟨ms, ran, -⟩ := neigh_tables_in_memory sampleMemory none uses (Nat.le_refl 6)
  have replies : (OnLists.run ⟨sampleMemory.pool, fun _ => none⟩ uses).1 =
      [.returned true, .returned true, .returned true, .found (some (2, [2, 2, 2, 2, 2, 2])), .found none,
        .returned true] := by
    decide +kernel
  rw [replies] at ran
  exact ⟨Nat.le_refl 6, ms, ran⟩

end Ufp.Daemon.InMemory
