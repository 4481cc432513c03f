/-
# Ufp.Daemon.FibLayout — what stands where in a prefix table

A position of the trie is a level `c`, a multiple of 8 from 16 on, and the leading
`c` bits `w` of the addresses that lead there. `Node.entries` and `Node.tables` list
the entries and the next tables of a node and of all below it, each with its
position. In a table that holds the routes it should, the entries are one for each
route and each position the route covers (`TableOk.entries_perm`), and the next
tables stand at the positions with a route below (`TableOk.mem_tables`).
-/
import Ufp.Daemon.FibInv

namespace Ufp.Daemon

open Ufp.Theory Ufp.Theory.Bits Ufp.Theory.Ranked

set_option autoImplicit false

/-! ## Positions -/

/-- A level and the leading bits. -/
abbrev Position := Nat × Nat

/-- The position is that of the node of level `offset` for the leading bits `v`, or
below it. -/
def Under (offset v : Nat) (p : Position) : Prop :=
  offset ≤ p.1 ∧ (p.1 - offset) % 8 = 0 ∧ p.2 / 2 ^ (p.1 - offset) = v

section Positions

variable {offset v : Nat} {p : Position} {k : Key}

theorem under_self (offset v : Nat) : Under offset v (offset, v) := by simp [Under]

theorem Under.eq_self (under : Under offset v p) (same : p.1 = offset) : p = (offset, v) := by
  obtain ⟨c, w⟩ := p
  obtain rfl : c = offset := same
  simpa [Under] using under

/-- A position below a node is at one of its children or below that. -/
theorem under_child : Under offset v p ∧ p.1 ≠ offset ↔ ∃ i < 256, Under (offset + 8) (v * 256 + i) p := by
  constructor
  · rintro ⟨⟨low, aligned, bits⟩, deeper⟩
    have split : p.1 - offset = p.1 - (offset + 8) + 8 := by omega
    rw [split, Nat.pow_add, ← Nat.div_div_eq_div_mul] at bits
    refine ⟨p.2 / 2 ^ (p.1 - (offset + 8)) % 256, Nat.mod_lt _ (by decide), by omega, by omega, ?_⟩
    omega
  · rintro ⟨i, small, low, aligned, bits⟩
    refine ⟨⟨by omega, by omega, ?_⟩, by omega⟩
    have split : p.1 - offset = p.1 - (offset + 8) + 8 := by omega
    rw [split, Nat.pow_add, ← Nat.div_div_eq_div_mul, bits]
    omega

/-- Of the children only one leads to a position. -/
theorem Under.child_unique {i j : Nat} (first : Under offset (v + i) p) (second : Under offset (v + j) p) : i = j := by
  have := first.2.2.symm.trans second.2.2
  omega

/-- A route that covers a position further down is below the node. -/
theorem Key.Covers.below_of_under (covers : k.Covers p.1 p.2) (low : 16 ≤ offset) (under : Under offset v p)
    (deeper : p.1 ≠ offset) : k.Below offset v := by
  obtain ⟨level, short, agree⟩ := covers
  obtain ⟨above, aligned, bits⟩ := under
  have long : offset < k.len := by omega
  refine ⟨long, ?_⟩
  have split : p.1 - offset = p.1 - k.len + (k.len - offset) := by omega
  rw [← top_div k.bytes (Nat.le_of_lt long), ← agree, Nat.div_div_eq_div_mul, ← Nat.pow_add, ← split, bits]

theorem Key.Below.below_of_under (below : k.Below p.1 p.2) (under : Under offset v p) : k.Below offset v := by
  obtain ⟨long, agree⟩ := below
  obtain ⟨above, -, bits⟩ := under
  refine ⟨by omega, ?_⟩
  rw [← top_div k.bytes above, agree, bits]

end Positions

/-! ## The positions a route covers -/

/-- The level a prefix ends in. -/
def levelOf (len : Nat) : Nat := if len ≤ 16 then 16 else 8 * ((len + 7) / 8)

/-- The bits of that level which the prefix leaves free. -/
def freeBits (len : Nat) : Nat := levelOf len - len

/-- The positions a route covers. -/
def Key.positions (k : Key) : List Position :=
  (List.range (2 ^ freeBits k.len)).map fun j => (levelOf k.len, top k.bytes k.len * 2 ^ freeBits k.len + j)

theorem Key.mem_positions {k : Key} {p : Position} :
    p ∈ k.positions ↔ 16 ≤ p.1 ∧ p.1 % 8 = 0 ∧ k.Covers p.1 p.2 := by
  obtain ⟨c, w⟩ := p
  have positive : 0 < 2 ^ freeBits k.len := Nat.two_pow_pos _
  simp only [Key.positions, List.mem_map, List.mem_range, Prod.mk.injEq]
  constructor
  · rintro ⟨j, small, rfl, rfl⟩
    have level : 16 ≤ levelOf k.len ∧ levelOf k.len % 8 = 0 ∧ (levelOf k.len = 16 ∨ levelOf k.len < k.len + 8) ∧
        k.len ≤ levelOf k.len := by
      unfold levelOf
      split <;> omega
    refine ⟨level.1, level.2.1, level.2.2.1, level.2.2.2, ?_⟩
    show (_ * 2 ^ freeBits k.len + j) / 2 ^ freeBits k.len = _
    rw [Nat.mul_comm, Nat.mul_add_div positive, Nat.div_eq_of_lt small, Nat.add_zero]
  · rintro ⟨low, aligned, level, short, agree⟩
    obtain rfl : levelOf k.len = c := by
      unfold levelOf
      split <;> omega
    refine ⟨w % 2 ^ freeBits k.len, Nat.mod_lt _ positive, rfl, ?_⟩
    rw [← agree]
    exact Nat.div_add_mod' w _

theorem Key.positions_nodup (k : Key) : k.positions.Nodup := by
  refine List.Nodup.map (fun i j same => ?_) List.nodup_range
  have := (Prod.mk.inj same).2
  omega

theorem Key.positions_length (k : Key) : k.positions.length = 2 ^ freeBits k.len := by
  simp [Key.positions]

/-! ## Listing a table -/

namespace Node

/-- The entries of a node and of all below it, with their positions. -/
def entries : Node → Nat → Nat → List (Position × LpmEntry)
  | .leaf head, offset, v => head.map fun e => ((offset, v), e)
  | .inner head _ table, offset, v =>
      (head.map fun e => ((offset, v), e)) ++
        (List.range 256).flatMap fun i => (table i).entries (offset + 8) (v * 256 + i)

/-- The next tables of a node and of all below it, with the positions they hang from. -/
def tables : Node → Nat → Nat → List (Position × Nat)
  | .leaf _, _, _ => []
  | .inner _ blk table, offset, v =>
      ((offset, v), blk) :: (List.range 256).flatMap fun i => (table i).tables (offset + 8) (v * 256 + i)

/-- The blocks of a node are those of its entries and those of its next tables. -/
theorem blocks_perm (node : Node) (offset v : Nat) :
    node.blocks.Perm ((node.entries offset v).map (fun e => e.2.blk) ++ (node.tables offset v).map Prod.snd) := by
  induction node generalizing offset v with
  | leaf head =>
      simp only [blocks, entries, tables, List.map_map, List.map_nil, List.append_nil]
      exact List.Perm.refl _
  | inner head blk table ih =>
      simp only [blocks, entries, tables, List.map_append, List.map_map, List.map_cons, List.append_assoc]
      refine List.Perm.append_left _ ?_
      refine (List.Perm.cons blk ?_).trans List.perm_middle.symm
      rw [List.map_flatMap, List.map_flatMap]
      exact (List.Perm.flatMap_left _ fun i _ => ih i _ _).trans (List.flatMap_append_perm _ _ _).symm

theorem links_eq_entries (node : Node) (offset v : Nat) :
    node.links = (node.entries offset v).map fun e => e.2.ptr := by
  induction node generalizing offset v with
  | leaf head => simp [links, entries]
  | inner head blk table ih =>
      simp only [links, entries, List.map_append, List.map_map, List.map_flatMap]
      congr 1
      exact List.flatMap_congr fun i _ => ih i _ _

theorem entries_under {node : Node} {offset v : Nat} {e : Position × LpmEntry}
    (member : e ∈ node.entries offset v) : Under offset v e.1 := by
  induction node generalizing offset v with
  | leaf head =>
      obtain ⟨entry, -, rfl⟩ := List.mem_map.mp member
      exact under_self offset v
  | inner head blk table ih =>
      rcases List.mem_append.mp member with here | below
      · obtain ⟨entry, -, rfl⟩ := List.mem_map.mp here
        exact under_self offset v
      · obtain ⟨i, small, deeper⟩ := List.mem_flatMap.mp below
        exact (under_child.mpr ⟨i, List.mem_range.mp small, ih i deeper⟩).1

theorem tables_under {node : Node} {offset v : Nat} {t : Position × Nat} (member : t ∈ node.tables offset v) :
    Under offset v t.1 := by
  induction node generalizing offset v with
  | leaf head => cases member
  | inner head blk table ih =>
      rcases List.mem_cons.mp member with rfl | below
      · exact under_self offset v
      · obtain ⟨i, small, deeper⟩ := List.mem_flatMap.mp below
        exact (under_child.mpr ⟨i, List.mem_range.mp small, ih i deeper⟩).1

end Node

/-- What stands at different children is different, if it tells its position. -/
theorem children_disjoint {α : Type} {f : Nat → List α} (position : α → Position) (offset v : Nat) {n : Nat}
    (under : ∀ i, ∀ a ∈ f i, Under offset (v + i) (position a)) :
    (List.range n).Pairwise (Function.onFun List.Disjoint f) := by
  refine List.nodup_range.imp fun {i j} ne a first second => ne ?_
  exact (under i a first).child_unique (under j a second)

theorem Node.tables_nodup (node : Node) (offset v : Nat) : ((node.tables offset v).map Prod.fst).Nodup := by
  induction node generalizing offset v with
  | leaf head => exact List.nodup_nil
  | inner head blk table ih =>
      rw [Node.tables, List.map_cons, List.map_flatMap, List.nodup_cons, List.nodup_flatMap]
      have under : ∀ i, ∀ p ∈ ((table i).tables (offset + 8) (v * 256 + i)).map Prod.fst,
          Under (offset + 8) (v * 256 + i) p := by
        intro i p member
        obtain ⟨t, deeper, rfl⟩ := List.mem_map.mp member
        exact Node.tables_under deeper
      refine ⟨?_, fun i _ => ih i _ _, children_disjoint id _ _ under⟩
      intro member
      obtain ⟨i, small, deeper⟩ := List.mem_flatMap.mp member
      exact (under_child.mpr ⟨i, List.mem_range.mp small, under i _ deeper⟩).2 rfl

section Holds

variable {stored : List Stored} {offset v : Nat} {node : Node}

theorem NodeOk.mem_head (ok : NodeOk stored offset v node) {p : Position} {ptr : Nat} :
    (p, ptr) ∈ node.head.map (fun e => ((offset, v), e.ptr)) ↔
      p = (offset, v) ∧ ∃ s ∈ stored, s.addr = ptr ∧ s.route.Covers offset v := by
  constructor
  · intro member
    obtain ⟨entry, linked, eq⟩ := List.mem_map.mp member
    obtain ⟨rfl, rfl⟩ := Prod.mk.inj eq
    exact ⟨rfl, ok.entry linked⟩
  · rintro ⟨rfl, s, member, rfl, covers⟩
    obtain ⟨entry, linked, ptr⟩ := ok.entry_of_covers member covers
    exact List.mem_map.mpr ⟨entry, linked, by rw [ptr]⟩

theorem mem_belowOf {s : Stored} : s ∈ belowOf stored offset v ↔ s ∈ stored ∧ s.route.Below offset v := by
  simp [belowOf]

/-- The entries at a position are those of the routes that cover it. -/
theorem NodeOk.mem_entries (low : 16 ≤ offset) (ok : NodeOk stored offset v node) {p : Position} {ptr : Nat} :
    (p, ptr) ∈ (node.entries offset v).map (fun e => (e.1, e.2.ptr)) ↔
      Under offset v p ∧ ∃ s ∈ stored, s.addr = ptr ∧ s.route.Covers p.1 p.2 := by
  induction node generalizing offset v with
  | leaf head =>
      rw [Node.entries, List.map_map]
      refine ok.mem_head.trans ⟨?_, ?_⟩
      · rintro ⟨rfl, found⟩
        exact ⟨under_self offset v, found⟩
      · rintro ⟨under, s, member, addr, covers⟩
        by_cases same : p.1 = offset
        · obtain rfl := under.eq_self same
          exact ⟨rfl, s, member, addr, covers⟩
        · have below := mem_belowOf.mpr ⟨member, covers.below_of_under low under same⟩
          rw [ok.2] at below
          cases below
  | inner head blk table ih =>
      rw [Node.entries, List.map_append, List.map_map, List.map_flatMap, List.mem_append, List.mem_flatMap]
      have children : ∀ i < 256, ((p, ptr) ∈ ((table i).entries (offset + 8) (v * 256 + i)).map
          (fun e => (e.1, e.2.ptr)) ↔ Under (offset + 8) (v * 256 + i) p ∧
            ∃ s ∈ stored, s.addr = ptr ∧ s.route.Covers p.1 p.2) :=
        fun i small => ih i (by omega) (ok.2.2 i small)
      constructor
      · rintro (here | ⟨i, small, deeper⟩)
        · obtain ⟨rfl, found⟩ := ok.mem_head.mp here
          exact ⟨under_self offset v, found⟩
        · rw [List.mem_range] at small
          obtain ⟨under, found⟩ := (children i small).mp deeper
          exact ⟨(under_child.mpr ⟨i, small, under⟩).1, found⟩
      · rintro ⟨under, found⟩
        by_cases same : p.1 = offset
        · obtain rfl := under.eq_self same
          exact .inl (ok.mem_head.mpr ⟨rfl, found⟩)
        · obtain ⟨i, small, deeper⟩ := under_child.mp ⟨under, same⟩
          exact .inr ⟨i, List.mem_range.mpr small, (children i small).mpr ⟨deeper, found⟩⟩

/-- A next table hangs from a position exactly if some route is below it. -/
theorem NodeOk.mem_tables (low : 16 ≤ offset) (ok : NodeOk stored offset v node) {p : Position} :
    p ∈ (node.tables offset v).map Prod.fst ↔ Under offset v p ∧ ∃ s ∈ stored, s.route.Below p.1 p.2 := by
  induction node generalizing offset v with
  | leaf head =>
      refine iff_of_false (fun member => by cases member) ?_
      rintro ⟨under, s, member, below⟩
      have held := mem_belowOf.mpr ⟨member, below.below_of_under under⟩
      rw [ok.2] at held
      cases held
  | inner head blk table ih =>
      rw [Node.tables, List.map_cons, List.map_flatMap, List.mem_cons, List.mem_flatMap]
      have children : ∀ i < 256, (p ∈ ((table i).tables (offset + 8) (v * 256 + i)).map Prod.fst ↔
          Under (offset + 8) (v * 256 + i) p ∧ ∃ s ∈ stored, s.route.Below p.1 p.2) :=
        fun i small => ih i (by omega) (ok.2.2 i small)
      constructor
      · rintro (rfl | ⟨i, small, deeper⟩)
        · obtain ⟨s, held⟩ := List.exists_mem_of_ne_nil _ ok.2.1
          obtain ⟨member, below⟩ := mem_belowOf.mp held
          exact ⟨under_self offset v, s, member, below⟩
        · rw [List.mem_range] at small
          obtain ⟨under, found⟩ := (children i small).mp deeper
          exact ⟨(under_child.mpr ⟨i, small, under⟩).1, found⟩
      · rintro ⟨under, found⟩
        by_cases same : p.1 = offset
        · exact .inl (under.eq_self same)
        · obtain ⟨i, small, deeper⟩ := under_child.mp ⟨under, same⟩
          exact .inr ⟨i, List.mem_range.mpr small, (children i small).mpr ⟨deeper, found⟩⟩

/-- A node lists a route once. -/
theorem NodeOk.head_nodup (ok : NodeOk stored offset v node) (addrs : (stored.map Stored.addr).Nodup) :
    (node.head.map fun e => ((offset, v), e.ptr)).Nodup := by
  have ranked : ((ranking stored offset v).map Stored.addr).Nodup := by
    refine ((List.perm_insertionSort _ _).map Stored.addr).nodup_iff.mpr ?_
    exact addrs.sublist (List.filter_sublist.map _)
  rw [← ok.head] at ranked
  have pairs := ranked.map (f := Prod.mk (offset, v)) fun a b same => (Prod.mk.inj same).2
  rwa [List.map_map] at pairs

theorem NodeOk.entries_nodup (ok : NodeOk stored offset v node) (addrs : (stored.map Stored.addr).Nodup) :
    ((node.entries offset v).map fun e => (e.1, e.2.ptr)).Nodup := by
  induction node generalizing offset v with
  | leaf head =>
      rw [Node.entries, List.map_map]
      exact ok.head_nodup addrs
  | inner head blk table ih =>
      have under : ∀ i, ∀ e ∈ ((table i).entries (offset + 8) (v * 256 + i)).map (fun e => (e.1, e.2.ptr)),
          Under (offset + 8) (v * 256 + i) e.1 := by
        intro i e member
        obtain ⟨entry, deeper, rfl⟩ := List.mem_map.mp member
        exact Node.entries_under deeper
      rw [Node.entries, List.map_append, List.map_map, List.map_flatMap, List.nodup_append']
      refine ⟨ok.head_nodup addrs, List.nodup_flatMap.mpr ⟨fun i small => ?_, children_disjoint Prod.fst _ _ under⟩, ?_⟩
      · exact ih i (ok.2.2 i (List.mem_range.mp small))
      · rintro ⟨p, ptr⟩ here below
        obtain ⟨i, small, deeper⟩ := List.mem_flatMap.mp below
        refine (under_child.mpr ⟨i, List.mem_range.mp small, under i _ deeper⟩).2 ?_
        exact congrArg Prod.fst (ok.mem_head.mp here).1

end Holds

/-! ## The whole table -/

/-- The entries of a table, with their positions. -/
def tableEntries (table : Table) : List (Position × LpmEntry) :=
  (List.range tableSize16).flatMap fun v => (table v).entries 16 v

/-- The next tables of a table, with the positions they hang from. -/
def tableTables (table : Table) : List (Position × Nat) :=
  (List.range tableSize16).flatMap fun v => (table v).tables 16 v

theorem tableBlocks_perm (table : Table) :
    (tableBlocks table).Perm ((tableEntries table).map (fun e => e.2.blk) ++ (tableTables table).map Prod.snd) := by
  rw [tableEntries, tableTables, List.map_flatMap, List.map_flatMap]
  exact (List.Perm.flatMap_left _ fun v _ => (table v).blocks_perm 16 v).trans
    (List.flatMap_append_perm _ _ _).symm

theorem tableLinks_eq (table : Table) : tableLinks table = (tableEntries table).map fun e => e.2.ptr := by
  rw [tableEntries, List.map_flatMap]
  exact List.flatMap_congr fun v _ => (table v).links_eq_entries 16 v

theorem tableTables_nodup (table : Table) : ((tableTables table).map Prod.fst).Nodup := by
  rw [tableTables, List.map_flatMap, List.nodup_flatMap]
  refine ⟨fun v _ => (table v).tables_nodup 16 v, children_disjoint id 16 0 ?_⟩
  intro v p member
  obtain ⟨t, deeper, rfl⟩ := List.mem_map.mp member
  rw [Nat.zero_add]
  exact Node.tables_under deeper

section Table

variable {stored : List Stored} {table : Table}

/-- Every position leads through a node of the first table. -/
theorem under_root {p : Position} {k : Key} (low : 16 ≤ p.1) (aligned : p.1 % 8 = 0)
    (relevant : k.Covers p.1 p.2 ∨ k.Below p.1 p.2) : ∃ v < tableSize16, Under 16 v p := by
  have under : Under 16 (p.2 / 2 ^ (p.1 - 16)) p := ⟨low, by omega, rfl⟩
  refine ⟨_, ?_, under⟩
  rcases relevant with covers | below
  · by_cases same : p.1 = 16
    · obtain ⟨-, short, agree⟩ := covers
      rw [same] at short agree ⊢
      rw [Nat.sub_self, Nat.pow_zero, Nat.div_one]
      have leading := top_lt k.bytes k.len
      rw [← agree, Nat.div_lt_iff_lt_mul (Nat.two_pow_pos _), ← Nat.pow_add, Nat.add_sub_cancel' short] at leading
      exact leading
    · rw [← (covers.below_of_under (Nat.le_refl 16) under same).2]
      exact top_lt k.bytes 16
  · rw [← (below.below_of_under under).2]
    exact top_lt k.bytes 16

/-- **The entries of a table**: one for each route and each position it covers. -/
theorem TableOk.entries_perm (ok : TableOk stored table) (addrs : (stored.map Stored.addr).Nodup) :
    ((tableEntries table).map fun e => (e.1, e.2.ptr)).Perm
      (stored.flatMap fun s => s.route.positions.map fun p => (p, s.addr)) := by
  refine (List.perm_ext_iff_of_nodup ?_ ?_).mpr ?_
  · rw [tableEntries, List.map_flatMap, List.nodup_flatMap]
    refine ⟨fun v small => (ok v (List.mem_range.mp small)).entries_nodup addrs,
      children_disjoint Prod.fst 16 0 ?_⟩
    intro v e member
    obtain ⟨entry, deeper, rfl⟩ := List.mem_map.mp member
    rw [Nat.zero_add]
    exact Node.entries_under deeper
  · rw [List.nodup_flatMap]
    refine ⟨fun s _ => s.route.positions_nodup.map fun p q same => (Prod.mk.inj same).1, ?_⟩
    rw [List.Nodup, List.pairwise_map] at addrs
    refine addrs.imp fun {s t} ne e first second => ne ?_
    obtain ⟨p, -, rfl⟩ := List.mem_map.mp first
    obtain ⟨q, -, same⟩ := List.mem_map.mp second
    exact (Prod.mk.inj same).2.symm
  · rintro ⟨p, ptr⟩
    rw [tableEntries, List.map_flatMap, List.mem_flatMap, List.mem_flatMap]
    simp only [List.mem_map, Prod.mk.injEq, Key.mem_positions]
    constructor
    · rintro ⟨v, small, e, listed, rfl, rfl⟩
      obtain ⟨⟨low, aligned, -⟩, s, held, addr, covers⟩ :=
        ((ok v (List.mem_range.mp small)).mem_entries (Nat.le_refl 16)).mp (List.mem_map.mpr ⟨e, listed, rfl⟩)
      exact ⟨s, held, e.1, ⟨low, by omega, covers⟩, rfl, addr⟩
    · rintro ⟨s, held, q, ⟨low, aligned, covers⟩, rfl, rfl⟩
      obtain ⟨v, small, under⟩ := under_root low aligned (.inl covers)
      obtain ⟨e, listed, eq⟩ := List.mem_map.mp
        (((ok v small).mem_entries (Nat.le_refl 16)).mpr ⟨under, s, held, rfl, covers⟩)
      exact ⟨v, List.mem_range.mpr small, e, listed, (Prod.mk.inj eq).1, (Prod.mk.inj eq).2⟩

/-- **The next tables of a table** hang from the positions with a route below. -/
theorem TableOk.mem_tables (ok : TableOk stored table) (p : Position) :
    p ∈ (tableTables table).map Prod.fst ↔
      16 ≤ p.1 ∧ p.1 % 8 = 0 ∧ ∃ s ∈ stored, s.route.Below p.1 p.2 := by
  rw [tableTables, List.map_flatMap, List.mem_flatMap]
  constructor
  · rintro ⟨v, small, member⟩
    obtain ⟨⟨low, aligned, -⟩, found⟩ :=
      ((ok v (List.mem_range.mp small)).mem_tables (Nat.le_refl 16)).mp member
    exact ⟨low, by omega, found⟩
  · rintro ⟨low, aligned, s, held, below⟩
    obtain ⟨v, small, under⟩ := under_root low aligned (.inr below)
    exact ⟨v, List.mem_range.mpr small,
      ((ok v small).mem_tables (Nat.le_refl 16)).mpr ⟨under, s, held, below⟩⟩

/-- How often a route is linked. -/
theorem TableOk.count_links (ok : TableOk stored table) (addrs : (stored.map Stored.addr).Nodup) {s : Stored}
    (member : s ∈ stored) : (tableLinks table).count s.addr = 2 ^ freeBits s.route.len := by
  have links : (tableLinks table).Perm (stored.flatMap fun t => t.route.positions.map fun _ => t.addr) := by
    have pairs := (ok.entries_perm addrs).map Prod.snd
    rw [List.map_map, List.map_flatMap] at pairs
    rw [tableLinks_eq]
    refine pairs.trans (List.Perm.of_eq (List.flatMap_congr fun t _ => ?_))
    rw [List.map_map]
    rfl
  obtain ⟨before, after, rfl⟩ := List.append_of_mem member
  rw [List.map_append, List.map_cons, List.nodup_middle, List.nodup_cons, ← List.map_append] at addrs
  -- the other routes have other addresses
  have none : ∀ rest : List Stored, (∀ t ∈ rest, t ∈ before ++ after) →
      (rest.flatMap fun t => t.route.positions.map fun _ => t.addr).count s.addr = 0 := by
    intro rest inside
    rw [List.count_eq_zero, List.mem_flatMap]
    rintro ⟨t, held, linked⟩
    obtain ⟨-, -, same⟩ := List.mem_map.mp linked
    exact addrs.1 (List.mem_map.mpr ⟨t, inside t held, same⟩)
  rw [links.count_eq, List.flatMap_append, List.flatMap_cons, List.count_append, List.count_append,
    none before fun t held => List.mem_append_left _ held, none after fun t held => List.mem_append_right _ held,
    Nat.zero_add, Nat.add_zero, List.map_const', List.count_replicate_self, Key.positions_length]

end Table

end Ufp.Daemon
