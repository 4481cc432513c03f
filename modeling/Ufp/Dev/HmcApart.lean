/-
# Ufp.Dev.HmcApart — the bytes of different queue contexts

`i40e_hmc_init` gives each context `obj->size` bytes of the private space, and the ranges of
different contexts lie apart, each inside one backing page (`Made.ranges_apart`). But
`i40e_hmc_set_ctx_tx` and `i40e_hmc_set_ctx_rx` clear `obj->size` bytes and then write every
field of the table, wherever it is: the last field of a TX context is in byte 123, that of an
RX context in byte 25, and nothing compares them with the size that the device reports.

`Sets` are the bytes that such a call can change, and `sets_iff` says which these are.
`hmc_contexts_apart_iff` says for which sizes they stay in the range of their context, and for
which they at least do not meet.
-/
import Ufp.Dev.HmcContext

namespace Ufp.Dev.Hmc

open Ufp.Dev.Queues Ufp.Theory.BitString

set_option autoImplicit false

/-! ## The bytes of a context -/

/-- `i40e_hmc_set_ctx_tx` or `i40e_hmc_set_ctx_rx`. -/
def i40eHmcSetCtx : Dir → I40eHmc → (Nat → UInt8) → Nat → (Nat → UInt8) → Option (Nat → UInt8)
  | .tx => i40eHmcSetCtxTx
  | .rx => i40eHmcSetCtxRx

/-- The table that goes with it. -/
def ceTable : Dir → List HmcCe
  | .tx => i40eHmcCeTx
  | .rx => i40eHmcCeRx

/-- A byte that setting this context clears or writes: with some values of the members and some
contents of memory, it is another one afterwards. -/
def Sets (hmc : I40eHmc) (c : Dir × Nat) (a : Nat) : Prop :=
  ∃ ctx mem mem', i40eHmcSetCtx c.1 hmc ctx c.2 mem = some mem' ∧ mem' a ≠ mem a

/-- Byte `i` of an object is one of those that a field is written to. -/
def HmcCe.InBytes (ce : HmcCe) (i : Nat) : Prop := ce.lsb / 8 ≤ i ∧ i < ce.lsb / 8 + ce.sizeOf

instance (ce : HmcCe) (i : Nat) : Decidable (ce.InBytes i) := inferInstanceAs (Decidable (_ ∧ _))

/-- Byte `i` of an object of `size` bytes is cleared or written. -/
def Written (dir : Dir) (size i : Nat) : Prop := i < size ∨ ∃ ce ∈ ceTable dir, ce.InBytes i

instance (dir : Dir) (size i : Nat) : Decidable (Written dir size i) := inferInstanceAs (Decidable (_ ∨ _))

section Bytes

variable {hmc : I40eHmc} {dir : Dir} {qpIdx hmcVa a i : Nat} {ce : HmcCe} {table : List HmcCe}
  {ctx mem mem' : Nat → UInt8}

theorem i40eHmcSetCtx_eq (found : i40eHmcVa hmc (hmc.obj dir) qpIdx = some hmcVa) :
    i40eHmcSetCtx dir hmc ctx qpIdx mem = some ((ceTable dir).foldl
      (fun mem ce => i40eHmcWrite hmcVa ce ctx mem) (memsetZero mem hmcVa (hmc.obj dir).size)) := by
  cases dir with
  | tx => exact Option.map_eq_some_iff.mpr ⟨hmcVa, found, rfl⟩
  | rx => exact Option.map_eq_some_iff.mpr ⟨hmcVa, found, rfl⟩

/-- One byte of memory after a field has been written. -/
theorem i40eHmcWrite_apply :
    i40eHmcWrite hmcVa ce ctx mem a =
      if hmcVa + ce.lsb / 8 ≤ a ∧ a < hmcVa + ce.lsb / 8 + ce.sizeOf then
        shiftUp (fromByte ctx ce.offset) (ce.lsb % 8) (a - (hmcVa + ce.lsb / 8)) |||
          (~~~shiftUp (maskByte ce.width) (ce.lsb % 8) (a - (hmcVa + ce.lsb / 8)) &&& mem a)
      else mem a :=
  congrFun (writeLoop_eq (fromByte ctx ce.offset) (maskByte ce.width) (ce.lsb % 8) (hmcVa + ce.lsb / 8)
    ce.sizeOf 0 mem) a

/-- Bytes of no field are left alone. -/
theorem foldl_i40eHmcWrite_outside (outside : ∀ ce ∈ table, ¬ (hmcVa ≤ a ∧ ce.InBytes (a - hmcVa))) :
    table.foldl (fun mem ce => i40eHmcWrite hmcVa ce ctx mem) mem a = mem a := by
  induction table generalizing mem with
  | nil => rfl
  | cons ce table ih =>
      rw [List.foldl_cons, ih fun later member => outside later (List.mem_cons_of_mem _ member), i40eHmcWrite_apply]
      have far := outside ce List.mem_cons_self
      unfold HmcCe.InBytes at far
      exact if_neg (by omega)

/-- What a byte is in the end depends only on what it was. -/
theorem foldl_i40eHmcWrite_congr (same : mem a = mem' a) :
    table.foldl (fun mem ce => i40eHmcWrite hmcVa ce ctx mem) mem a =
      table.foldl (fun mem ce => i40eHmcWrite hmcVa ce ctx mem) mem' a := by
  induction table generalizing mem mem' with
  | nil => exact same
  | cons ce table ih =>
      refine ih ?_
      dsimp only
      rw [i40eHmcWrite_apply, i40eHmcWrite_apply, same]

/-- A context of ones leaves no bit unset where a field reaches. -/
theorem foldl_i40eHmcWrite_ones (fits : ∀ ce ∈ table, ce.Fits) {k : Nat}
    (set : bit (fromByte mem hmcVa) k = true ∨ ∃ ce ∈ table, ce.Reaches k) :
    bit (fromByte (table.foldl (fun mem ce => i40eHmcWrite hmcVa ce (fun _ => 0xff) mem) mem) hmcVa) k = true := by
  induction table generalizing mem with
  | nil =>
      rcases set with here | ⟨ce, member, -⟩
      · exact here
      · exact absurd member List.not_mem_nil
  | cons ce table ih =>
      refine ih (fun later member => fits later (List.mem_cons_of_mem _ member)) ?_
      rw [bit_i40eHmcWrite_merge (fits ce List.mem_cons_self)]
      by_cases reaches : ce.Reaches k
      · have ones : (ce.value fun _ => 0xff).testBit (k - ce.lsb) = true := by
          obtain ⟨above, inside⟩ := reaches
          rw [HmcCe.value, testBit_word, decide_eq_true (show k - ce.lsb < 8 * ce.sizeOf by omega), Bool.true_and]
          exact bit_ones
        rw [if_pos reaches, ones, Bool.true_or]
        exact .inl rfl
      · rw [if_neg reaches]
        refine set.imp_right ?_
        rintro ⟨other, member, far⟩
        rcases List.mem_cons.mp member with rfl | later
        · exact absurd far reaches
        · exact ⟨other, later, far⟩

theorem ceTable_fits (dir : Dir) : ∀ ce ∈ ceTable dir, ce.Fits := by
  cases dir with
  | tx => exact i40eHmcCeTx_ok.fits
  | rx => exact i40eHmcCeRx_ok.fits

/-- A byte of a field has a bit that the field reaches. -/
theorem HmcCe.InBytes.reaches (inside : ce.InBytes i) : ∃ k, k / 8 = i ∧ ce.Reaches k := by
  unfold HmcCe.InBytes at inside
  unfold HmcCe.Reaches
  by_cases first : i = ce.lsb / 8
  · exact ⟨ce.lsb, first.symm, Nat.le_refl _, by omega⟩
  · exact ⟨8 * i, by omega, by omega, by omega⟩

/-- **The bytes that setting a context clears or writes.** -/
theorem sets_iff (found : i40eHmcVa hmc (hmc.obj dir) qpIdx = some hmcVa) :
    Sets hmc (dir, qpIdx) a ↔ ∃ i, a = hmcVa + i ∧ Written dir (hmc.obj dir).size i := by
  constructor
  · rintro ⟨ctx, mem, mem', set, differ⟩
    obtain rfl := Option.some.inj ((i40eHmcSetCtx_eq found).symm.trans set)
    by_contra none
    have outside : ∀ i, a = hmcVa + i → ¬ Written dir (hmc.obj dir).size i := fun i here written =>
      none ⟨i, here, written⟩
    refine differ ((foldl_i40eHmcWrite_outside ?_).trans (if_neg ?_))
    · rintro ce member ⟨above, inside⟩
      exact outside (a - hmcVa) (by omega) (.inr ⟨ce, member, inside⟩)
    · rintro ⟨above, below⟩
      exact outside (a - hmcVa) (by omega) (.inl (by omega))
  · rintro ⟨i, rfl, cleared | ⟨ce, member, inside⟩⟩
    · -- the byte ends as it would with 0 in it before; anything else shows the change
      let last := (ceTable dir).foldl (fun mem ce => i40eHmcWrite hmcVa ce (fun _ => 0) mem) (fun _ => 0) (hmcVa + i)
      refine ⟨fun _ => 0, fun _ => last + 1, _, i40eHmcSetCtx_eq found, ?_⟩
      have zero : memsetZero (fun _ => last + 1) hmcVa (hmc.obj dir).size (hmcVa + i) = 0 := if_pos (by omega)
      have ends := @foldl_i40eHmcWrite_congr hmcVa (hmcVa + i) (ceTable dir) (fun _ => 0) _ (fun _ => 0) zero
      exact fun same => absurd (ends.symm.trans same) (show ¬ last = last + 1 by simp)
    · obtain ⟨k, rfl, reaches⟩ := inside.reaches
      refine ⟨fun _ => 0xff, fun _ => 0, _, i40eHmcSetCtx_eq found, fun same => ?_⟩
      have set := @foldl_i40eHmcWrite_ones hmcVa _ (memsetZero (fun _ => 0) hmcVa (hmc.obj dir).size)
        (ceTable_fits dir) k (.inr ⟨ce, member, reaches⟩)
      rw [bit, fromByte, same] at set
      simp at set

end Bytes

/-! ## The ranges of contexts -/

/-- An aligned block ends within the page it starts in. -/
theorem block_in_page {size addr page : Nat} (start : size ∣ addr) (whole : size ∣ page) (pos : 0 < page) :
    addr % page + size ≤ page := by
  obtain ⟨x, offset⟩ := (Nat.dvd_mod_iff whole).mpr start
  obtain ⟨y, rfl⟩ := whole
  have inside : size * x < size * y := offset ▸ Nat.mod_lt addr pos
  have below : x + 1 ≤ y := Nat.lt_of_mul_lt_mul_left inside
  rw [offset, ← Nat.mul_succ]
  exact Nat.mul_le_mul_left size below

/-- Different elements of an array do not overlap. -/
theorem elements_apart {k l : Nat} (size : Nat) (differ : k ≠ l) :
    k * size + size ≤ l * size ∨ l * size + size ≤ k * size := by
  rw [← Nat.succ_mul, ← Nat.succ_mul]
  rcases Nat.lt_or_gt_of_ne differ with before | after
  · exact .inl (Nat.mul_le_mul_right size before)
  · exact .inr (Nat.mul_le_mul_right size after)

/-- The pages that were granted between two moments do not overlap. -/
def PagesApart (host host' : Host) : Prop :=
  ∀ k l a b, host.calls ≤ k → k < host'.calls → host.calls ≤ l → l < host'.calls → k ≠ l →
    host.dma k = some a → host.dma l = some b → a.1 + pagedBpSize ≤ b.1 ∨ b.1 + pagedBpSize ≤ a.1

/-- A block of memory lies inside a backing page. -/
def InPage (hmc : I40eHmc) (va size : Nat) : Prop :=
  ∃ sd < hmc.sdCount, ∃ j < maxBpCount,
    ((hmc.sdEntry sd).pd j).addrVirt ≤ va ∧ va + size ≤ ((hmc.sdEntry sd).pd j).addrVirt + pagedBpSize

/-- Contexts of at most 512 bytes. -/
structure Host.Narrow (host : Host) : Prop where
  queues : host.regs glhmcLanqmax < 2 ^ 11
  sizeTx : host.regs glhmcLantxobjsz ≤ 9
  sizeRx : host.regs glhmcLanrxobjsz ≤ 9

theorem Host.Narrow.inRange {host : Host} (narrow : host.Narrow) : host.InRange :=
  ⟨narrow.queues, Nat.lt_of_le_of_lt narrow.sizeTx (by decide), Nat.lt_of_le_of_lt narrow.sizeRx (by decide)⟩

section Apart

variable {host host' : Host} {hmc : I40eHmc} {c c' : Dir × Nat} {va va' a : Nat}

theorem Made.fpm_aligned (made : Made host host' hmc) (narrow : host.Narrow) (dir : Dir) (qpIdx : Nat) :
    (hmc.obj dir).size ∣ pagedBpSize ∧ (hmc.obj dir).size ∣ fpmAddr hmc dir qpIdx := by
  obtain ⟨tx, rx, -⟩ := made.layout narrow.inRange
  have page : ∀ {e}, e ≤ 9 → 2 ^ e ∣ pagedBpSize := fun small => Nat.pow_dvd_pow 2 (show _ ≤ 12 by omega)
  have round : ∀ {e} x, e ≤ 9 → 2 ^ e ∣ x * 512 :=
    fun x small => Dvd.dvd.mul_left (Nat.pow_dvd_pow 2 small) x
  rw [fpmAddr]
  cases dir with
  | tx =>
      rw [I40eHmc.obj, tx]
      exact ⟨page narrow.sizeTx, Nat.dvd_add (Nat.dvd_mul_left _ _) (Nat.dvd_zero _)⟩
  | rx =>
      rw [I40eHmc.obj, rx]
      exact ⟨page narrow.sizeRx, Nat.dvd_add (Nat.dvd_mul_left _ _) (round _ narrow.sizeRx)⟩

theorem Made.fpm_apart (made : Made host host' hmc) (range : host.InRange)
    (inside : c.2 < host.regs glhmcLanqmax) (inside' : c'.2 < host.regs glhmcLanqmax) (differ : c ≠ c') :
    fpmAddr hmc c.1 c.2 + (hmc.obj c.1).size ≤ fpmAddr hmc c'.1 c'.2 ∨
      fpmAddr hmc c'.1 c'.2 + (hmc.obj c'.1).size ≤ fpmAddr hmc c.1 c.2 := by
  obtain ⟨tx, rx, -⟩ := made.layout range
  have addrs := made.fpmAddr_eq range
  -- a TX context ends where the TX contexts end, and the RX contexts start after that
  have below : ∀ {k l}, k < host.regs glhmcLanqmax →
      fpmAddr hmc .tx k + (hmc.obj .tx).size ≤ fpmAddr hmc .rx l := by
    intro k l less
    have ends := Nat.mul_le_mul_right (2 ^ host.regs glhmcLantxobjsz) (show k + 1 ≤ _ from less)
    rw [Nat.succ_mul] at ends
    rw [(addrs k).1, (addrs l).2, I40eHmc.obj, tx]
    show k * 2 ^ host.regs glhmcLantxobjsz + 2 ^ host.regs glhmcLantxobjsz ≤ _
    omega
  obtain ⟨dir, k⟩ := c
  obtain ⟨dir', l⟩ := c'
  cases dir with
  | tx =>
      cases dir' with
      | tx =>
          have apart := elements_apart (hmc.obj .tx).size (show k ≠ l from fun same => differ (by rw [same]))
          simp only [fpmAddr]
          omega
      | rx => exact .inl (below inside)
  | rx =>
      cases dir' with
      | tx => exact .inr (below inside')
      | rx =>
          have apart := elements_apart (hmc.obj .rx).size (show k ≠ l from fun same => differ (by rw [same]))
          simp only [fpmAddr]
          omega

theorem Made.va_some (made : Made host host' hmc) (range : host.InRange) {dir : Dir} {qpIdx va : Nat}
    (inside : qpIdx < host.regs glhmcLanqmax) (found : i40eHmcVa hmc (hmc.obj dir) qpIdx = some va) :
    fpmAddr hmc dir qpIdx < 2 ^ 21 ∧
      va = ((hmc.sdEntry 0).pd (fpmAddr hmc dir qpIdx / 2 ^ 12)).addrVirt + fpmAddr hmc dir qpIdx % 2 ^ 12 := by
  rw [made.va_eq range dir inside] at found
  split_ifs at found with below
  exact ⟨below, (Option.some.inj found).symm⟩

/-- **The ranges of contexts.** With contexts of at most 512 bytes, the range of each context
lies inside one page, and the ranges of different contexts lie apart. -/
theorem Made.ranges_apart (made : Made host host' hmc) (narrow : host.Narrow) (pages : PagesApart host host')
    (inside : c.2 < host.regs glhmcLanqmax) (inside' : c'.2 < host.regs glhmcLanqmax) (differ : c ≠ c')
    (found : i40eHmcVa hmc (hmc.obj c.1) c.2 = some va)
    (found' : i40eHmcVa hmc (hmc.obj c'.1) c'.2 = some va') :
    InPage hmc va (hmc.obj c.1).size ∧ InPage hmc va' (hmc.obj c'.1).size ∧
      (va + (hmc.obj c.1).size ≤ va' ∨ va' + (hmc.obj c'.1).size ≤ va) := by
  have count := (made.layout narrow.inRange).2.2
  obtain ⟨below, rfl⟩ := made.va_some narrow.inRange inside found
  obtain ⟨below', rfl⟩ := made.va_some narrow.inRange inside' found'
  obtain ⟨whole, start⟩ := made.fpm_aligned narrow c.1 c.2
  obtain ⟨whole', start'⟩ := made.fpm_aligned narrow c'.1 c'.2
  have ends := block_in_page start whole (by decide)
  have ends' := block_in_page start' whole' (by decide)
  have apart := made.fpm_apart narrow.inRange inside inside' differ
  generalize fpmAddr hmc c.1 c.2 = addr at *
  generalize fpmAddr hmc c'.1 c'.2 = addr' at *
  unfold pagedBpSize at ends ends'
  refine ⟨⟨0, by omega, addr / 2 ^ 12, ?_, Nat.le_add_right _ _, ?_⟩,
    ⟨0, by omega, addr' / 2 ^ 12, ?_, Nat.le_add_right _ _, ?_⟩, ?_⟩
  · unfold maxBpCount
    omega
  · unfold pagedBpSize
    omega
  · unfold maxBpCount
    omega
  · unfold pagedBpSize
    omega
  · by_cases same : addr / 2 ^ 12 = addr' / 2 ^ 12
    · rw [same]
      omega
    · have bound : addr / 2 ^ 12 < maxBpCount ∧ addr' / 2 ^ 12 < maxBpCount := by
        unfold maxBpCount
        omega
      have calls := made.calls
      have separate := pages (pageCall host.calls 0 (addr / 2 ^ 12)) (pageCall host.calls 0 (addr' / 2 ^ 12)) _ _
        (by unfold pageCall; omega) (by unfold pageCall maxBpCount at *; omega) (by unfold pageCall; omega)
        (by unfold pageCall maxBpCount at *; omega) (by unfold pageCall; omega)
        (made.pages 0 (by omega) _ bound.1) (made.pages 0 (by omega) _ bound.2)
      unfold pagedBpSize at separate
      dsimp only at separate
      omega

end Apart

/-! ## Where the bytes stay in the range -/

/-- Setting a context changes no byte outside the range of the context. -/
def KeepsRange (hmc : I40eHmc) (c : Dir × Nat) : Prop :=
  ∀ va, i40eHmcVa hmc (hmc.obj c.1) c.2 = some va → ∀ a, Sets hmc c a → va ≤ a ∧ a < va + (hmc.obj c.1).size

/-- The bytes that setting a context changes lie inside one backing page. -/
def InOnePage (hmc : I40eHmc) (c : Dir × Nat) : Prop :=
  ∃ sd < hmc.sdCount, ∃ j < maxBpCount, ∀ a, Sets hmc c a →
    ((hmc.sdEntry sd).pd j).addrVirt ≤ a ∧ a < ((hmc.sdEntry sd).pd j).addrVirt + pagedBpSize

/-- Different contexts that have an address: the bytes that setting them changes lie each inside
one page, and setting one changes no byte of the other. -/
def SetsApart (hmc : I40eHmc) (queueMax : Nat) : Prop :=
  ∀ c c' : Dir × Nat, c.2 < queueMax → c'.2 < queueMax → c ≠ c' → i40eHmcVa hmc (hmc.obj c.1) c.2 ≠ none →
    i40eHmcVa hmc (hmc.obj c'.1) c'.2 ≠ none →
      InOnePage hmc c ∧ InOnePage hmc c' ∧ ∀ a, Sets hmc c a → ¬ Sets hmc c' a

/-- The exponent from which on a context has room for all fields. -/
def roomy : Dir → Nat
  | .tx => 7
  | .rx => 5

theorem written_inside_iff {dir : Dir} {size : Nat} :
    (∀ i, Written dir size i → i < size) ↔ ∀ ce ∈ ceTable dir, ce.lsb / 8 + ce.sizeOf ≤ size := by
  have sized : ∀ ce ∈ ceTable dir, 0 < ce.sizeOf := by cases dir <;> decide
  constructor
  · intro inside ce member
    have positive := sized ce member
    have last := inside (ce.lsb / 8 + ce.sizeOf - 1) (.inr ⟨ce, member, by omega, by omega⟩)
    omega
  · rintro ends i (cleared | ⟨ce, member, -, below⟩)
    · exact cleared
    · have last := ends ce member
      omega

theorem roomy_iff {dir : Dir} {e : Nat} (small : e ≤ 9) : (∀ i, Written dir (2 ^ e) i → i < 2 ^ e) ↔ roomy dir ≤ e := by
  have each : ∀ e < 10, (∀ ce ∈ ceTable dir, ce.lsb / 8 + ce.sizeOf ≤ 2 ^ e) ↔ roomy dir ≤ e := by
    cases dir <;> decide
  rw [written_inside_iff]
  exact each e (by omega)

/-- No field is behind byte 511. -/
theorem Written.lt {dir : Dir} {size i : Nat} (written : Written dir size i) (small : size ≤ 512) : i < 512 := by
  have ends : ∀ ce ∈ ceTable dir, ce.lsb / 8 + ce.sizeOf ≤ 512 := by cases dir <;> decide
  rcases written with cleared | ⟨ce, member, -, below⟩
  · omega
  · have last := ends ce member
    omega

/-- Of a TX context of 32 bytes, only the last three fields are behind its range. -/
theorem written_tx_five {i : Nat} (written : Written .tx (2 ^ 5) i) :
    i < 32 ∨ 112 ≤ i ∧ i < 116 ∨ 122 ≤ i ∧ i < 124 := by
  have place : ∀ ce ∈ i40eHmcCeTx, ce.lsb / 8 + ce.sizeOf ≤ 32 ∨
      112 ≤ ce.lsb / 8 ∧ ce.lsb / 8 + ce.sizeOf ≤ 116 ∨ 122 ≤ ce.lsb / 8 ∧ ce.lsb / 8 + ce.sizeOf ≤ 124 := by decide
  rcases written with cleared | ⟨ce, member, above, below⟩
  · exact .inl cleared
  · have here := place ce member
    omega

/-- The register with the exponent of a size. -/
def objsz : Dir → Nat
  | .tx => glhmcLantxobjsz
  | .rx => glhmcLanrxobjsz

section Sizes

variable {host host' : Host} {hmc : I40eHmc} (made : Made host host' hmc) (narrow : host.Narrow)

include made narrow

theorem Made.size_eq (dir : Dir) : (hmc.obj dir).size = 2 ^ host.regs (objsz dir) ∧ host.regs (objsz dir) ≤ 9 := by
  obtain ⟨tx, rx, -⟩ := made.layout narrow.inRange
  cases dir with
  | tx => exact ⟨by rw [I40eHmc.obj, tx]; rfl, narrow.sizeTx⟩
  | rx => exact ⟨by rw [I40eHmc.obj, rx]; rfl, narrow.sizeRx⟩

theorem Made.size_le (dir : Dir) : (hmc.obj dir).size ≤ 512 := by
  obtain ⟨size, small⟩ := made.size_eq narrow dir
  rw [size]
  exact Nat.pow_le_pow_right (by decide) small

/-- The first context of a direction starts at a multiple of 512 in the first half of the
2 MiB that are backed. -/
theorem Made.first_addr (dir : Dir) : 512 ∣ fpmAddr hmc dir 0 ∧ fpmAddr hmc dir 0 ≤ 2 ^ 20 := by
  obtain ⟨tx, rx⟩ := made.fpmAddr_eq narrow.inRange 0
  cases dir with
  | tx =>
      rw [tx, Nat.zero_mul]
      exact ⟨Nat.dvd_zero _, Nat.zero_le _⟩
  | rx =>
      have bound : 2 ^ host.regs glhmcLantxobjsz ≤ 2 ^ 9 := Nat.pow_le_pow_right (by decide) narrow.sizeTx
      have all : host.regs glhmcLanqmax * 2 ^ host.regs glhmcLantxobjsz ≤ 2047 * 2 ^ 9 :=
        Nat.mul_le_mul (Nat.le_of_lt_succ narrow.queues) bound
      rw [rx, Nat.zero_mul, Nat.zero_add]
      exact ⟨Nat.dvd_mul_left _ _, by omega⟩

/-- Where a context is that starts in the first 2 MiB. -/
theorem Made.found {dir : Dir} {qpIdx : Nat} (inside : qpIdx < host.regs glhmcLanqmax)
    (below : fpmAddr hmc dir qpIdx < 2 ^ 21) : i40eHmcVa hmc (hmc.obj dir) qpIdx =
      some (((hmc.sdEntry 0).pd (fpmAddr hmc dir qpIdx / 2 ^ 12)).addrVirt + fpmAddr hmc dir qpIdx % 2 ^ 12) :=
  (made.va_eq narrow.inRange dir inside).trans (if_pos below)

theorem Made.keepsRange_iff :
    (∀ c : Dir × Nat, c.2 < host.regs glhmcLanqmax → KeepsRange hmc c) ↔
      host.regs glhmcLanqmax = 0 ∨ ∀ dir, roomy dir ≤ host.regs (objsz dir) := by
  constructor
  · intro keeps
    by_contra none
    rw [not_or] at none
    refine none.2 fun dir => ?_
    -- the first context of each direction is backed
    have positive : 0 < host.regs glhmcLanqmax := by omega
    obtain ⟨size, small⟩ := made.size_eq narrow dir
    have low := (made.first_addr narrow dir).2
    have found := @Made.found host host' hmc made narrow dir 0 positive (by omega)
    rw [← roomy_iff small, ← size]
    intro i written
    have inside := keeps (dir, 0) positive _ found _ ((sets_iff found).mpr ⟨i, rfl, written⟩)
    dsimp only at inside
    omega
  · rintro (none | room) ⟨dir, qpIdx⟩ inside va found a sets
    · omega
    · obtain ⟨size, small⟩ := made.size_eq narrow dir
      obtain ⟨i, rfl, written⟩ := (sets_iff found).mp sets
      have below := (roomy_iff small).mpr (room dir) i (size ▸ written)
      dsimp only
      omega

/-! ## Where they do not meet -/

/-- With room for all fields, the bytes lie apart as the ranges do. -/
theorem Made.setsApart_of_roomy (pages : PagesApart host host') (room : ∀ dir, roomy dir ≤ host.regs (objsz dir)) :
    SetsApart hmc (host.regs glhmcLanqmax) := by
  have keeps := (made.keepsRange_iff narrow).mpr (.inr room)
  intro c c' inside inside' differ known known'
  obtain ⟨va, found⟩ := Option.ne_none_iff_exists'.mp known
  obtain ⟨va', found'⟩ := Option.ne_none_iff_exists'.mp known'
  obtain ⟨⟨sd, sdLess, j, jLess, starts, ends⟩, ⟨sd', sdLess', j', jLess', starts', ends'⟩, apart⟩ :=
    made.ranges_apart narrow pages inside inside' differ found found'
  refine ⟨⟨sd, sdLess, j, jLess, fun a sets => ?_⟩, ⟨sd', sdLess', j', jLess', fun a sets => ?_⟩, fun a sets sets' => ?_⟩
  · have here := keeps c inside va found a sets
    omega
  · have here := keeps c' inside' va' found' a sets
    omega
  · have here := keeps c inside va found a sets
    have there := keeps c' inside' va' found' a sets'
    omega

/-- A field of context 0 that lies in the range of context `m`. -/
theorem Made.clash {dir : Dir} {m i : Nat} (inside : m < host.regs glhmcLanqmax) (positive : 0 < m)
    (page : fpmAddr hmc dir 0 % 2 ^ 12 + (m + 1) * (hmc.obj dir).size ≤ 2 ^ 12) (small : i < (hmc.obj dir).size)
    (written : Written dir (hmc.obj dir).size (m * (hmc.obj dir).size + i)) :
    ¬ SetsApart hmc (host.regs glhmcLanqmax) := by
  intro apart
  have low := (made.first_addr narrow dir).2
  have addr : fpmAddr hmc dir m = fpmAddr hmc dir 0 + m * (hmc.obj dir).size := by
    unfold fpmAddr
    omega
  rw [Nat.succ_mul] at page
  have found := @Made.found host host' hmc made narrow dir 0 (by omega) (by omega)
  have found' := @Made.found host host' hmc made narrow dir m inside (by omega)
  -- both start in the same page
  have same : fpmAddr hmc dir m / 2 ^ 12 = fpmAddr hmc dir 0 / 2 ^ 12 := by omega
  have offset : fpmAddr hmc dir m % 2 ^ 12 = fpmAddr hmc dir 0 % 2 ^ 12 + m * (hmc.obj dir).size := by omega
  rw [same, offset] at found'
  have differ : ((dir, 0) : Dir × Nat) ≠ (dir, m) := fun equal => by
    have zero : 0 = m := congrArg Prod.snd equal
    omega
  obtain ⟨-, -, never⟩ := apart (dir, 0) (dir, m) (by dsimp only; omega) inside differ (by rw [found]; nofun)
    (by rw [found']; nofun)
  refine never _ ((sets_iff found).mpr ⟨m * (hmc.obj dir).size + i, rfl, written⟩)
    ((sets_iff found').mpr ⟨i, by omega, .inl small⟩)

/-- When everything is in the first page, it is enough that the bytes lie apart in the private
space. -/
theorem Made.setsApart_of_first_page
    (first : ∀ c : Dir × Nat, c.2 < host.regs glhmcLanqmax → ∀ i, Written c.1 (hmc.obj c.1).size i →
      fpmAddr hmc c.1 c.2 + i < 2 ^ 12)
    (apart : ∀ c c' : Dir × Nat, c.2 < host.regs glhmcLanqmax → c'.2 < host.regs glhmcLanqmax → c ≠ c' → ∀ i i',
      Written c.1 (hmc.obj c.1).size i → Written c'.1 (hmc.obj c'.1).size i' →
        fpmAddr hmc c.1 c.2 + i ≠ fpmAddr hmc c'.1 c'.2 + i') :
    SetsApart hmc (host.regs glhmcLanqmax) := by
  have count := (made.layout narrow.inRange).2.2
  have place : ∀ (c : Dir × Nat) {a}, c.2 < host.regs glhmcLanqmax → Sets hmc c a →
      ∃ i, Written c.1 (hmc.obj c.1).size i ∧ a = ((hmc.sdEntry 0).pd 0).addrVirt + (fpmAddr hmc c.1 c.2 + i) := by
    rintro ⟨dir, qpIdx⟩ a inside sets
    -- byte 0 is cleared, so the context starts in the first page
    have size := (made.size_eq narrow dir).1
    have start := first (dir, qpIdx) inside 0 (.inl (by rw [size]; exact Nat.two_pow_pos _))
    dsimp only at start
    have found := @Made.found host host' hmc made narrow dir qpIdx inside (by omega)
    rw [Nat.div_eq_of_lt (by omega), Nat.mod_eq_of_lt (by omega)] at found
    obtain ⟨i, rfl, written⟩ := (sets_iff found).mp sets
    exact ⟨i, written, by dsimp only; omega⟩
  have page : ∀ c : Dir × Nat, c.2 < host.regs glhmcLanqmax → InOnePage hmc c := by
    intro c inside
    refine ⟨0, by omega, 0, by decide, fun a sets => ?_⟩
    obtain ⟨i, written, rfl⟩ := place c inside sets
    have below := first c inside i written
    unfold pagedBpSize
    omega
  intro c c' inside inside' differ _ _
  refine ⟨page c inside, page c' inside', fun a sets sets' => ?_⟩
  obtain ⟨i, written, rfl⟩ := place c inside sets
  obtain ⟨i', written', same⟩ := place c' inside' sets'
  exact apart c c' inside inside' differ i i' written written' (by omega)

/-- One queue: its RX context starts at byte 512. -/
theorem Made.setsApart_of_one (one : host.regs glhmcLanqmax ≤ 1) : SetsApart hmc (host.regs glhmcLanqmax) := by
  have sizes := made.size_le narrow
  have place : ∀ c : Dir × Nat, c.2 < host.regs glhmcLanqmax →
      c.2 = 0 ∧ fpmAddr hmc .tx 0 = 0 ∧ fpmAddr hmc .rx 0 = 512 := by
    intro c inside
    obtain ⟨tx, rx⟩ := made.fpmAddr_eq narrow.inRange 0
    have bound : 2 ^ host.regs glhmcLantxobjsz ≤ 2 ^ 9 := Nat.pow_le_pow_right (by decide) narrow.sizeTx
    have positive := Nat.two_pow_pos (host.regs glhmcLantxobjsz)
    rw [show host.regs glhmcLanqmax = 1 by omega] at rx
    exact ⟨by omega, by omega, by omega⟩
  refine made.setsApart_of_first_page narrow ?_ ?_
  · rintro ⟨dir, qpIdx⟩ inside i written
    obtain ⟨rfl, tx, rx⟩ := place _ inside
    have below := written.lt (sizes dir)
    dsimp only
    cases dir with
    | tx => omega
    | rx => omega
  · rintro ⟨dir, qpIdx⟩ ⟨dir', qpIdx'⟩ inside inside' differ i i' written written'
    obtain ⟨rfl, tx, rx⟩ := place _ inside
    obtain ⟨rfl, -⟩ := place _ inside'
    have below := written.lt (sizes dir)
    have below' := written'.lt (sizes dir')
    dsimp only
    cases dir with
    | tx =>
        cases dir' with
        | tx => exact absurd rfl differ
        | rx => omega
    | rx =>
        cases dir' with
        | tx => omega
        | rx => exact absurd rfl differ

/-- Three queues with TX contexts of 32 bytes: the fields behind the range come to lie behind
all TX contexts. -/
theorem Made.setsApart_of_three (three : host.regs glhmcLanqmax ≤ 3) (tx : host.regs glhmcLantxobjsz = 5)
    (rx : 5 ≤ host.regs glhmcLanrxobjsz) : SetsApart hmc (host.regs glhmcLanqmax) := by
  have sizeOf := fun dir => (made.size_eq narrow dir).1
  have rxSmall := made.size_le narrow .rx
  have txWritten : ∀ {i}, Written .tx (hmc.obj .tx).size i → i < 32 ∨ 112 ≤ i ∧ i < 116 ∨ 122 ≤ i ∧ i < 124 := by
    intro i written
    rw [sizeOf .tx, objsz, tx] at written
    exact written_tx_five written
  have rxWritten : ∀ {i}, Written .rx (hmc.obj .rx).size i → i < (hmc.obj .rx).size := by
    intro i written
    rw [sizeOf .rx] at written ⊢
    exact (@roomy_iff .rx _ narrow.sizeRx).mpr rx i written
  have place : ∀ {qpIdx}, qpIdx < host.regs glhmcLanqmax →
      fpmAddr hmc .tx qpIdx = qpIdx * 32 ∧ fpmAddr hmc .rx qpIdx = qpIdx * (hmc.obj .rx).size + 512 := by
    intro qpIdx inside
    obtain ⟨atTx, atRx⟩ := made.fpmAddr_eq narrow.inRange qpIdx
    rw [tx] at atTx atRx
    rw [atTx, atRx, sizeOf .rx]
    refine ⟨rfl, congrArg _ ?_⟩
    omega
  have stride : ∀ {qpIdx}, qpIdx < host.regs glhmcLanqmax → qpIdx * (hmc.obj .rx).size ≤ 2 * 512 :=
    fun inside => Nat.mul_le_mul (by omega) rxSmall
  refine made.setsApart_of_first_page narrow ?_ ?_
  · rintro ⟨dir, qpIdx⟩ inside i written
    dsimp only at inside written ⊢
    obtain ⟨atTx, atRx⟩ := place inside
    cases dir with
    | tx =>
        have here := txWritten written
        omega
    | rx =>
        have here := rxWritten written
        have far := stride inside
        omega
  · rintro ⟨dir, qpIdx⟩ ⟨dir', qpIdx'⟩ inside inside' differ i i' written written'
    dsimp only at inside inside' written written' ⊢
    obtain ⟨atTx, atRx⟩ := place inside
    obtain ⟨atTx', atRx'⟩ := place inside'
    cases dir with
    | tx =>
        have here := txWritten written
        cases dir' with
        | tx =>
            have here' := txWritten written'
            have apart : qpIdx ≠ qpIdx' := fun same => differ (by rw [same])
            omega
        | rx => omega
    | rx =>
        have here := rxWritten written
        cases dir' with
        | tx =>
            have here' := txWritten written'
            omega
        | rx =>
            have here' := rxWritten written'
            have apart := elements_apart (hmc.obj .rx).size (show qpIdx ≠ qpIdx' from fun same => differ (by rw [same]))
            omega

theorem Made.setsApart_iff (pages : PagesApart host host') :
    SetsApart hmc (host.regs glhmcLanqmax) ↔ host.regs glhmcLanqmax ≤ 1 ∨ 5 ≤ host.regs glhmcLanrxobjsz ∧
      (7 ≤ host.regs glhmcLantxobjsz ∨ host.regs glhmcLantxobjsz = 5 ∧ host.regs glhmcLanqmax ≤ 3) := by
  constructor
  · intro apart
    by_contra bad
    rw [not_or] at bad
    have meets : ∀ (dir : Dir) {e m i}, host.regs (objsz dir) = e → m < host.regs glhmcLanqmax → 0 < m →
        (m + 1) * 2 ^ e ≤ 512 → i < 2 ^ e → Written dir (2 ^ e) (m * 2 ^ e + i) → False := by
      rintro dir _ m i rfl inside positive room small written
      obtain ⟨start, -⟩ := made.first_addr narrow dir
      have size := (made.size_eq narrow dir).1
      rw [← size] at room small written
      exact made.clash narrow inside positive (by omega) small written apart
    have rx : 5 ≤ host.regs glhmcLanrxobjsz := by
      by_contra narrow
      have each : ∀ e < 5, 2 * 2 ^ e ≤ 512 ∧ ∃ i < 2 ^ e, Written .rx (2 ^ e) (1 * 2 ^ e + i) := by decide +kernel
      obtain ⟨room, i, small, written⟩ := each (host.regs glhmcLanrxobjsz) (by omega)
      exact meets .rx rfl (by omega) (by decide) room small written
    -- with 32 bytes it is the fourth context that the last fields of the first one are in
    have each : ∀ e < 7, (if e = 5 then 4 else 2) * 2 ^ e ≤ 512 ∧
        ∃ i < 2 ^ e, Written .tx (2 ^ e) ((if e = 5 then 3 else 1) * 2 ^ e + i) := by decide +kernel
    obtain ⟨room, i, small, written⟩ := each (host.regs glhmcLantxobjsz) (by omega)
    by_cases five : host.regs glhmcLantxobjsz = 5
    · rw [if_pos five] at room written
      exact meets .tx rfl (by omega) (by decide) room small written
    · rw [if_neg five] at room written
      exact meets .tx rfl (by omega) (by decide) room small written
  · rintro (one | ⟨rx, tx | ⟨tx, three⟩⟩)
    · exact made.setsApart_of_one narrow one
    · refine made.setsApart_of_roomy narrow pages fun dir => ?_
      cases dir with
      | tx => exact tx
      | rx => exact rx
    · exact made.setsApart_of_three narrow three tx rx

end Sizes

/-- **Contexts and their bytes.** With contexts of at most 512 bytes, the ranges of different
contexts lie apart, each inside one page. The bytes that setting a context clears and writes are
in its range exactly if a TX context has at least 128 bytes and an RX context at least 32. They
lie each inside one page and do not meet in these cases and two more: one queue, and up to three
queues with TX contexts of 32 bytes and RX contexts of at least 32. -/
theorem hmc_contexts_apart_iff {malloc : Option (Nat → SdEntry)} {pfId : Nat} {host host' : Host} {hmc : I40eHmc}
    (ran : i40eHmcInit malloc pfId host = (some hmc, host')) (queues : host.regs glhmcLanqmax < 2 ^ 11)
    (sizeTx : host.regs glhmcLantxobjsz ≤ 9) (sizeRx : host.regs glhmcLanrxobjsz ≤ 9) (pages : PagesApart host host') :
    (∀ {c c' : Dir × Nat} {va va' : Nat}, c.2 < host.regs glhmcLanqmax → c'.2 < host.regs glhmcLanqmax → c ≠ c' →
      i40eHmcVa hmc (hmc.obj c.1) c.2 = some va → i40eHmcVa hmc (hmc.obj c'.1) c'.2 = some va' →
        InPage hmc va (hmc.obj c.1).size ∧ InPage hmc va' (hmc.obj c'.1).size ∧
          (va + (hmc.obj c.1).size ≤ va' ∨ va' + (hmc.obj c'.1).size ≤ va)) ∧
    ((∀ c : Dir × Nat, c.2 < host.regs glhmcLanqmax → KeepsRange hmc c) ↔
      host.regs glhmcLanqmax = 0 ∨ 7 ≤ host.regs glhmcLantxobjsz ∧ 5 ≤ host.regs glhmcLanrxobjsz) ∧
    (SetsApart hmc (host.regs glhmcLanqmax) ↔ host.regs glhmcLanqmax ≤ 1 ∨ 5 ≤ host.regs glhmcLanrxobjsz ∧
      (7 ≤ host.regs glhmcLantxobjsz ∨ host.regs glhmcLantxobjsz = 5 ∧ host.regs glhmcLanqmax ≤ 3)) := by
  have made := i40eHmcInit_some ran
  have narrow : host.Narrow := ⟨queues, sizeTx, sizeRx⟩
  refine ⟨made.ranges_apart narrow pages, ?_, made.setsApart_iff narrow pages⟩
  rw [made.keepsRange_iff narrow]
  refine or_congr_right ⟨fun room => ⟨room .tx, room .rx⟩, fun room dir => ?_⟩
  cases dir with
  | tx => exact room.1
  | rx => exact room.2

theorem sampleBacking_pagesApart (queueMax tx rx : Nat) (host' : Host) :
    PagesApart (sampleBacking queueMax tx rx) host' := by
  intro k l a b _ _ _ _ differ first second
  obtain rfl := Option.some.inj first
  obtain rfl := Option.some.inj second
  unfold pagedBpSize
  dsimp only
  omega

/-- Contexts of 128 and 32 bytes, for 1536 queues. -/
theorem hmc_contexts_apart_iff_sample :
    ∃ hmc host', i40eHmcInit (some sampleTable) 0 (sampleBacking 1536 7 5) = (some hmc, host') ∧
      KeepsRange hmc (.tx, 3) ∧ SetsApart hmc 1536 := by
  obtain ⟨hmc, host', ran⟩ := sampleBacking_made 1536 7 5
  obtain ⟨-, keeps, apart⟩ := hmc_contexts_apart_iff ran (by decide) (by decide) (by decide)
    (sampleBacking_pagesApart _ _ _ _)
  exact ⟨hmc, host', ran, keeps.mpr (by decide) _ (by decide), apart.mpr (by decide)⟩

/-- With TX contexts of 64 bytes for two queues, the CRC of queue 0 is in byte 48 of the range of
queue 1. -/
theorem hmc_contexts_meet :
    ∃ hmc host' va va', i40eHmcInit (some sampleTable) 0 (sampleBacking 2 6 5) = (some hmc, host') ∧
      i40eHmcVa hmc hmc.objTx 0 = some va ∧ i40eHmcVa hmc hmc.objTx 1 = some va' ∧ va' = va + 64 ∧
      Sets hmc (.tx, 0) (va + 112) ∧ Sets hmc (.tx, 1) (va + 112) := by
  obtain ⟨hmc, host', ran⟩ := sampleBacking_made 2 6 5
  have made := i40eHmcInit_some ran
  have narrow : (sampleBacking 2 6 5).Narrow := ⟨by decide, by decide, by decide⟩
  have size : (hmc.obj .tx).size = 64 := (made.size_eq narrow .tx).1
  have first := made.fpmAddr_eq narrow.inRange 0
  have second := made.fpmAddr_eq narrow.inRange 1
  have found : i40eHmcVa hmc (hmc.obj .tx) 0 = some (((hmc.sdEntry 0).pd 0).addrVirt + 0) := by
    rw [made.found narrow (by decide) (by rw [first.1]; decide), first.1]
    rfl
  have found' : i40eHmcVa hmc (hmc.obj .tx) 1 = some (((hmc.sdEntry 0).pd 0).addrVirt + 64) := by
    rw [made.found narrow (by decide) (by rw [second.1]; decide), second.1]
    rfl
  refine ⟨hmc, host', _, _, ran, found, found', rfl, (sets_iff found).mpr ⟨112, rfl, ?_⟩,
    (sets_iff found').mpr ⟨48, by omega, .inl (by rw [size]; decide)⟩⟩
  rw [size]
  decide

end Ufp.Dev.Hmc
