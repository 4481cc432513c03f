/-
# Ufp.Dev.HmcFrame — what one field write does to its neighbours

`i40e_hmc_set_ctx_tx` and `i40e_hmc_set_ctx_rx` write the fields of a cleared object in
ascending order. Here a single `i40e_hmc_write` meets an object with any contents and a
member with any value.

The bits of the field always become the low bits of the value. The bits above it, in the
bytes that are written, may change for two reasons:

* the data are not masked, so a value that is wider than its field sets them;
* the mask of a byte beyond the width is full by mistake (`HmcCe.Spills`), so they are
  cleared, too. That is so for the members that are larger than their field by more than
  a byte: `dbuff`, `hbuff`, `rxmax` and `lrxqthresh` of an RX context.

`hmc_write_own_bits_iff` says exactly when neither happens.
-/
import Ufp.Dev.HmcContext

namespace Ufp.Dev.Hmc

open Ufp.Theory.BitString

set_option autoImplicit false

/-- `i40e_hmc_write` sets the bits of its field to the low bits of the value, and no other bit
of the object changes. -/
structure HmcCe.WritesOwn (ce : HmcCe) (hmcBits : Nat) (ctx mem : Nat → UInt8) : Prop where
  own : field (fromByte (i40eHmcWrite hmcBits ce ctx mem) hmcBits) ce.lsb ce.width = ce.value ctx % 2 ^ ce.width
  others : ∀ k, ¬ ce.Covers k →
    bit (fromByte (i40eHmcWrite hmcBits ce ctx mem) hmcBits) k = bit (fromByte mem hmcBits) k

/-- The bits `m` above the field are such that nothing is seen of the write: those that the value
would set are set, and those that the mask takes in by mistake are set only if the value sets them. -/
structure HmcCe.Quiet (ce : HmcCe) (value : Nat) (m : Nat → UInt8) : Prop where
  data : ∀ k, ce.Reaches k → ¬ ce.Covers k → value.testBit (k - ce.lsb) = true → bit m k = true
  mask : ∀ k, ce.Spills k → bit m k = true → value.testBit (k - ce.lsb) = true

/-- Whatever the object holds, nothing is seen of the write above the field: no byte is beyond the
width, and no bit of the value beyond the width is inside the bytes that are written. -/
structure HmcCe.Exact (ce : HmcCe) (value : Nat) : Prop where
  mask : 8 * (ce.sizeOf - 1) ≤ ce.width
  data : value % 2 ^ (8 * ce.sizeOf - ce.lsb % 8) < 2 ^ ce.width

section Frame

variable {ce : HmcCe} {hmcBits k value : Nat} {ctx mem m : Nat → UInt8}

theorem HmcCe.Spills.not_covers (spills : ce.Spills k) : ¬ ce.Covers k := by
  intro covers
  have past := spills.2.2
  unfold HmcCe.Covers at covers
  omega

/-- Inside the field, the mask is full and the data count. -/
theorem bit_i40eHmcWrite_covered (fits : ce.Fits) (covers : ce.Covers k) :
    bit (fromByte (i40eHmcWrite hmcBits ce ctx mem) hmcBits) k = (ce.value ctx).testBit (k - ce.lsb) := by
  rw [bit_i40eHmcWrite_merge fits, if_pos (covers.reaches fits), decide_eq_true covers]
  simp

theorem field_i40eHmcWrite (fits : ce.Fits) :
    field (fromByte (i40eHmcWrite hmcBits ce ctx mem) hmcBits) ce.lsb ce.width = ce.value ctx % 2 ^ ce.width := by
  refine field_eq (Nat.mod_lt _ (Nat.two_pow_pos _)) fun i inside => ?_
  rw [bit_i40eHmcWrite_covered fits ⟨Nat.le_add_right _ _, by omega⟩, Nat.add_sub_cancel_left,
    Nat.testBit_mod_two_pow, decide_eq_true inside, Bool.true_and]

/-! ## One object -/

/-- Outside the field a bit keeps its value exactly when data and mask leave it alone. -/
theorem bit_i40eHmcWrite_kept_iff (fits : ce.Fits) (apart : ¬ ce.Covers k) :
    bit (fromByte (i40eHmcWrite hmcBits ce ctx mem) hmcBits) k = bit (fromByte mem hmcBits) k ↔
      (ce.Reaches k → (ce.value ctx).testBit (k - ce.lsb) = true → bit (fromByte mem hmcBits) k = true) ∧
        (ce.Spills k → bit (fromByte mem hmcBits) k = true → (ce.value ctx).testBit (k - ce.lsb) = true) := by
  rw [bit_i40eHmcWrite_merge fits]
  by_cases reaches : ce.Reaches k
  · rw [if_pos reaches, decide_eq_false apart, Bool.false_or]
    by_cases spills : ce.Spills k
    · rw [decide_eq_true spills]
      cases (ce.value ctx).testBit (k - ce.lsb) <;> cases bit (fromByte mem hmcBits) k <;> simp [reaches, spills]
    · rw [decide_eq_false spills]
      cases (ce.value ctx).testBit (k - ce.lsb) <;> cases bit (fromByte mem hmcBits) k <;> simp [reaches, spills]
  · rw [if_neg reaches]
    simp only [reaches, false_implies, true_and, true_iff]
    exact fun spills => absurd spills.reaches reaches

theorem HmcCe.writesOwn_iff (fits : ce.Fits) :
    ce.WritesOwn hmcBits ctx mem ↔ ce.Quiet (ce.value ctx) (fromByte mem hmcBits) := by
  constructor
  · intro frame
    exact {
      data := fun k reaches apart => ((bit_i40eHmcWrite_kept_iff fits apart).mp (frame.others k apart)).1 reaches
      mask := fun k spills =>
        ((bit_i40eHmcWrite_kept_iff fits spills.not_covers).mp (frame.others k spills.not_covers)).2 spills }
  · intro quiet
    exact ⟨field_i40eHmcWrite fits, fun k apart =>
      (bit_i40eHmcWrite_kept_iff fits apart).mpr ⟨fun reaches => quiet.data k reaches apart, quiet.mask k⟩⟩

/-! ## Every object -/

/-- The value has no bit above the field, where the bytes that are written have room for one. -/
theorem HmcCe.data_lt_iff :
    value % 2 ^ (8 * ce.sizeOf - ce.lsb % 8) < 2 ^ ce.width ↔
      ∀ k, ce.Reaches k → ¬ ce.Covers k → value.testBit (k - ce.lsb) = false := by
  rw [mod_two_pow_lt_iff]
  constructor
  · rintro clear k ⟨low, inside⟩ apart
    refine clear _ (Nat.not_lt.mp fun covered => apart ⟨low, by omega⟩) (by omega)
  · intro clear i beyond inside
    have here := clear (ce.lsb + i) ⟨by omega, by omega⟩ fun covers => absurd covers.2 (by omega)
    rwa [Nat.add_sub_cancel_left] at here

theorem HmcCe.Exact.quiet (exactly : ce.Exact value) : ce.Quiet value m where
  data k reaches apart set := by
    rw [HmcCe.data_lt_iff.mp exactly.data k reaches apart] at set
    exact absurd set Bool.false_ne_true
  mask k spills := absurd spills (HmcCe.spills_never_iff.mpr exactly.mask k)

/-- An object of zeros shows the bits of the value above the field, and with one of ones
the bits that the mask takes in. -/
theorem HmcCe.exact_of_quiet (zeros : ce.Quiet value fun _ => 0) (ones : ce.Quiet value fun _ => 0xff) :
    ce.Exact value := by
  have clear : ∀ k, ce.Reaches k → ¬ ce.Covers k → value.testBit (k - ce.lsb) = false := by
    intro k reaches apart
    by_contra set
    have shown := zeros.data k reaches apart (Bool.eq_true_of_not_eq_false set)
    rw [bit_zeros] at shown
    exact Bool.false_ne_true shown
  refine ⟨HmcCe.spills_never_iff.mp fun k spills => ?_, HmcCe.data_lt_iff.mpr clear⟩
  have set := ones.mask k spills bit_ones
  rw [clear k spills.reaches spills.not_covers] at set
  exact Bool.false_ne_true set

theorem HmcCe.writesOwn_always_iff (fits : ce.Fits) :
    (∀ mem, ce.WritesOwn hmcBits ctx mem) ↔ ce.Exact (ce.value ctx) := by
  constructor
  · intro always
    exact HmcCe.exact_of_quiet ((HmcCe.writesOwn_iff fits).mp (always fun _ => 0))
      ((HmcCe.writesOwn_iff fits).mp (always fun _ => 0xff))
  · intro exactly mem
    exact (HmcCe.writesOwn_iff fits).mpr exactly.quiet

theorem entry_fits (entry : ce ∈ i40eHmcCeTx ∨ ce ∈ i40eHmcCeRx) : ce.Fits :=
  entry.elim (i40eHmcCeTx_ok.fits ce) (i40eHmcCeRx_ok.fits ce)

end Frame

/-- **When a write touches only its own bits.** For an entry of a table and a value of its member:
with an object given, exactly if the bits above the field are already as data and mask make them;
for every object, exactly if the member has no whole byte beyond the width and the value has no
bit beyond the width, as far as the bytes that are written go. -/
theorem hmc_write_own_bits_iff {ce : HmcCe} (entry : ce ∈ i40eHmcCeTx ∨ ce ∈ i40eHmcCeRx) (hmcBits : Nat)
    (ctx : Nat → UInt8) :
    (∀ mem, ce.WritesOwn hmcBits ctx mem ↔ ce.Quiet (ce.value ctx) (fromByte mem hmcBits)) ∧
      ((∀ mem, ce.WritesOwn hmcBits ctx mem) ↔ ce.Exact (ce.value ctx)) :=
  ⟨fun _ => HmcCe.writesOwn_iff (entry_fits entry), HmcCe.writesOwn_always_iff (entry_fits entry)⟩

/-- The queue length of a TX context, 1024, is written without a trace in its neighbours. -/
theorem hmc_write_own_bits_iff_qlen :
    i40eHmcField i40eHmcCtxTx .qlen 13 (33 + 128) ∈ i40eHmcCeTx ∧
      ∀ mem, (i40eHmcField i40eHmcCtxTx .qlen 13 (33 + 128)).WritesOwn 0 (sampleCtx 25 4) mem :=
  ⟨by decide, (hmc_write_own_bits_iff (.inl (by decide)) 0 (sampleCtx 25 4)).2.mpr ⟨by decide, by decide⟩⟩

/-- Writing `dbuff` again clears bits of `hbuff`; a ready list handle of 12 bits sets a bit that no
entry has. -/
theorem hmc_write_changes_neighbours :
    let dbuff := i40eHmcField i40eHmcCtxRx .dbuff 7 102
    let rdylist := i40eHmcField i40eHmcCtxTx .rdylist 10 (84 + 7 * 128)
    (dbuff ∈ i40eHmcCeRx ∧ ¬ dbuff.WritesOwn 0 (fun _ => 0) fun _ => 0xff) ∧
      (rdylist ∈ i40eHmcCeTx ∧ rdylist.value (sampleCtx 45 8) = 0x800 ∧
        ¬ rdylist.WritesOwn 0 (sampleCtx 45 8) fun _ => 0) := by
  refine ⟨⟨by decide, fun frame => ?_⟩, by decide, by decide, fun frame => ?_⟩
  · exact absurd (frame.others 110 (by decide)) (by decide)
  · exact absurd (frame.others 991 (by decide)) (by decide)

end Ufp.Dev.Hmc
