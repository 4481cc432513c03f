/-
# Ufp.Dev.HmcContext — queue contexts as the device reads them

A context is a C structure on the host and a string of packed bit fields for the
device. The tables `I40E_HMC_CE_TX` and `I40E_HMC_CE_RX` say which bits each member
goes to; `i40e_hmc_write` and `i40e_hmc_read` copy one member, byte by byte.

The mask of a byte beyond the width of a field comes from a 16-bit subtraction that
wraps around, so it is 0xff and not 0 (`bit_maskByte`). Writing a field then clears
bits of the fields after it, which is harmless because these are written later
(`hmc_context_encoded`); reading a field picks up bits of the fields after it
(`hmc_read_undoes_write_iff`).
-/
import Ufp.Dev.Hmc
import Ufp.Theory.BitString

namespace Ufp.Dev.Hmc

open Ufp.Dev.Queues Ufp.Theory.BitString

set_option autoImplicit false

/-! ## Structures of integers -/

/-- A C structure of unsigned integers: its members in order, with their sizes. -/
abbrev Struct (φ : Type) : Type := List (φ × Nat)

section Struct

variable {φ : Type} [DecidableEq φ]

/-- The offsets of members behind `pos` bytes: each is aligned to its size. -/
def layout : Nat → Struct φ → List (φ × Nat)
  | _, [] => []
  | pos, (m, size) :: rest =>
      let offset := (pos + size - 1) / size * size
      (m, offset) :: layout (offset + size) rest

/-- `offsetof`. -/
def offsetOf (struct : Struct φ) (m : φ) : Nat := ((layout 0 struct).lookup m).getD 0

/-- `FIELD_SIZEOF`. -/
def fieldSizeof (struct : Struct φ) (m : φ) : Nat := (struct.lookup m).getD 0

/-- A member of the structure with bytes `ctx`. -/
def member (struct : Struct φ) (ctx : Nat → UInt8) (m : φ) : Nat :=
  word (fromByte ctx (offsetOf struct m)) (fieldSizeof struct m)

end Struct

inductive RxMember where
  | head | cpuid | base | qlen | dbuff | hbuff | dtype | dsize | crcstrip | fcEn | l2tsel
  | hsplit0 | hsplit1 | showiv | rxmax | tphrdescEn | tphwdescEn | tphdataEn | tphheadEn
  | lrxqthresh | prefEn
  deriving DecidableEq

/-- `struct i40e_hmc_ctx_rx`. -/
def i40eHmcCtxRx : Struct RxMember :=
  [(.head, 2), (.cpuid, 2), (.base, 8), (.qlen, 2), (.dbuff, 2), (.hbuff, 2), (.dtype, 1), (.dsize, 1),
    (.crcstrip, 1), (.fcEn, 1), (.l2tsel, 1), (.hsplit0, 1), (.hsplit1, 1), (.showiv, 1), (.rxmax, 4),
    (.tphrdescEn, 1), (.tphwdescEn, 1), (.tphdataEn, 1), (.tphheadEn, 1), (.lrxqthresh, 2), (.prefEn, 1)]

inductive TxMember where
  | head | newContext | base | fcEn | timesyncEn | fdEn | altVlanEn | theadWb | cpuid | headWbEn
  | qlen | tphrdescEn | tphrpktEn | tphwdescEn | headwbAddr | crc | rdylist | rdylistAct
  deriving DecidableEq

/-- `struct i40e_hmc_ctx_tx`. -/
def i40eHmcCtxTx : Struct TxMember :=
  [(.head, 2), (.newContext, 1), (.base, 8), (.fcEn, 1), (.timesyncEn, 1), (.fdEn, 1), (.altVlanEn, 1),
    (.theadWb, 2), (.cpuid, 1), (.headWbEn, 1), (.qlen, 2), (.tphrdescEn, 1), (.tphrpktEn, 1),
    (.tphwdescEn, 1), (.headwbAddr, 8), (.crc, 4), (.rdylist, 2), (.rdylistAct, 1)]

/-! ## The tables -/

/-- `struct i40e_hmc_ce`. -/
structure HmcCe where
  offset : Nat
  sizeOf : Nat
  width : Nat
  lsb : Nat
  deriving DecidableEq

/-- `I40E_HMC_FIELD`, with a width and a position. -/
def i40eHmcField {φ : Type} [DecidableEq φ] (struct : Struct φ) (m : φ) (width lsb : Nat) : HmcCe :=
  ⟨offsetOf struct m, fieldSizeof struct m, width, lsb⟩

/-- `I40E_HMC_CE_RX`, up to its last entry. -/
def i40eHmcCeRx : List HmcCe :=
  [i40eHmcField i40eHmcCtxRx .head 13 0, i40eHmcField i40eHmcCtxRx .cpuid 8 13,
    i40eHmcField i40eHmcCtxRx .base 57 32, i40eHmcField i40eHmcCtxRx .qlen 13 89,
    i40eHmcField i40eHmcCtxRx .dbuff 7 102, i40eHmcField i40eHmcCtxRx .hbuff 5 109,
    i40eHmcField i40eHmcCtxRx .dtype 2 114, i40eHmcField i40eHmcCtxRx .dsize 1 116,
    i40eHmcField i40eHmcCtxRx .crcstrip 1 117, i40eHmcField i40eHmcCtxRx .fcEn 1 118,
    i40eHmcField i40eHmcCtxRx .l2tsel 1 119, i40eHmcField i40eHmcCtxRx .hsplit0 4 120,
    i40eHmcField i40eHmcCtxRx .hsplit1 2 124, i40eHmcField i40eHmcCtxRx .showiv 1 127,
    i40eHmcField i40eHmcCtxRx .rxmax 14 174, i40eHmcField i40eHmcCtxRx .tphrdescEn 1 193,
    i40eHmcField i40eHmcCtxRx .tphwdescEn 1 194, i40eHmcField i40eHmcCtxRx .tphdataEn 1 195,
    i40eHmcField i40eHmcCtxRx .tphheadEn 1 196, i40eHmcField i40eHmcCtxRx .lrxqthresh 3 198,
    i40eHmcField i40eHmcCtxRx .prefEn 1 201]

/-- `I40E_HMC_CE_TX`, up to its last entry. -/
def i40eHmcCeTx : List HmcCe :=
  [i40eHmcField i40eHmcCtxTx .head 13 0, i40eHmcField i40eHmcCtxTx .newContext 1 30,
    i40eHmcField i40eHmcCtxTx .base 57 32, i40eHmcField i40eHmcCtxTx .fcEn 1 89,
    i40eHmcField i40eHmcCtxTx .timesyncEn 1 90, i40eHmcField i40eHmcCtxTx .fdEn 1 91,
    i40eHmcField i40eHmcCtxTx .altVlanEn 1 92, i40eHmcField i40eHmcCtxTx .cpuid 8 96,
    -- line 1
    i40eHmcField i40eHmcCtxTx .theadWb 13 (0 + 128), i40eHmcField i40eHmcCtxTx .headWbEn 1 (32 + 128),
    i40eHmcField i40eHmcCtxTx .qlen 13 (33 + 128), i40eHmcField i40eHmcCtxTx .tphrdescEn 1 (46 + 128),
    i40eHmcField i40eHmcCtxTx .tphrpktEn 1 (47 + 128), i40eHmcField i40eHmcCtxTx .tphwdescEn 1 (48 + 128),
    i40eHmcField i40eHmcCtxTx .headwbAddr 64 (64 + 128),
    -- line 7
    i40eHmcField i40eHmcCtxTx .crc 32 (0 + 7 * 128), i40eHmcField i40eHmcCtxTx .rdylist 10 (84 + 7 * 128),
    i40eHmcField i40eHmcCtxTx .rdylistAct 1 (94 + 7 * 128)]

/-! ## Writing and reading one field -/

/-- Byte `i` of the mask of a field; `width_remain` has 16 bits. -/
def maskByte (width i : Nat) : UInt8 :=
  let widthRemain := (width + 2 ^ 16 - i * 8) % 2 ^ 16
  UInt8.ofNat (1 <<< min widthRemain 8 - 1)

section Code

variable (data mask src : Nat → UInt8) (shiftWidth dst : Nat)

/-- The loop of `i40e_hmc_write` over the bytes from `i` on, with `todo` to go. -/
def writeLoop : Nat → Nat → UInt8 → UInt8 → (Nat → UInt8) → Nat → UInt8
  | 0, _, _, _, mem => mem
  | todo + 1, i, prevData, prevMask, mem =>
      let byteData := UInt8.ofNat ((data i).toNat <<< shiftWidth) ||| prevData
      let byteMask := UInt8.ofNat ((mask i).toNat <<< shiftWidth) ||| prevMask
      writeLoop todo (i + 1) (UInt8.ofNat ((data i).toNat >>> (8 - shiftWidth)))
        (UInt8.ofNat ((mask i).toNat >>> (8 - shiftWidth)))
        (Function.update mem (dst + i) (byteData ||| (~~~byteMask &&& mem (dst + i))))

/-- The loop of `i40e_hmc_read` over the bytes below `i`, from the last to the first. -/
def readLoop : Nat → UInt8 → (Nat → UInt8) → Nat → UInt8
  | 0, _, data => data
  | i + 1, nextData, data =>
      let byteData := UInt8.ofNat ((src i).toNat >>> shiftWidth) ||| nextData
      readLoop i (UInt8.ofNat ((src i).toNat <<< (8 - shiftWidth)))
        (Function.update data i (byteData &&& mask i))

end Code

/-- `i40e_hmc_write`, on a little-endian host. -/
def i40eHmcWrite (hmcBits : Nat) (ce : HmcCe) (hostBuf mem : Nat → UInt8) : Nat → UInt8 :=
  writeLoop (fromByte hostBuf ce.offset) (maskByte ce.width) (ce.lsb % 8) (hmcBits + ce.lsb / 8)
    ce.sizeOf 0 0 0 mem

/-- `i40e_hmc_read`, on a little-endian host; it returns the new contents of `host_buf`. -/
def i40eHmcRead (hmcBits : Nat) (ce : HmcCe) (hostBuf mem : Nat → UInt8) : Nat → UInt8 :=
  let data := readLoop (maskByte ce.width) (fromByte mem (hmcBits + ce.lsb / 8)) (ce.lsb % 8) ce.sizeOf 0
    (fun _ => 0)
  fun a => if ce.offset ≤ a ∧ a < ce.offset + ce.sizeOf then data (a - ce.offset) else hostBuf a

/-! ## Contexts -/

/-- `memset` to 0. -/
def memsetZero (mem : Nat → UInt8) (addr size : Nat) : Nat → UInt8 :=
  fun a => if addr ≤ a ∧ a < addr + size then 0 else mem a

/-- The body of the two functions below: `none` is -1, and leaves memory as it is. -/
def setCtx (obj : HmcObj) (table : List HmcCe) (hmc : I40eHmc) (ctx : Nat → UInt8) (qpIdx : Nat)
    (mem : Nat → UInt8) : Option (Nat → UInt8) :=
  (i40eHmcVa hmc obj qpIdx).map fun hmcVa =>
    table.foldl (fun mem ce => i40eHmcWrite hmcVa ce ctx mem) (memsetZero mem hmcVa obj.size)

/-- `i40e_hmc_set_ctx_tx`. -/
def i40eHmcSetCtxTx (hmc : I40eHmc) : (Nat → UInt8) → Nat → (Nat → UInt8) → Option (Nat → UInt8) :=
  setCtx hmc.objTx i40eHmcCeTx hmc

/-- `i40e_hmc_set_ctx_rx`. -/
def i40eHmcSetCtxRx (hmc : I40eHmc) : (Nat → UInt8) → Nat → (Nat → UInt8) → Option (Nat → UInt8) :=
  setCtx hmc.objRx i40eHmcCeRx hmc

/-- `i40e_hmc_read` for every entry of a table. -/
def readCtx (table : List HmcCe) (hmcBits : Nat) (mem hostBuf : Nat → UInt8) : Nat → UInt8 :=
  table.foldl (fun hostBuf ce => i40eHmcRead hmcBits ce hostBuf mem) hostBuf

/-! ## One field, bit by bit -/

theorem bit_maskByte {width k : Nat} (narrow : width ≤ 64) (inside : k < 64) :
    bit (maskByte width) k = (decide (k < width) || decide (width < 8 * (k / 8))) := by
  rw [bit, maskByte, testBit_ofNat, Nat.one_shiftLeft, Nat.testBit_two_pow_sub_one,
    decide_eq_true (Nat.mod_lt k (by decide)), Bool.true_and, ← Bool.decide_or]
  apply decide_eq_decide.mpr
  -- beyond the width the difference wraps to a large number, and the mask is full
  by_cases past : width < k / 8 * 8
  · have remain : (width + 2 ^ 16 - k / 8 * 8) % 2 ^ 16 = 2 ^ 16 - (k / 8 * 8 - width) := by omega
    rw [remain]
    omega
  · have remain : (width + 2 ^ 16 - k / 8 * 8) % 2 ^ 16 = width - k / 8 * 8 := by omega
    rw [remain]
    omega

/-- The loop of `i40e_hmc_write` merges the shifted data into the bytes it covers. -/
theorem writeLoop_eq (data mask : Nat → UInt8) (s dst todo i : Nat) (mem : Nat → UInt8) :
    writeLoop data mask s dst todo i (carryUp data s i) (carryUp mask s i) mem = fun a =>
      if dst + i ≤ a ∧ a < dst + i + todo then
        shiftUp data s (a - dst) ||| (~~~shiftUp mask s (a - dst) &&& mem a)
      else mem a := by
  induction todo generalizing i mem with
  | zero =>
      funext a
      rw [if_neg (by omega)]
      rfl
  | succ todo ih =>
      rw [writeLoop]
      refine (ih (i + 1) _).trans (funext fun a => ?_)
      by_cases here : a = dst + i
      · subst here
        rw [if_neg (by omega), if_pos (by omega), Function.update_self, Nat.add_sub_cancel_left]
        rfl
      · rw [Function.update_of_ne here]
        by_cases inside : dst + (i + 1) ≤ a ∧ a < dst + (i + 1) + todo
        · rw [if_pos inside, if_pos (by omega)]
        · rw [if_neg inside, if_neg (by omega)]

/-- The loop of `i40e_hmc_read` leaves the masked bytes of the shifted string. -/
theorem readLoop_eq (mask src : Nat → UInt8) (s size : Nat) {i : Nat} (inside : i ≤ size) (data : Nat → UInt8) :
    readLoop mask src s i (carryDown src s size i) data = fun j =>
      if j < i then shiftDown src s size j &&& mask j else data j := by
  induction i generalizing data with
  | zero =>
      funext j
      rw [if_neg (Nat.not_lt_zero j)]
      rfl
  | succ i ih =>
      have carry : UInt8.ofNat ((src i).toNat <<< (8 - s)) = carryDown src s size i := (if_pos (by omega)).symm
      rw [readLoop, carry]
      refine (ih (by omega) _).trans (funext fun j => ?_)
      by_cases here : j = i
      · subst here
        rw [if_neg (Nat.lt_irrefl _), if_pos (Nat.lt_succ_self _), Function.update_self]
        rfl
      · rw [Function.update_of_ne here]
        by_cases below : j < i
        · rw [if_pos below, if_pos (by omega)]
        · rw [if_neg below, if_neg (by omega)]

/-- The value of a field of a context. -/
def HmcCe.value (ce : HmcCe) (ctx : Nat → UInt8) : Nat := word (fromByte ctx ce.offset) ce.sizeOf

/-- An entry that fits the code: the field is inside the bytes that are touched. -/
structure HmcCe.Fits (ce : HmcCe) : Prop where
  bytes : ce.sizeOf ≤ 8
  room : ce.lsb % 8 + ce.width ≤ 8 * ce.sizeOf

instance (ce : HmcCe) : Decidable ce.Fits :=
  decidable_of_iff (ce.sizeOf ≤ 8 ∧ ce.lsb % 8 + ce.width ≤ 8 * ce.sizeOf) ⟨fun ⟨a, b⟩ => ⟨a, b⟩, fun ⟨a, b⟩ => ⟨a, b⟩⟩

/-- Bit `k` of the object is one of the field. -/
def HmcCe.Covers (ce : HmcCe) (k : Nat) : Prop := ce.lsb ≤ k ∧ k < ce.lsb + ce.width

/-- Bit `k` of the object is one that the mask of the field takes in by mistake. -/
def HmcCe.Spills (ce : HmcCe) (k : Nat) : Prop :=
  ce.lsb ≤ k ∧ k < 8 * (ce.lsb / 8 + ce.sizeOf) ∧ ce.width < 8 * ((k - ce.lsb) / 8)

/-- Bit `k` of the object is in the bytes that are written, at the first bit of the field or above. -/
def HmcCe.Reaches (ce : HmcCe) (k : Nat) : Prop := ce.lsb ≤ k ∧ k < 8 * (ce.lsb / 8 + ce.sizeOf)

instance (ce : HmcCe) (k : Nat) : Decidable (ce.Covers k) := inferInstanceAs (Decidable (_ ∧ _))

instance (ce : HmcCe) (k : Nat) : Decidable (ce.Spills k) := inferInstanceAs (Decidable (_ ∧ _))

instance (ce : HmcCe) (k : Nat) : Decidable (ce.Reaches k) := inferInstanceAs (Decidable (_ ∧ _))

section Bits

variable {ce : HmcCe} {hmcBits k : Nat} {ctx mem : Nat → UInt8}

theorem HmcCe.Covers.reaches (covers : ce.Covers k) (fits : ce.Fits) : ce.Reaches k := by
  have room := fits.room
  unfold HmcCe.Covers at covers
  unfold HmcCe.Reaches
  omega

theorem HmcCe.Spills.reaches (spills : ce.Spills k) : ce.Reaches k := ⟨spills.1, spills.2.1⟩

/-- A mask takes in bits by mistake exactly if the member has a whole byte beyond the width. -/
theorem HmcCe.spills_never_iff : (∀ k, ¬ ce.Spills k) ↔ 8 * (ce.sizeOf - 1) ≤ ce.width := by
  constructor
  · intro never
    by_contra wide
    -- the first bit of the last byte of the mask
    refine never (ce.lsb + 8 * (ce.sizeOf - 1)) ⟨by omega, by omega, ?_⟩
    rw [Nat.add_sub_cancel_left, Nat.mul_div_cancel_left _ (by decide)]
    omega
  · rintro mask k ⟨low, inside, past⟩
    omega

/-- What `i40e_hmc_write` does to the bits of the object, whatever the value: from the field on,
the data go in without a mask. -/
theorem bit_i40eHmcWrite_merge (fits : ce.Fits) :
    bit (fromByte (i40eHmcWrite hmcBits ce ctx mem) hmcBits) k =
      if ce.Reaches k then
        ((ce.value ctx).testBit (k - ce.lsb) ||
          (!(decide (ce.Covers k) || decide (ce.Spills k)) && bit (fromByte mem hmcBits) k))
      else bit (fromByte mem hmcBits) k := by
  obtain ⟨bytes, room⟩ := fits
  have loop : i40eHmcWrite hmcBits ce ctx mem = _ := writeLoop_eq (fromByte ctx ce.offset)
    (maskByte ce.width) (ce.lsb % 8) (hmcBits + ce.lsb / 8) ce.sizeOf 0 mem
  by_cases window : ce.lsb / 8 ≤ k / 8 ∧ k / 8 < ce.lsb / 8 + ce.sizeOf
  · -- the byte is rewritten
    have place : ∀ m : Nat → UInt8, (m (k / 8 - ce.lsb / 8)).toNat.testBit (k % 8) = bit m (k - 8 * (ce.lsb / 8)) := by
      intro m
      rw [bit, show (k - 8 * (ce.lsb / 8)) / 8 = k / 8 - ce.lsb / 8 by omega,
        show (k - 8 * (ce.lsb / 8)) % 8 = k % 8 by omega]
    have merged : bit (fromByte (i40eHmcWrite hmcBits ce ctx mem) hmcBits) k =
        (bit (shiftUp (fromByte ctx ce.offset) (ce.lsb % 8)) (k - 8 * (ce.lsb / 8)) ||
          (!bit (shiftUp (maskByte ce.width) (ce.lsb % 8)) (k - 8 * (ce.lsb / 8)) &&
            bit (fromByte mem hmcBits) k)) := by
      have byte : hmcBits + k / 8 - (hmcBits + ce.lsb / 8) = k / 8 - ce.lsb / 8 := by omega
      rw [bit, loop, fromByte, if_pos (by omega), byte, testBit_or, testBit_and, testBit_not _ (Nat.mod_lt k (by decide)), place, place]
      rfl
    rw [merged, bit_shiftUp (Nat.mod_lt _ (by decide)), bit_shiftUp (Nat.mod_lt _ (by decide)),
      show k - 8 * (ce.lsb / 8) - ce.lsb % 8 = k - ce.lsb by omega]
    by_cases low : ce.lsb ≤ k
    · have reaches : ce.Reaches k := ⟨low, by omega⟩
      have data : (ce.value ctx).testBit (k - ce.lsb) = bit (fromByte ctx ce.offset) (k - ce.lsb) := by
        rw [HmcCe.value, testBit_word, decide_eq_true (show k - ce.lsb < 8 * ce.sizeOf by omega), Bool.true_and]
      have covers : ce.Covers k ↔ k - ce.lsb < ce.width := by
        unfold HmcCe.Covers
        omega
      have spills : ce.Spills k ↔ ce.width < 8 * ((k - ce.lsb) / 8) :=
        ⟨fun past => past.2.2, fun past => ⟨low, reaches.2, past⟩⟩
      rw [decide_eq_true (show ce.lsb % 8 ≤ k - 8 * (ce.lsb / 8) by omega), Bool.true_and, Bool.true_and,
        bit_maskByte (by omega) (by omega), if_pos reaches, data, decide_eq_decide.mpr covers,
        decide_eq_decide.mpr spills]
    · rw [decide_eq_false (show ¬ ce.lsb % 8 ≤ k - 8 * (ce.lsb / 8) by omega), if_neg fun reaches => low reaches.1]
      rfl
  · have outside : fromByte (i40eHmcWrite hmcBits ce ctx mem) hmcBits (k / 8) = fromByte mem hmcBits (k / 8) := by
      rw [loop, fromByte, if_neg (by omega)]
      rfl
    have far : ¬ ce.Reaches k := by
      unfold HmcCe.Reaches
      omega
    rw [if_neg far, bit, outside]
    rfl

/-- What `i40e_hmc_write` does to the bits of the object, for a value that fits its field. -/
theorem bit_i40eHmcWrite (fits : ce.Fits) (small : ce.value ctx < 2 ^ ce.width) :
    bit (fromByte (i40eHmcWrite hmcBits ce ctx mem) hmcBits) k =
      if ce.Covers k then (ce.value ctx).testBit (k - ce.lsb)
      else if ce.Spills k then false else bit (fromByte mem hmcBits) k := by
  rw [bit_i40eHmcWrite_merge fits]
  by_cases covers : ce.Covers k
  · rw [if_pos covers, if_pos (covers.reaches fits), decide_eq_true covers]
    simp
  · rw [if_neg covers]
    by_cases reaches : ce.Reaches k
    · have beyond : ce.width ≤ k - ce.lsb := Nat.not_lt.mp fun inside => covers ⟨reaches.1, by omega⟩
      have high : (ce.value ctx).testBit (k - ce.lsb) = false :=
        Nat.testBit_lt_two_pow (small.trans_le (Nat.pow_le_pow_right (by decide) beyond))
      rw [if_pos reaches, high, decide_eq_false covers, Bool.false_or, Bool.false_or]
      split_ifs with spills <;> simp [spills]
    · rw [if_neg reaches, if_neg fun spills : ce.Spills k => reaches spills.reaches]

/-- What `i40e_hmc_read` finds in the bits of the object. -/
theorem testBit_i40eHmcRead (fits : ce.Fits) (hostBuf : Nat → UInt8) :
    (ce.value (i40eHmcRead hmcBits ce hostBuf mem)).testBit k =
      if k < ce.width ∨ ce.Spills (ce.lsb + k) then bit (fromByte mem hmcBits) (ce.lsb + k) else false := by
  obtain ⟨bytes, room⟩ := fits
  rw [HmcCe.value, testBit_word]
  by_cases inside : k < 8 * ce.sizeOf
  · have start : (0 : UInt8) = carryDown (fromByte mem (hmcBits + ce.lsb / 8)) (ce.lsb % 8) ce.sizeOf ce.sizeOf :=
      (if_neg (Nat.lt_irrefl _)).symm
    have loop := readLoop_eq (maskByte ce.width) (fromByte mem (hmcBits + ce.lsb / 8)) (ce.lsb % 8) ce.sizeOf
      (Nat.le_refl _) (fun _ => 0)
    rw [← start] at loop
    have data : bit (fromByte (i40eHmcRead hmcBits ce hostBuf mem) ce.offset) k =
        (bit (shiftDown (fromByte mem (hmcBits + ce.lsb / 8)) (ce.lsb % 8) ce.sizeOf) k && bit (maskByte ce.width) k) := by
      have byte : fromByte (i40eHmcRead hmcBits ce hostBuf mem) ce.offset (k / 8) =
          shiftDown (fromByte mem (hmcBits + ce.lsb / 8)) (ce.lsb % 8) ce.sizeOf (k / 8) &&& maskByte ce.width (k / 8) := by
        simp only [fromByte, i40eHmcRead]
        rw [if_pos (by omega), Nat.add_sub_cancel_left]
        exact (congrFun loop (k / 8)).trans (if_pos (by omega))
      rw [bit, byte, testBit_and]
      rfl
    have moved : bit (fromByte mem (hmcBits + ce.lsb / 8)) (k + ce.lsb % 8) = bit (fromByte mem hmcBits) (ce.lsb + k) := by
      rw [bit_from, bit_from]
      exact congrArg (bit mem) (by omega)
    rw [decide_eq_true inside, Bool.true_and, data, bit_shiftDown (Nat.mod_lt _ (by decide)) inside, moved,
      bit_maskByte (by omega) (by omega)]
    have spills : ce.Spills (ce.lsb + k) ↔ k + ce.lsb % 8 < 8 * ce.sizeOf ∧ ce.width < 8 * (k / 8) := by
      unfold HmcCe.Spills
      rw [Nat.add_sub_cancel_left]
      omega
    by_cases low : k < ce.width
    · rw [if_pos (.inl low), decide_eq_true low, decide_eq_true (show k + ce.lsb % 8 < 8 * ce.sizeOf by omega)]
      simp
    · by_cases past : ce.Spills (ce.lsb + k)
      · rw [if_pos (.inr past), decide_eq_true (spills.mp past).1, decide_eq_true (spills.mp past).2]
        simp
      · rw [if_neg (fun either => either.elim low past), decide_eq_false low, Bool.false_or]
        by_cases room' : k + ce.lsb % 8 < 8 * ce.sizeOf
        · rw [decide_eq_false fun wide => past (spills.mpr ⟨room', wide⟩), Bool.and_false]
        · rw [decide_eq_false room', Bool.false_and, Bool.false_and]
  · rw [decide_eq_false inside, Bool.false_and, if_neg]
    rintro (low | past)
    · omega
    · have ends := past.2.1
      omega

end Bits

/-! ## A whole table -/

/-- The fields of a table, in order and apart, each where the code can write it. -/
structure TableOk (table : List HmcCe) : Prop where
  fits : ∀ ce ∈ table, ce.Fits
  sorted : table.Pairwise fun a b => a.lsb + a.width ≤ b.lsb

theorem i40eHmcCeTx_ok : TableOk i40eHmcCeTx := ⟨by decide, by decide⟩

theorem i40eHmcCeRx_ok : TableOk i40eHmcCeRx := ⟨by decide, by decide⟩

/-- Every field of the context is below 2^width. -/
def FieldsFit (table : List HmcCe) (ctx : Nat → UInt8) : Prop := ∀ ce ∈ table, ce.value ctx < 2 ^ ce.width

instance (table : List HmcCe) (ctx : Nat → UInt8) : Decidable (FieldsFit table ctx) :=
  inferInstanceAs (Decidable (∀ _ ∈ _, _))

/-- The object `m` holds the fields of `ctx`. Bits outside the fields are 0 if they were
before, in `zero`, or if the mask of a field takes them in. -/
structure Laid (ctx : Nat → UInt8) (zero : Nat → Prop) (table : List HmcCe) (m : Nat → UInt8) : Prop where
  covered : ∀ ce ∈ table, ∀ k, ce.Covers k → bit m k = (ce.value ctx).testBit (k - ce.lsb)
  clear : ∀ k, (zero k ∨ ∃ ce ∈ table, ce.Spills k) → (∀ ce ∈ table, ¬ ce.Covers k) → bit m k = false

section Table

variable {ctx mem : Nat → UInt8} {zero : Nat → Prop} {done table : List HmcCe} {ce : HmcCe} {hmcBits : Nat}

/-- Writing the next field changes no bit of the fields before it. -/
theorem Laid.write (laid : Laid ctx zero done (fromByte mem hmcBits)) (fits : ce.Fits)
    (before : ∀ ce' ∈ done, ce'.lsb + ce'.width ≤ ce.lsb) (small : ce.value ctx < 2 ^ ce.width) :
    Laid ctx zero (done ++ [ce]) (fromByte (i40eHmcWrite hmcBits ce ctx mem) hmcBits) := by
  refine ⟨fun ce' member k covers => ?_, fun k cause none => ?_⟩
  · rw [bit_i40eHmcWrite fits small]
    rcases List.mem_append.mp member with old | new
    · have early := before ce' old
      have behind : k < ce.lsb := Nat.lt_of_lt_of_le covers.2 early
      rw [if_neg fun late => absurd late.1 (by omega), if_neg fun late => absurd late.1 (by omega)]
      exact laid.covered ce' old k covers
    · obtain rfl := List.mem_singleton.mp new
      rw [if_pos covers]
  · have apart : ¬ ce.Covers k := none ce (List.mem_append_right _ (List.mem_singleton_self _))
    rw [bit_i40eHmcWrite fits small, if_neg apart]
    by_cases spills : ce.Spills k
    · rw [if_pos spills]
    · rw [if_neg spills]
      refine laid.clear k (cause.imp_right ?_) fun ce' old => none ce' (List.mem_append_left _ old)
      rintro ⟨ce', member, past⟩
      rcases List.mem_append.mp member with old | new
      · exact ⟨ce', old, past⟩
      · obtain rfl := List.mem_singleton.mp new
        exact absurd past spills

theorem Laid.writeAll (laid : Laid ctx zero done (fromByte mem hmcBits)) (ok : TableOk (done ++ table))
    (small : FieldsFit (done ++ table) ctx) :
    Laid ctx zero (done ++ table)
      (fromByte (table.foldl (fun mem ce => i40eHmcWrite hmcBits ce ctx mem) mem) hmcBits) := by
  induction table generalizing done mem with
  | nil =>
      rw [List.append_nil]
      exact laid
  | cons ce table ih =>
      have here : ce ∈ done ++ ce :: table := List.mem_append_right _ List.mem_cons_self
      have before : ∀ ce' ∈ done, ce'.lsb + ce'.width ≤ ce.lsb :=
        fun ce' old => (List.pairwise_append.mp ok.sorted).2.2 ce' old ce List.mem_cons_self
      have next := laid.write (ok.fits ce here) before (small ce here)
      rw [List.append_cons] at ok small ⊢
      exact ih next ok small

/-- What `i40e_hmc_set_ctx_tx` and `i40e_hmc_set_ctx_rx` leave in the object. -/
theorem setCtx_laid {obj : HmcObj} {hmc : I40eHmc} {qpIdx : Nat} {mem' : Nat → UInt8} (ok : TableOk table)
    (small : FieldsFit table ctx) (set : setCtx obj table hmc ctx qpIdx mem = some mem') :
    ∃ hmcVa, i40eHmcVa hmc obj qpIdx = some hmcVa ∧
      Laid ctx (fun k => k < 8 * obj.size) table (fromByte mem' hmcVa) := by
  obtain ⟨hmcVa, found, rfl⟩ := Option.map_eq_some_iff.mp set
  refine ⟨hmcVa, found, ?_⟩
  have start : Laid ctx (fun k => k < 8 * obj.size) [] (fromByte (memsetZero mem hmcVa obj.size) hmcVa) := by
    refine ⟨fun ce member => absurd member List.not_mem_nil, fun k cause _ => ?_⟩
    rcases cause with inside | ⟨ce, member, -⟩
    · rw [bit, fromByte, memsetZero, if_pos (by omega)]
      exact Nat.zero_testBit _
    · exact absurd member List.not_mem_nil
  exact start.writeAll ok small

end Table

/-- The object holds each field of the context in its bits, and 0 elsewhere. -/
def Encoded (table : List HmcCe) (ctx m : Nat → UInt8) (size : Nat) : Prop :=
  (∀ ce ∈ table, field m ce.lsb ce.width = ce.value ctx) ∧
    ∀ k < 8 * size, (∀ ce ∈ table, ¬ ce.Covers k) → bit m k = false

theorem Laid.encoded {ctx m : Nat → UInt8} {table : List HmcCe} {size : Nat} (small : FieldsFit table ctx)
    (laid : Laid ctx (fun k => k < 8 * size) table m) : Encoded table ctx m size := by
  refine ⟨fun ce member => field_eq (small ce member) fun i inside => ?_,
    fun k inside none => laid.clear k (.inl inside) none⟩
  have bits := laid.covered ce member (ce.lsb + i) ⟨Nat.le_add_right _ _, by omega⟩
  rwa [Nat.add_sub_cancel_left] at bits

/-- **The object is laid out as the table says.** Whatever the memory held before, after
`i40e_hmc_set_ctx_tx` or `i40e_hmc_set_ctx_rx` succeeds, the bits of each entry are the value
of its field, and every other bit of the object is 0. -/
theorem hmc_context_encoded (hmc : I40eHmc) (ctx : Nat → UInt8) (qpIdx : Nat) (mem mem' : Nat → UInt8) :
    (FieldsFit i40eHmcCeTx ctx → i40eHmcSetCtxTx hmc ctx qpIdx mem = some mem' →
      ∃ hmcVa, i40eHmcVa hmc hmc.objTx qpIdx = some hmcVa ∧
        Encoded i40eHmcCeTx ctx (fromByte mem' hmcVa) hmc.objTx.size) ∧
    (FieldsFit i40eHmcCeRx ctx → i40eHmcSetCtxRx hmc ctx qpIdx mem = some mem' →
      ∃ hmcVa, i40eHmcVa hmc hmc.objRx qpIdx = some hmcVa ∧
        Encoded i40eHmcCeRx ctx (fromByte mem' hmcVa) hmc.objRx.size) := by
  constructor
  · intro small set
    obtain ⟨hmcVa, found, laid⟩ := setCtx_laid i40eHmcCeTx_ok small set
    exact ⟨hmcVa, found, laid.encoded small⟩
  · intro small set
    obtain ⟨hmcVa, found, laid⟩ := setCtx_laid i40eHmcCeRx_ok small set
    exact ⟨hmcVa, found, laid.encoded small⟩

/-- One queue, with contexts of 128 and 32 bytes. -/
def sampleHmc : I40eHmc where
  objTx := ⟨0, 1, 128⟩
  objRx := ⟨512, 1, 32⟩
  sdCount := 1
  sdEntry := fun _ => ⟨⟨4096, 4096, 4096⟩, fun j => ⟨4096 * (j + 2), 4096 * (j + 2), 4096⟩⟩

/-- A context in which only the byte at `offset` is not 0. -/
def sampleCtx (offset : Nat) (value : UInt8) : Nat → UInt8 := fun i => if i = offset then value else 0

theorem hmc_context_encoded_sample :
    (∃ mem' hmcVa, i40eHmcSetCtxTx sampleHmc (sampleCtx 0 5) 0 (fun _ => 0xff) = some mem' ∧
      Encoded i40eHmcCeTx (sampleCtx 0 5) (fromByte mem' hmcVa) 128) ∧
    ∃ mem' hmcVa, i40eHmcSetCtxRx sampleHmc (sampleCtx 0 5) 0 (fun _ => 0xff) = some mem' ∧
      Encoded i40eHmcCeRx (sampleCtx 0 5) (fromByte mem' hmcVa) 32 := by
  constructor
  · obtain ⟨mem', set⟩ : ∃ mem', i40eHmcSetCtxTx sampleHmc (sampleCtx 0 5) 0 (fun _ => 0xff) = some mem' := ⟨_, rfl⟩
    obtain ⟨hmcVa, -, encoded⟩ := (hmc_context_encoded sampleHmc _ 0 _ mem').1 (by decide) set
    exact ⟨mem', hmcVa, set, encoded⟩
  · obtain ⟨mem', set⟩ : ∃ mem', i40eHmcSetCtxRx sampleHmc (sampleCtx 0 5) 0 (fun _ => 0xff) = some mem' := ⟨_, rfl⟩
    obtain ⟨hmcVa, -, encoded⟩ := (hmc_context_encoded sampleHmc _ 0 _ mem').2 (by decide) set
    exact ⟨mem', hmcVa, set, encoded⟩

/-! ## Reading back -/

/-- Two entries have different members of the structure. -/
def HmcCe.Apart (a b : HmcCe) : Prop := a.offset + a.sizeOf ≤ b.offset ∨ b.offset + b.sizeOf ≤ a.offset

instance (a b : HmcCe) : Decidable (a.Apart b) := inferInstanceAs (Decidable (_ ∨ _))

section Read

variable {ctx mem : Nat → UInt8} {zero : Nat → Prop} {table : List HmcCe} {ce : HmcCe} {hmcBits : Nat}

/-- Reading other entries leaves a member as it is. -/
theorem value_readCtx_of_apart (apart : ∀ ce' ∈ table, ce.Apart ce') (hostBuf : Nat → UInt8) :
    ce.value (readCtx table hmcBits mem hostBuf) = ce.value hostBuf := by
  induction table generalizing hostBuf with
  | nil => rfl
  | cons ce' table ih =>
      refine (ih (fun other member => apart other (List.mem_cons_of_mem _ member)) _).trans ?_
      have far : ce.Apart ce' := apart ce' List.mem_cons_self
      unfold HmcCe.Apart at far
      refine Nat.eq_of_testBit_eq fun k => ?_
      rw [HmcCe.value, HmcCe.value, testBit_word, testBit_word]
      by_cases inside : k < 8 * ce.sizeOf
      · rw [bit, bit, fromByte, fromByte]
        simp only [i40eHmcRead]
        rw [if_neg (by omega)]
      · rw [decide_eq_false inside, Bool.false_and, Bool.false_and]

theorem testBit_readCtx (fits : ∀ ce ∈ table, ce.Fits) (apart : table.Pairwise HmcCe.Apart) (member : ce ∈ table)
    (hostBuf : Nat → UInt8) (k : Nat) :
    (ce.value (readCtx table hmcBits mem hostBuf)).testBit k =
      if k < ce.width ∨ ce.Spills (ce.lsb + k) then bit (fromByte mem hmcBits) (ce.lsb + k) else false := by
  induction table generalizing hostBuf with
  | nil => exact absurd member List.not_mem_nil
  | cons first table ih =>
      obtain ⟨far, apart'⟩ := List.pairwise_cons.mp apart
      rcases List.mem_cons.mp member with rfl | later
      · have kept : ce.value (readCtx (ce :: table) hmcBits mem hostBuf) = _ := value_readCtx_of_apart far _
        rw [kept, testBit_i40eHmcRead (fits ce member)]
      · exact ih (fun ce' inside => fits ce' (List.mem_cons_of_mem _ inside)) apart' later _

/-- A member comes back exactly when the bits that its mask takes in by mistake are 0. -/
theorem Laid.value_readCtx_iff (laid : Laid ctx zero table (fromByte mem hmcBits)) (ok : TableOk table)
    (apart : table.Pairwise HmcCe.Apart) (small : FieldsFit table ctx) (member : ce ∈ table) (hostBuf : Nat → UInt8) :
    ce.value (readCtx table hmcBits mem hostBuf) = ce.value ctx ↔
      ∀ k, ce.Spills k → bit (fromByte mem hmcBits) k = false := by
  have high : ∀ {k}, ce.width ≤ k → (ce.value ctx).testBit k = false := fun beyond =>
    Nat.testBit_lt_two_pow ((small ce member).trans_le (Nat.pow_le_pow_right (by decide) beyond))
  constructor
  · intro same k spills
    have past : ce.width ≤ k - ce.lsb := by
      have far := spills.2.2
      omega
    have place : ce.lsb + (k - ce.lsb) = k := Nat.add_sub_cancel' spills.1
    have read := @testBit_readCtx mem table ce hmcBits ok.fits apart member hostBuf (k - ce.lsb)
    rw [same, high past, place, if_pos (.inr spills)] at read
    exact read.symm
  · intro quiet
    refine Nat.eq_of_testBit_eq fun k => ?_
    rw [testBit_readCtx ok.fits apart member]
    by_cases low : k < ce.width
    · have bits := laid.covered ce member (ce.lsb + k) ⟨Nat.le_add_right _ _, by omega⟩
      rw [if_pos (.inl low), bits, Nat.add_sub_cancel_left]
    · rw [high (Nat.not_lt.mp low)]
      split_ifs with cause
      · exact quiet _ (cause.resolve_left low)
      · rfl

end Read

/-- Every member of the structure comes back when the object is read. -/
def ReadsBack {φ : Type} [DecidableEq φ] (struct : Struct φ) (table : List HmcCe) (hmcVa : Nat)
    (ctx mem : Nat → UInt8) : Prop :=
  ∀ hostBuf m, member struct (readCtx table hmcVa mem hostBuf) m = member struct ctx m

/-- The entry is for this member. -/
def HmcCe.Of {φ : Type} [DecidableEq φ] (ce : HmcCe) (struct : Struct φ) (m : φ) : Prop :=
  ce.offset = offsetOf struct m ∧ ce.sizeOf = fieldSizeof struct m

instance {φ : Type} [DecidableEq φ] (ce : HmcCe) (struct : Struct φ) (m : φ) : Decidable (ce.Of struct m) :=
  inferInstanceAs (Decidable (_ ∧ _))

theorem HmcCe.Of.value {φ : Type} [DecidableEq φ] {ce : HmcCe} {struct : Struct φ} {m : φ} (of : ce.Of struct m)
    (ctx : Nat → UInt8) : ce.value ctx = member struct ctx m := by
  rw [HmcCe.value, member, of.1, of.2]

/-- The entries of a table are for the members of a structure. -/
structure TableOf {φ : Type} [DecidableEq φ] (struct : Struct φ) (table : List HmcCe) : Prop where
  entry : ∀ m, ∃ ce ∈ table, ce.Of struct m
  named : ∀ ce ∈ table, ∃ m ∈ struct, ce.Of struct m.1
  apart : table.Pairwise HmcCe.Apart

theorem i40eHmcCeTx_of : TableOf i40eHmcCtxTx i40eHmcCeTx :=
  ⟨fun m => by cases m <;> decide, by decide, by decide⟩

theorem i40eHmcCeRx_of : TableOf i40eHmcCtxRx i40eHmcCeRx :=
  ⟨fun m => by cases m <;> decide, by decide, by decide⟩

/-- The context comes back exactly when the bits that the masks take in by mistake are 0. -/
theorem Laid.readsBack_iff {φ : Type} [DecidableEq φ] {struct : Struct φ} {table : List HmcCe} {hmcVa : Nat}
    {ctx mem : Nat → UInt8} {zero : Nat → Prop} (laid : Laid ctx zero table (fromByte mem hmcVa))
    (ok : TableOk table) (of : TableOf struct table) (small : FieldsFit table ctx) :
    ReadsBack struct table hmcVa ctx mem ↔
      ∀ k, (∃ ce ∈ table, ce.Spills k) → bit (fromByte mem hmcVa) k = false := by
  constructor
  · rintro back k ⟨ce, inside, spills⟩
    obtain ⟨m, -, here⟩ := of.named ce inside
    refine (laid.value_readCtx_iff ok of.apart small inside fun _ => 0).mp ?_ k spills
    rw [here.value, here.value]
    exact back _ m.1
  · intro quiet hostBuf m
    obtain ⟨ce, inside, here⟩ := of.entry m
    rw [← here.value, ← here.value]
    exact (laid.value_readCtx_iff ok of.apart small inside hostBuf).mpr fun k spills => quiet k ⟨ce, inside, spills⟩

/-- The mask of no TX field is too wide. -/
theorem i40eHmcCeTx_spills {ce : HmcCe} (inside : ce ∈ i40eHmcCeTx) (k : Nat) : ¬ ce.Spills k := by
  have tight : ∀ ce ∈ i40eHmcCeTx, 8 * (ce.sizeOf - 1) ≤ ce.width := by decide
  exact HmcCe.spills_never_iff.mpr (tight ce inside) k

/-- The bits that the masks of RX fields take in by mistake. -/
theorem i40eHmcCeRx_spills {k : Nat} : (∃ ce ∈ i40eHmcCeRx, ce.Spills k) ↔
    k ∈ [110, 111, 117, 118, 119, 190, 191, 192, 193, 194, 195, 196, 197, 198, 199, 206, 207] := by
  constructor
  · -- only `dbuff`, `hbuff`, `rxmax` and `lrxqthresh` have a byte beyond the width
    have loose : ∀ ce ∈ i40eHmcCeRx, 8 * (ce.sizeOf - 1) ≤ ce.width ∨
        ce ∈ [HmcCe.mk 18 2 7 102, HmcCe.mk 20 2 5 109, HmcCe.mk 32 4 14 174, HmcCe.mk 40 2 3 198] := by decide
    rintro ⟨ce, inside, spills⟩
    have wide := (loose ce inside).resolve_left fun tight => HmcCe.spills_never_iff.mpr tight k spills
    simp only [List.mem_cons, List.not_mem_nil, or_false] at wide ⊢
    unfold HmcCe.Spills at spills
    rcases wide with rfl | rfl | rfl | rfl <;> dsimp only at spills <;> omega
  · revert k
    decide

/-- The members of an RX context whose bits are taken in with another member are 0, or
their bits are that are taken in. -/
def RxPlain (ctx : Nat → UInt8) : Prop :=
  member i40eHmcCtxRx ctx .hbuff / 2 % 4 = 0 ∧ member i40eHmcCtxRx ctx .crcstrip = 0 ∧
    member i40eHmcCtxRx ctx .fcEn = 0 ∧ member i40eHmcCtxRx ctx .l2tsel = 0 ∧
    member i40eHmcCtxRx ctx .tphrdescEn = 0 ∧ member i40eHmcCtxRx ctx .tphwdescEn = 0 ∧
    member i40eHmcCtxRx ctx .tphdataEn = 0 ∧ member i40eHmcCtxRx ctx .tphheadEn = 0 ∧
    member i40eHmcCtxRx ctx .lrxqthresh % 4 = 0

instance (ctx : Nat → UInt8) : Decidable (RxPlain ctx) := inferInstanceAs (Decidable (_ ∧ _))

theorem testBit_false_iff {n i : Nat} : n.testBit i = false ↔ n / 2 ^ i % 2 = 0 := by
  rw [Nat.testBit_eq_decide_div_mod_eq, decide_eq_false_iff_not]
  omega

section Rx

variable {ctx m : Nat → UInt8} {zero : Nat → Prop} (laid : Laid ctx zero i40eHmcCeRx m)
include laid

/-- A bit of a member. -/
theorem Laid.rxBit (name : RxMember) (width lsb i : Nat)
    (inside : i40eHmcField i40eHmcCtxRx name width lsb ∈ i40eHmcCeRx) (below : i < width) :
    bit m (lsb + i) = false ↔ member i40eHmcCtxRx ctx name / 2 ^ i % 2 = 0 := by
  have bits := laid.covered _ inside (lsb + i) ⟨Nat.le_add_right _ _, Nat.add_lt_add_left below _⟩
  rw [bits, ← testBit_false_iff]
  show (member i40eHmcCtxRx ctx name).testBit (lsb + i - lsb) = false ↔ _
  rw [Nat.add_sub_cancel_left]

/-- A member of one bit. -/
theorem Laid.rxFlag (small : FieldsFit i40eHmcCeRx ctx) (name : RxMember) (lsb : Nat)
    (inside : i40eHmcField i40eHmcCtxRx name 1 lsb ∈ i40eHmcCeRx) :
    bit m lsb = false ↔ member i40eHmcCtxRx ctx name = 0 := by
  have bound : member i40eHmcCtxRx ctx name < 2 ^ 1 := small _ inside
  have bits := laid.rxBit name 1 lsb 0 inside Nat.one_pos
  rw [Nat.add_zero] at bits
  rw [bits]
  omega

theorem Laid.rxPlain_iff (small : FieldsFit i40eHmcCeRx ctx) :
    (∀ k, (∃ ce ∈ i40eHmcCeRx, ce.Spills k) → bit m k = false) ↔ RxPlain ctx := by
  have hbuff1 := laid.rxBit .hbuff 5 109 1 (by decide) (by decide)
  have hbuff2 := laid.rxBit .hbuff 5 109 2 (by decide) (by decide)
  have crcstrip := laid.rxFlag small .crcstrip 117 (by decide)
  have fcEn := laid.rxFlag small .fcEn 118 (by decide)
  have l2tsel := laid.rxFlag small .l2tsel 119 (by decide)
  have tphrdescEn := laid.rxFlag small .tphrdescEn 193 (by decide)
  have tphwdescEn := laid.rxFlag small .tphwdescEn 194 (by decide)
  have tphdataEn := laid.rxFlag small .tphdataEn 195 (by decide)
  have tphheadEn := laid.rxFlag small .tphheadEn 196 (by decide)
  have lrxqthresh0 := laid.rxBit .lrxqthresh 3 198 0 (by decide) (by decide)
  have lrxqthresh1 := laid.rxBit .lrxqthresh 3 198 1 (by decide) (by decide)
  -- the bits that belong to no member were cleared by the mask that takes them in
  have gap : ∀ k ∈ [190, 191, 192, 197, 206, 207], bit m k = false := by
    intro k listed
    refine laid.clear k (.inr ?_) ?_
    · revert k
      decide
    · revert k
      decide
  unfold RxPlain
  constructor
  · intro quiet
    have zeros : ∀ k ∈ [110, 111, 117, 118, 119, 193, 194, 195, 196, 198, 199], bit m k = false := by
      intro k listed
      refine quiet k (i40eHmcCeRx_spills.mpr ?_)
      revert k
      decide
    have low := hbuff1.mp (zeros 110 (by decide))
    have high := hbuff2.mp (zeros 111 (by decide))
    have low' := lrxqthresh0.mp (zeros 198 (by decide))
    have high' := lrxqthresh1.mp (zeros 199 (by decide))
    exact ⟨by omega, crcstrip.mp (zeros 117 (by decide)), fcEn.mp (zeros 118 (by decide)),
      l2tsel.mp (zeros 119 (by decide)), tphrdescEn.mp (zeros 193 (by decide)),
      tphwdescEn.mp (zeros 194 (by decide)), tphdataEn.mp (zeros 195 (by decide)),
      tphheadEn.mp (zeros 196 (by decide)), by omega⟩
  · rintro ⟨hbuff, crc, fc, l2, rdesc, wdesc, data, head, lrx⟩ k spills
    have listed := i40eHmcCeRx_spills.mp spills
    simp only [List.mem_cons, List.not_mem_nil, or_false] at listed
    rcases listed with rfl | rfl | rfl | rfl | rfl | rfl | rfl | rfl | rfl | rfl | rfl | rfl | rfl | rfl |
      rfl | rfl | rfl
    · exact hbuff1.mpr (by omega)
    · exact hbuff2.mpr (by omega)
    · exact crcstrip.mpr crc
    · exact fcEn.mpr fc
    · exact l2tsel.mpr l2
    · exact gap 190 (by decide)
    · exact gap 191 (by decide)
    · exact gap 192 (by decide)
    · exact tphrdescEn.mpr rdesc
    · exact tphwdescEn.mpr wdesc
    · exact tphdataEn.mpr data
    · exact tphheadEn.mpr head
    · exact gap 197 (by decide)
    · exact lrxqthresh0.mpr (by omega)
    · exact lrxqthresh1.mpr (by omega)
    · exact gap 206 (by decide)
    · exact gap 207 (by decide)

end Rx

/-- **Reading undoes writing for a TX context, and for an RX context exactly when it is plain.**
The masks of four RX members are too wide: `dbuff` comes back with bits of `hbuff`, `hbuff`
with the three members behind `dsize`, and `rxmax` with the four `tph` members and with
`lrxqthresh`. -/
theorem hmc_read_undoes_write_iff (hmc : I40eHmc) (ctx : Nat → UInt8) (qpIdx hmcVa : Nat) (mem mem' : Nat → UInt8) :
    (FieldsFit i40eHmcCeTx ctx → i40eHmcVa hmc hmc.objTx qpIdx = some hmcVa →
      i40eHmcSetCtxTx hmc ctx qpIdx mem = some mem' → ReadsBack i40eHmcCtxTx i40eHmcCeTx hmcVa ctx mem') ∧
    (FieldsFit i40eHmcCeRx ctx → i40eHmcVa hmc hmc.objRx qpIdx = some hmcVa →
      i40eHmcSetCtxRx hmc ctx qpIdx mem = some mem' →
      (ReadsBack i40eHmcCtxRx i40eHmcCeRx hmcVa ctx mem' ↔ RxPlain ctx)) := by
  constructor
  · intro small found set
    obtain ⟨hmcVa', found', laid⟩ := setCtx_laid i40eHmcCeTx_ok small set
    obtain rfl : hmcVa' = hmcVa := Option.some.inj (found'.symm.trans found)
    refine (laid.readsBack_iff i40eHmcCeTx_ok i40eHmcCeTx_of small).mpr ?_
    rintro k ⟨ce, inside, spills⟩
    exact absurd spills (i40eHmcCeTx_spills inside k)
  · intro small found set
    obtain ⟨hmcVa', found', laid⟩ := setCtx_laid i40eHmcCeRx_ok small set
    obtain rfl : hmcVa' = hmcVa := Option.some.inj (found'.symm.trans found)
    rw [laid.readsBack_iff i40eHmcCeRx_ok i40eHmcCeRx_of small]
    exact laid.rxPlain_iff small

theorem hmc_read_undoes_write_iff_sample :
    (∃ mem', i40eHmcSetCtxTx sampleHmc (sampleCtx 0 5) 0 (fun _ => 0xff) = some mem' ∧
      ReadsBack i40eHmcCtxTx i40eHmcCeTx 8192 (sampleCtx 0 5) mem') ∧
    ∃ mem', i40eHmcSetCtxRx sampleHmc (sampleCtx 0 5) 0 (fun _ => 0xff) = some mem' ∧
      ReadsBack i40eHmcCtxRx i40eHmcCeRx 8704 (sampleCtx 0 5) mem' := by
  constructor
  · obtain ⟨mem', set⟩ : ∃ mem', i40eHmcSetCtxTx sampleHmc (sampleCtx 0 5) 0 (fun _ => 0xff) = some mem' := ⟨_, rfl⟩
    exact ⟨mem', set, (hmc_read_undoes_write_iff sampleHmc _ 0 8192 _ mem').1 (by decide) rfl set⟩
  · obtain ⟨mem', set⟩ : ∃ mem', i40eHmcSetCtxRx sampleHmc (sampleCtx 0 5) 0 (fun _ => 0xff) = some mem' := ⟨_, rfl⟩
    exact ⟨mem', set,
      ((hmc_read_undoes_write_iff sampleHmc _ 0 8704 _ mem').2 (by decide) rfl set).mpr (by decide)⟩

/-- `hbuff` is 2 and the other members are 0; `dbuff` comes back as 256. -/
theorem hmc_read_keeps_neighbours :
    FieldsFit i40eHmcCeRx (sampleCtx 20 2) ∧ member i40eHmcCtxRx (sampleCtx 20 2) .hbuff = 2 ∧
      member i40eHmcCtxRx (sampleCtx 20 2) .dbuff = 0 ∧ i40eHmcVa sampleHmc sampleHmc.objRx 0 = some 8704 ∧
      (i40eHmcSetCtxRx sampleHmc (sampleCtx 20 2) 0 (fun _ => 0xff)).map (fun mem =>
        member i40eHmcCtxRx (readCtx i40eHmcCeRx 8704 mem fun _ => 0) .dbuff) = some 256 := by
  decide +kernel

end Ufp.Dev.Hmc
