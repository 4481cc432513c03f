/-
# Ufp.Dev.I40e — the descriptor functions of `dev/i40e/i40e_io.c`

A descriptor is two 64-bit words. The device reports a received packet in the
`DD` bit of the second word of an RX descriptor, and a sent one by writing
`DESC_DONE` over the descriptor type of a TX descriptor. Filling a descriptor
clears both marks (`rxDone_fill`, `txDone_fill`), whatever the descriptor held
before.
-/
import Ufp.Lib.Io

namespace Ufp.Dev.I40e

open Ufp.Lib.Io

set_option autoImplicit false

/-- The little-endian 64-bit field a value is stored in. -/
def le64 (value : Nat) : Nat := value % 2 ^ 64

/-- `I40E_RX_DESC_STATUS_DD_SHIFT`. -/
def rxDescStatusDdShift : Nat := 0

/-- `I40E_RX_DESC_STATUS_EOF_SHIFT`. -/
def rxDescStatusEofShift : Nat := 1

/-- `I40E_RXD_QW1_ERROR_MASK`. -/
def rxdQw1ErrorMask : Nat := 0xFF <<< 19

/-- `I40E_RXD_QW1_LENGTH_PBUF_SHIFT`. -/
def rxdQw1LengthPbufShift : Nat := 38

/-- `I40E_RXD_QW1_LENGTH_PBUF_MASK`. -/
def rxdQw1LengthPbufMask : Nat := 0x3FFF <<< rxdQw1LengthPbufShift

/-- `I40E_TX_DESC_DTYPE_DATA`. -/
def txDescDtypeData : Nat := 0x0

/-- `I40E_TX_DESC_DTYPE_DESC_DONE`. -/
def txDescDtypeDescDone : Nat := 0xF

/-- `I40E_TXD_QW1_DTYPE_MASK`. -/
def txdQw1DtypeMask : Nat := 0xF

def txDescCmdEop : Nat := 0x0001
def txDescCmdRs : Nat := 0x0002
def txDescCmdIcrc : Nat := 0x0004

/-- `i40e_rx_desc_fetch`: the packet's size and flags, unless `DD` is clear. -/
def i40eRxDescFetch (desc : Desc) : Option (Nat × Nat) :=
  let qword1 := desc.qword1
  if qword1 &&& (1 <<< rxDescStatusDdShift) = 0 then none
  else
    let slotSize := (qword1 &&& rxdQw1LengthPbufMask) >>> rxdQw1LengthPbufShift
    let flag := if qword1 &&& (1 <<< rxDescStatusEofShift) ≠ 0 then packetEof else 0
    let flag := if qword1 &&& rxdQw1ErrorMask ≠ 0 then flag ||| packetError else flag
    some (slotSize, flag)

/-- `i40e_tx_desc_fetch`. -/
def i40eTxDescFetch (desc : Desc) : Bool :=
  desc.qword1 &&& txdQw1DtypeMask == txDescDtypeDescDone

/-- `i40e_rx_desc_fill`. -/
def i40eRxDescFill (_ : Desc) (addrDma : Nat) : Desc := ⟨le64 addrDma, 0⟩

/-- `i40e_tx_desc_fill`; `tx_offset` and `tx_tag` are 0. -/
def i40eTxDescFill (_ : Desc) (addrDma : Nat) (packet : Packet) : Desc :=
  let txCmd := txDescCmdIcrc ||| txDescCmdRs
  let txCmd := if packet.flag &&& packetEof ≠ 0 then txCmd ||| txDescCmdEop else txCmd
  ⟨le64 addrDma, le64 (txDescDtypeData ||| (txCmd <<< 4) ||| (0 <<< 16) |||
    (packet.slotSize <<< 34) ||| (0 <<< 48))⟩

/-- The descriptor functions `i40e_ops` installs. -/
def i40eOps : Ops where
  fillRxDesc := i40eRxDescFill
  fetchRxDesc := i40eRxDescFetch
  fillTxDesc := i40eTxDescFill
  fetchTxDesc := i40eTxDescFetch

/-! ## What the marks say -/

/-- The device has marked an RX descriptor. -/
def rxDone (desc : Desc) : Bool := (i40eRxDescFetch desc).isSome

/-- The device has marked a TX descriptor. -/
def txDone (desc : Desc) : Bool := i40eTxDescFetch desc

/-- `DD` is the only bit `i40e_rx_desc_fetch` decides on. -/
theorem rxDone_iff (desc : Desc) : rxDone desc = true ↔ desc.qword1 % 2 = 1 := by
  simp only [rxDone, i40eRxDescFetch, rxDescStatusDdShift, Nat.shiftLeft_zero, Nat.and_one_is_mod]
  split
  · rename_i clear
    simp [clear]
  · rename_i set
    simp only [Option.isSome_some, true_iff]
    omega

/-- A TX descriptor is done when its type field is all ones. -/
theorem txDone_iff (desc : Desc) : txDone desc = true ↔ desc.qword1 % 16 = 15 := by
  have mask : desc.qword1 &&& 0xF = desc.qword1 % 16 := Nat.and_two_pow_sub_one_eq_mod _ 4
  simp [txDone, i40eTxDescFetch, txdQw1DtypeMask, txDescDtypeDescDone, mask]

theorem rxDone_fill (desc : Desc) (addrDma : Nat) : rxDone (i40eRxDescFill desc addrDma) = false := by
  simp [rxDone, i40eRxDescFetch, i40eRxDescFill]

/-- A filled TX descriptor has type `DATA`: command and size lie above the type. -/
theorem txDone_fill (desc : Desc) (addrDma : Nat) (packet : Packet) :
    txDone (i40eTxDescFill desc addrDma packet) = false := by
  have low : ∀ cmd size : Nat,
      (le64 (txDescDtypeData ||| (cmd <<< 4) ||| (0 <<< 16) ||| (size <<< 34) ||| (0 <<< 48))) &&&
        txdQw1DtypeMask = 0 := by
    intro cmd size
    apply Nat.eq_of_testBit_eq
    intro i
    by_cases small : i < 4
    · have cmdBit : ¬ 4 ≤ i := by omega
      have sizeBit : ¬ 34 ≤ i := by omega
      simp only [le64, txDescDtypeData, Nat.testBit_and, Nat.testBit_mod_two_pow, Nat.testBit_or,
        Nat.testBit_shiftLeft, Nat.zero_testBit]
      simp [cmdBit, sizeBit]
    · have masked : Nat.testBit 15 i = false := by
        apply Nat.testBit_lt_two_pow
        calc 15 < 2 ^ 4 := by decide
          _ ≤ 2 ^ i := Nat.pow_le_pow_right (by decide) (by omega)
      simp [txdQw1DtypeMask, masked]
  simp only [txDone, i40eTxDescFetch, i40eTxDescFill, low, txDescDtypeDescDone]
  rfl

end Ufp.Dev.I40e
