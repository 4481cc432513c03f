/-
# Ufp.Dev.AdminQueue — the admin send queue of the i40e driver

`dev/i40e/i40e_aq.c` and the part of `i40e_aqc.c` that answers are served by. A
command is a descriptor of a ring and, with `FLAG_BUF`, a buffer beside it. The
driver fills the descriptor at `next_to_use` and moves the tail register; the
firmware writes the answer over the descriptor and moves the head register; the
driver then walks from `next_to_clean` to the head. A descriptor carries the
address of its session as a cookie, and the answer goes to the session in the list
of live sessions that has this address.

The firmware keeps the opcode and the cookie of a descriptor; everything else it
writes back is arbitrary.
-/
import Ufp.Theory.Ring

namespace Ufp.Dev.AdminQueue

set_option autoImplicit false

/-! ## Bytes -/

/-- A `uint16_t` as the host reads it. -/
def readU16 (bytes : List UInt8) (i : Nat) : Nat :=
  (bytes.getD i 0).toNat + (bytes.getD (i + 1) 0).toNat * 2 ^ 8

def readU32 (bytes : List UInt8) (i : Nat) : Nat := readU16 bytes i + readU16 bytes (i + 2) * 2 ^ 16

/-- The bytes of a `uint32_t`. -/
def bytesU32 (n : Nat) : List UInt8 :=
  [UInt8.ofNat n, UInt8.ofNat (n / 2 ^ 8), UInt8.ofNat (n / 2 ^ 16), UInt8.ofNat (n / 2 ^ 24)]

/-- `memcpy` to the start of `dst`. -/
def memcpy (dst src : List UInt8) : List UInt8 := src ++ dst.drop src.length

def upper32 (n : Nat) : Nat := n / 2 ^ 32 % 2 ^ 32

def lower32 (n : Nat) : Nat := n % 2 ^ 32

/-! ## Descriptors, sessions and the device -/

/-- `enum i40e_admin_queue_opc`. -/
inductive Opcode where
  | firmwareVersion
  | driverVersion
  | queueShutdown
  | macaddrRead
  | clearPxemode
  | getSwconf
  | setSwconf
  | rxctlRead
  | rxctlWrite
  | updateVsi
  | getVsi
  | promiscMode
  | setPhyintmask
  | stopLldp
  | setRsskey
  | setRsslut
  deriving DecidableEq

/-- `struct i40e_aq_desc`; `params` are its sixteen bytes. -/
structure Desc where
  flags : Nat
  opcode : Opcode
  datalen : Nat
  retval : Nat
  cookieHigh : Nat
  cookieLow : Nat
  params : List UInt8

def flagLb : Nat := 0x200

def flagRd : Nat := 0x400

def flagBuf : Nat := 0x1000

/-- `struct i40e_aq_ring`, with the registers `head` and `tail` name; `bufs` and
`dma` are what a buffer holds and its bus address. -/
structure AqRing where
  numDesc : Nat
  desc : Nat → Desc
  bufs : Nat → List UInt8
  dma : Nat → Nat
  nextToUse : Nat
  nextToClean : Nat
  head : Nat
  tail : Nat

/-- `struct i40e_aq_session`; `data` is the union of `seid_offset` and `read_val`. -/
structure Session where
  retval : Int
  data : Nat
  deriving DecidableEq

/-- `session->data.seid_offset = v`. -/
def Session.setSeidOffset (session : Session) (v : Nat) : Session :=
  { session with data := session.data / 2 ^ 16 * 2 ^ 16 + v }

/-- `struct i40e_version`. -/
structure Version where
  fwMajor : Nat
  fwMinor : Nat
  fwBuild : Nat
  apiMajor : Nat
  apiMinor : Nat

/-- `struct i40e_elem`. -/
structure Elem where
  type : Nat
  seid : Nat
  seidUplink : Nat
  seidDownlink : Nat
  elementInfo : Nat

/-- What an answer reads and writes of a `struct i40e_iface`. -/
structure Vsi where
  seid : Nat
  qsHandles : List Nat

/-- What an answer writes of the device; `rctl0` is `GLLAN_RCTL_0`. -/
structure I40eDev where
  pfLanMac : List UInt8
  version : Version
  elem : List Elem
  iface : List Vsi
  rctl0 : Nat

/-- `struct i40e_aq`, its send ring only, with the device around it. A session is
listed with its address. -/
structure Aq where
  txRing : AqRing
  session : List (Nat × Session)
  dev : I40eDev

/-! ## Answers -/

section Answers

variable (params buf : List UInt8) (session : Option Session) (dev : I40eDev)

def i40eAqcRespFirmwareVersion : I40eDev :=
  { dev with version :=
    { fwMajor := readU16 params 8, fwMinor := readU16 params 10, fwBuild := readU32 params 4,
      apiMajor := readU16 params 12, apiMinor := readU16 params 14 } }

/-- `I40E_AQC_PORT_ADDR_VALID`. -/
def portAddrValid : Nat := 0x40

def i40eAqcRespMacaddrRead : Option Session × I40eDev :=
  if readU16 params 0 &&& portAddrValid = 0 then (session.map ({ · with retval := -1 }), dev)
  else (session, { dev with pfLanMac := buf.take 6 })

def i40eAqcRespClearPxemode : I40eDev := { dev with rctl0 := 0x1 }

/-- An element of the answer to `get_swconf`, behind the header. -/
def swconfElem (i : Nat) : Elem :=
  { type := (buf.getD (16 + 16 * i) 0).toNat
    seid := readU16 buf (16 + 16 * i + 2)
    seidUplink := readU16 buf (16 + 16 * i + 4)
    seidDownlink := readU16 buf (16 + 16 * i + 6)
    elementInfo := readU16 buf (16 + 16 * i + 14) }

/-- `room` elements can be allocated. -/
def i40eAqcRespGetSwconf (room : Nat) : Option Session × I40eDev :=
  let numReported := readU16 buf 0
  let elems := (List.range (min numReported room)).map (swconfElem buf)
  (if room < numReported then session.map ({ · with retval := -1 })
    else session.map (·.setSeidOffset (readU16 params 0)),
    { dev with elem := dev.elem ++ elems })

def i40eAqcRespRxctlRead : Option Session := session.map ({ · with data := readU32 params 12 })

/-- The loop over the interfaces: the first one with this `seid` takes the handles. -/
def setHandles (seid : Nat) (handles : List Nat) : List Vsi → Option (List Vsi)
  | [] => none
  | iface :: ifaces =>
      if iface.seid = seid then some ({ iface with qsHandles := handles } :: ifaces)
      else (setHandles seid handles ifaces).map (iface :: ·)

/-- `qs_handle` of the buffer stands behind its first 96 bytes. -/
def i40eAqcRespGetVsi : Option Session × I40eDev :=
  match setHandles (readU16 params 0) ((List.range 8).map fun i => readU16 buf (96 + 2 * i)) dev.iface with
  | none => (session.map ({ · with retval := -1 }), dev)
  | some iface => (session, { dev with iface })

end Answers

/-- `i40e_aq_asq_process`; `I40E_AQ_RC_OK` is 0. -/
def i40eAqAsqProcess (room : Nat) (desc : Desc) (buf : List UInt8) (session : Option Session) (dev : I40eDev) :
    Option Session × I40eDev :=
  let session := session.map ({ · with retval := desc.retval })
  if desc.retval ≠ 0 then (session, dev)
  else
    match desc.opcode with
    | .firmwareVersion => (session, i40eAqcRespFirmwareVersion desc.params dev)
    | .macaddrRead => i40eAqcRespMacaddrRead desc.params buf session dev
    | .clearPxemode => (session, i40eAqcRespClearPxemode dev)
    | .getSwconf => i40eAqcRespGetSwconf desc.params buf session dev room
    | .rxctlRead => (i40eAqcRespRxctlRead desc.params session, dev)
    | .getVsi => i40eAqcRespGetVsi desc.params buf session dev
    | _ => (session, dev)

/-! ## Sessions -/

/-- `i40e_aq_session_create`, with the address `malloc` returns and what is there. -/
def i40eAqSessionCreate (addr data : Nat) (aq : Aq) : Aq :=
  { aq with session := aq.session ++ [(addr, { retval := 0xffff, data })] }

def i40eAqSessionDelete (addr : Nat) (aq : Aq) : Aq :=
  { aq with session := aq.session.eraseP fun entry => entry.1 = addr }

/-- The session at an address, while it is in the list. -/
def Aq.sessionAt (aq : Aq) (addr : Nat) : Option Session :=
  (aq.session.find? fun entry => entry.1 = addr).map Prod.snd

/-- A write through a pointer to a session. -/
def Aq.setSession (aq : Aq) (addr : Nat) (session : Session) : Aq :=
  { aq with session := aq.session.map fun entry => if entry.1 = addr then (addr, session) else entry }

/-! ## The ring -/

/-- `i40e_aq_desc_unused`. -/
def i40eAqDescUnused (ring : AqRing) : Nat :=
  if ring.nextToClean > ring.nextToUse then ring.nextToClean - ring.nextToUse - 1
  else ring.numDesc - ring.nextToUse + ring.nextToClean - 1

/-- The descriptor `i40e_aq_asq_assign` fills, from what was in it. -/
def fillDesc (opcode : Opcode) (flags : Nat) (cmd : List UInt8) (dataSize cookie dma : Nat) (old : Desc) : Desc :=
  let params := memcpy old.params cmd
  let buffered := flags &&& flagBuf ≠ 0
  { flags :=
      if buffered ∧ (dataSize = 0 ∨ 512 < dataSize) then flags ||| flagLb else flags
    opcode
    datalen := if buffered then (if dataSize = 0 then 4096 else dataSize) else old.datalen
    retval := old.retval
    cookieHigh := upper32 cookie
    cookieLow := lower32 cookie
    params :=
      if buffered then params.take 8 ++ bytesU32 (upper32 dma) ++ bytesU32 (lower32 dma) else params }

/-- `i40e_aq_asq_assign`; without room it does nothing. -/
def i40eAqAsqAssign (opcode : Opcode) (flags : Nat) (cmd : List UInt8) (data : Option (List UInt8)) (dataSize : Nat)
    (cookie : Nat) (ring : AqRing) : AqRing :=
  if i40eAqDescUnused ring = 0 then ring
  else
    let i := ring.nextToUse
    let bufs :=
      match data with
      | some data =>
          if flags &&& flagBuf ≠ 0 ∧ flags &&& flagRd ≠ 0 ∧ dataSize ≠ 0 then
            Function.update ring.bufs i (memcpy (ring.bufs i) (data.take dataSize))
          else ring.bufs
      | none => ring.bufs
    let nextToUse := if i + 1 < ring.numDesc then i + 1 else 0
    { ring with
      desc := Function.update ring.desc i (fillDesc opcode flags cmd dataSize cookie (ring.dma i) (ring.desc i))
      bufs, nextToUse, tail := nextToUse }

/-- What the firmware writes over a descriptor and its buffer. -/
structure Completion where
  flags : Nat
  datalen : Nat
  retval : Nat
  params : List UInt8
  buf : List UInt8

/-- The firmware answers the descriptor at the head. -/
def AqRing.complete (ring : AqRing) (c : Completion) : AqRing :=
  { ring with
    desc := Function.update ring.desc ring.head
      { ring.desc ring.head with flags := c.flags, datalen := c.datalen, retval := c.retval, params := c.params }
    bufs := Function.update ring.bufs ring.head c.buf
    head := Theory.Ring.next ring.numDesc ring.head }

/-- The cookie of a descriptor as `i40e_aq_asq_clean` puts it together. -/
def Desc.cookie (desc : Desc) : Nat := desc.cookieLow ||| (desc.cookieHigh <<< 32)

/-- One iteration of the loop of `i40e_aq_asq_clean`. -/
def asqCleanOne (room : Nat) (aq : Aq) : Aq :=
  let i := aq.txRing.nextToClean
  let desc := aq.txRing.desc i
  let session := if desc.cookie ≠ 0 then aq.sessionAt desc.cookie else none
  let (session, dev) := i40eAqAsqProcess room desc (aq.txRing.bufs i) session aq.dev
  let aq :=
    match session with
    | some session => aq.setSession desc.cookie session
    | none => aq
  { aq with
    txRing := { aq.txRing with nextToClean := if i + 1 < aq.txRing.numDesc then i + 1 else 0 }
    dev }

/-- `i40e_aq_asq_clean`, the firmware writing nothing meanwhile. -/
def asqCleanLoop (room : Nat) : Nat → Aq → Aq
  | 0, aq => aq
  | todo + 1, aq =>
      if aq.txRing.nextToClean = aq.txRing.head then aq else asqCleanLoop room todo (asqCleanOne room aq)

def i40eAqAsqClean (room : Nat) (aq : Aq) : Aq := asqCleanLoop room aq.txRing.numDesc aq

/-- The firmware answers as many descriptors as it was given, at most. -/
def answer (aq : Aq) : List Completion → Aq
  | [] => aq
  | c :: cs =>
      if aq.txRing.head = aq.txRing.tail then aq else answer { aq with txRing := aq.txRing.complete c } cs

/-- `I40E_ASQ_CMD_TIMEOUT`. -/
def asqCmdTimeout : Nat := 250

/-- `i40e_aqc_wait_cmd`, with `timeout` rounds to go; `answers` is what the firmware
answers while each round sleeps. -/
def waitCmd (answers : Nat → List Completion) (room addr : Nat) : Nat → Aq → Bool × Aq
  | 0, aq => (false, aq)
  | timeout + 1, aq =>
      let aq := i40eAqAsqClean room (answer aq (answers (timeout + 1)))
      if (aq.sessionAt addr).map Session.retval ≠ some 0xffff then (true, aq)
      else waitCmd answers room addr timeout aq

def i40eAqcWaitCmd (answers : Nat → List Completion) (room addr : Nat) (aq : Aq) : Bool × Aq :=
  waitCmd answers room addr asqCmdTimeout aq

/-! ## Reading a control register -/

def i40eAqcReqRxctlRead (regAddr addr : Nat) (aq : Aq) : Aq :=
  let cmd := bytesU32 0 ++ bytesU32 regAddr ++ bytesU32 0 ++ bytesU32 0
  { aq with txRing := i40eAqAsqAssign .rxctlRead 0 cmd none 0 addr aq.txRing }

/-- `i40e_rxctl_read`: `malloc` gives the address of the session and what is there. -/
def i40eRxctlRead (malloc : Option (Nat × Nat)) (answers : Nat → List Completion) (room regAddr : Nat) (aq : Aq) :
    Option Nat × Aq :=
  match malloc with
  | none => (none, aq)
  | some (addr, data) =>
      let aq := i40eAqcReqRxctlRead regAddr addr (i40eAqSessionCreate addr data aq)
      match i40eAqcWaitCmd answers room addr aq with
      | (false, aq) => (none, i40eAqSessionDelete addr aq)
      | (true, aq) =>
          match aq.sessionAt addr with
          | some session =>
              if session.retval ≠ 0 then (none, i40eAqSessionDelete addr aq)
              else (some session.data, i40eAqSessionDelete addr aq)
          | none => (none, i40eAqSessionDelete addr aq)

end Ufp.Dev.AdminQueue
