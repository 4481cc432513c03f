/-
# Ufp.Daemon.NetlinkWire — the messages the kernel sends

`Msg.encode` lays a message out in bytes: the header, the fixed body of 12 bytes,
and the attributes, each padded to 4 bytes. Reading undoes it:
`UfpdThread.listen_eq` says that `netlink_process`, read after read, handles the
messages the buffers were made of one after the other, and `rtaLoop_encode` that an
attribute loop sees the attributes of a message in order.

`Carries` states what a message says through an attribute: at most one attribute
of the type is present, and it has the payload.
-/
import Ufp.Daemon.Netlink
import Mathlib.Data.List.Forall2

namespace Ufp.Daemon

set_option autoImplicit false

/-! ## Numbers -/

def le16 (n : Nat) : List UInt8 := [UInt8.ofNat n, UInt8.ofNat (n / 2 ^ 8)]

def le32 (n : Nat) : List UInt8 := le16 n ++ le16 (n / 2 ^ 16)

/-- A signed number in 32 bits. -/
def le32s (n : Int) : List UInt8 := le32 (n % 2 ^ 32).toNat

theorem u8At_append_right (front rest : List UInt8) (i : Nat) :
    u8At (front ++ rest) (front.length + i) = u8At rest i := by
  unfold u8At
  rw [List.getD_append_right _ _ _ _ (Nat.le_add_right _ _), Nat.add_sub_cancel_left]

theorem u16At_append_right (front rest : List UInt8) (i : Nat) :
    u16At (front ++ rest) (front.length + i) = u16At rest i := by
  unfold u16At
  rw [Nat.add_assoc, u8At_append_right, u8At_append_right]

theorem s32At_append_right (front rest : List UInt8) (i : Nat) :
    s32At (front ++ rest) (front.length + i) = s32At rest i := by
  unfold s32At u32At
  rw [Nat.add_assoc, u16At_append_right, u16At_append_right]

theorem u16At_le16 {n : Nat} (small : n < 2 ^ 16) (rest : List UInt8) :
    u16At (le16 n ++ rest) 0 = n := by
  unfold u16At u8At le16
  simp only [List.cons_append, List.nil_append, List.getD_cons_zero, List.getD_cons_succ,
    UInt8.toNat_ofNat']
  omega

theorem u32At_le32 {n : Nat} (small : n < 2 ^ 32) (rest : List UInt8) :
    u32At (le32 n ++ rest) 0 = n := by
  have low : u16At (le32 n ++ rest) 0 = n % 2 ^ 16 := by
    unfold u16At u8At le32 le16
    simp only [List.cons_append, List.nil_append, List.getD_cons_zero, List.getD_cons_succ,
      UInt8.toNat_ofNat']
    omega
  have high : u16At (le32 n ++ rest) 2 = n / 2 ^ 16 := by
    rw [le32, List.append_assoc]
    exact (u16At_append_right (le16 n) _ 0).trans (u16At_le16 (by omega) rest)
  rw [u32At, low, high]
  omega

theorem s32At_le32s {n : Int} (low : -2 ^ 31 ≤ n) (high : n < 2 ^ 31) (rest : List UInt8) :
    s32At (le32s n ++ rest) 0 = n := by
  unfold s32At le32s
  rw [u32At_le32 (by omega)]
  split_ifs <;> omega

/-! ## Messages -/

/-- `struct rtattr` and what follows it. -/
structure Attr where
  type : Nat
  payload : List UInt8
  deriving DecidableEq

def Attr.encode (a : Attr) : List UInt8 :=
  le16 (rtattrSize + a.payload.length) ++ le16 a.type ++ a.payload ++
    List.replicate (nlAlign a.payload.length - a.payload.length) 0

/-- The numbers fit their fields. -/
def Attr.Ok (a : Attr) : Prop := a.type < 2 ^ 16 ∧ rtattrSize + a.payload.length < 2 ^ 16

/-- A message: `struct nlmsghdr`, the body and the attributes. -/
structure Msg where
  type : Nat
  flags : Nat
  seq : Nat
  pid : Nat
  body : List UInt8
  attrs : List Attr

namespace Msg

variable (m : Msg)

def payload : List UInt8 := m.attrs.flatMap Attr.encode

/-- `nlmsg_len`. -/
def len : Nat := nlmsgHdrlen + rtmsgSize + m.payload.length

def encode : List UInt8 :=
  le32 m.len ++ le16 m.type ++ le16 m.flags ++ le32 m.seq ++ le32 m.pid ++ m.body ++ m.payload

structure Ok : Prop where
  type : m.type < 2 ^ 16
  body : m.body.length = rtmsgSize
  len : m.len < 2 ^ 31
  attrs : ∀ a ∈ m.attrs, a.Ok

end Msg

theorem Attr.encode_length (a : Attr) : a.encode.length = nlAlign (rtattrSize + a.payload.length) := by
  simp only [Attr.encode, le16, nlAlign, rtattrSize, List.length_append, List.length_cons,
    List.length_nil, List.length_replicate]
  omega

theorem Msg.payload_length (m : Msg) : m.payload.length % 4 = 0 := by
  unfold Msg.payload
  induction m.attrs with
  | nil => rfl
  | cons a attrs ih =>
      rw [List.flatMap_cons, List.length_append, Attr.encode_length]
      unfold nlAlign
      omega

theorem Msg.encode_length {m : Msg} (ok : m.Ok) : m.encode.length = m.len := by
  have body := ok.body
  simp only [Msg.encode, Msg.len, le32, le16, List.length_append, List.length_cons, List.length_nil,
    nlmsgHdrlen, rtmsgSize] at body ⊢
  omega

/-! ## Reading a message -/

section Read

variable {m : Msg} (ok : m.Ok) (rest : List UInt8)

include ok

theorem nlmsgLen_encode : nlmsgLen (m.encode ++ rest) = m.len := by
  have small : m.len < 2 ^ 32 := by have := ok.len; omega
  simp only [nlmsgLen, Msg.encode, List.append_assoc]
  exact u32At_le32 small _

theorem nlmsgType_encode : nlmsgType (m.encode ++ rest) = m.type := by
  simp only [nlmsgType, Msg.encode, List.append_assoc]
  exact (u16At_append_right (le32 m.len) _ 0).trans (u16At_le16 ok.type _)

omit ok in
theorem encode_drop_header :
    (m.encode ++ rest).drop nlmsgHdrlen = m.body ++ (m.payload ++ rest) := by
  simp only [Msg.encode, List.append_assoc]
  rfl

theorem encode_drop_body :
    ((m.encode ++ rest).drop nlmsgHdrlen).drop rtmsgSize = m.payload ++ rest := by
  rw [encode_drop_header, List.drop_left' ok.body]

theorem rtmPayload_encode : rtmPayload (m.encode ++ rest) = m.payload.length := by
  rw [rtmPayload, nlmsgLen_encode ok, Msg.len]
  omega

theorem nlmsgOk_encode : nlmsgOk (m.encode ++ rest) (m.encode ++ rest).length = true := by
  rw [nlmsgOk_iff, nlmsgLen_encode ok, List.length_append, Msg.encode_length ok]
  unfold Msg.len nlmsgHdrlen
  omega

/-- The next message of the buffer starts right behind. -/
theorem nlAlign_encode : nlAlign (nlmsgLen (m.encode ++ rest)) = m.encode.length := by
  have := m.payload_length
  rw [nlmsgLen_encode ok, Msg.encode_length ok]
  unfold nlAlign Msg.len nlmsgHdrlen rtmsgSize
  omega

/-- `netlink_process` handles the first message of a buffer and goes on behind it. -/
theorem netlinkProcess_cons (thread : UfpdThread) :
    netlinkProcess thread (m.encode ++ rest) (m.encode ++ rest).length =
      netlinkProcess (netlinkMessage thread (m.encode ++ rest)) rest rest.length := by
  rw [netlinkProcess, dif_pos (nlmsgOk_encode ok rest), nlAlign_encode ok, List.length_append, Nat.add_sub_cancel_left,
    List.drop_left]

end Read

theorem netlinkProcess_nil (thread : UfpdThread) : netlinkProcess thread [] 0 = thread := by
  rw [netlinkProcess, dif_neg]
  rw [nlmsgOk_iff]
  omega

/-! ## Reads -/

/-- A read buffer. -/
def buffer (msgs : List Msg) : List UInt8 := msgs.flatMap Msg.encode

/-- The thread after a sequence of reads. -/
def UfpdThread.listen (thread : UfpdThread) (reads : List (List Msg)) : UfpdThread :=
  reads.foldl (fun thread msgs => netlinkProcess thread (buffer msgs) (buffer msgs).length) thread

/-- The reads handle their messages one after the other. -/
theorem UfpdThread.listen_eq {α : Type} {formed : Msg → α → Prop}
    {handle : UfpdThread → α → UfpdThread} (good : ∀ m a, formed m a → m.Ok)
    (handles : ∀ m a, formed m a → ∀ rest thread,
      netlinkMessage thread (m.encode ++ rest) = handle thread a)
    {reads : List (List Msg)} {heard : List α} (all : List.Forall₂ formed reads.flatten heard)
    (thread : UfpdThread) : thread.listen reads = heard.foldl handle thread := by
  -- one read
  have once : ∀ {msgs : List Msg} {heard : List α}, List.Forall₂ formed msgs heard → ∀ thread,
      netlinkProcess thread (buffer msgs) (buffer msgs).length = heard.foldl handle thread := by
    intro msgs heard all
    induction all with
    | nil => exact netlinkProcess_nil
    | cons first _ ih =>
        intro thread
        rw [buffer, List.flatMap_cons, netlinkProcess_cons (good _ _ first), handles _ _ first]
        exact ih _
  induction reads generalizing thread heard with
  | nil =>
      cases all
      rfl
  | cons msgs reads ih =>
      rw [List.flatten_cons] at all
      have here := (List.forall₂_take_append _ msgs reads.flatten all.flip).flip
      have later := (List.forall₂_drop_append _ msgs reads.flatten all.flip).flip
      rw [← List.take_append_drop msgs.length heard, List.foldl_append, ← once here, ← ih later]
      rfl

/-! ## Reading attributes -/

section Attrs

variable {σ : Type} (f : σ → Nat → List UInt8 → Nat → σ)

theorem rtaLoop_cons {a : Attr} (ok : a.Ok) (s : σ) (rest : List UInt8) (len : Nat) :
    rtaLoop f s (a.encode ++ rest) (a.encode.length + len) =
      rtaLoop f (f s a.type (a.payload ++
        (List.replicate (nlAlign a.payload.length - a.payload.length) 0 ++ rest)) a.payload.length)
        rest len := by
  have size : rtaLen (a.encode ++ rest) = rtattrSize + a.payload.length := by
    simp only [rtaLen, Attr.encode, List.append_assoc]
    exact u16At_le16 ok.2 _
  have type : rtaType (a.encode ++ rest) = a.type := by
    simp only [rtaType, Attr.encode, List.append_assoc]
    exact (u16At_append_right (le16 _) _ 0).trans (u16At_le16 ok.1 _)
  have data : (a.encode ++ rest).drop rtattrSize = a.payload ++
      (List.replicate (nlAlign a.payload.length - a.payload.length) 0 ++ rest) := by
    simp only [Attr.encode, List.append_assoc]
    rfl
  have good : rtaOk (a.encode ++ rest) (a.encode.length + len) = true := by
    rw [rtaOk_iff, size, Attr.encode_length]
    unfold nlAlign rtattrSize
    omega
  rw [rtaLoop, dif_pos good, size, type, data, Nat.add_sub_cancel_left, ← Attr.encode_length,
    Nat.add_sub_cancel_left, List.drop_left' rfl]

/-- The loop over the attributes of a message, when the body looks at no byte
behind the payload. -/
theorem rtaLoop_encode {attrs : List Attr} (ok : ∀ a ∈ attrs, a.Ok)
    (within : ∀ a ∈ attrs, ∀ s tail,
      f s a.type (a.payload ++ tail) a.payload.length = f s a.type a.payload a.payload.length)
    (s : σ) (rest : List UInt8) :
    rtaLoop f s (attrs.flatMap Attr.encode ++ rest) (attrs.flatMap Attr.encode).length =
      attrs.foldl (fun s a => f s a.type a.payload a.payload.length) s := by
  induction attrs generalizing s with
  | nil =>
      rw [rtaLoop, dif_neg]
      · rfl
      · rw [rtaOk_iff]
        simp
  | cons a attrs ih =>
      rw [List.flatMap_cons, List.append_assoc, List.length_append,
        rtaLoop_cons f (ok a List.mem_cons_self), within a List.mem_cons_self, List.foldl_cons]
      exact ih (fun b member => ok b (List.mem_cons_of_mem _ member))
        (fun b member => within b (List.mem_cons_of_mem _ member)) _

end Attrs

/-- The attributes hold `payload` under `type`, and nothing else under it. -/
def Carries (attrs : List Attr) (type : Nat) (payload : Option (List UInt8)) : Prop :=
  attrs.filter (fun a => a.type == type) = (payload.map (Attr.mk type)).toList

instance (attrs : List Attr) (type : Nat) (payload : Option (List UInt8)) :
    Decidable (Carries attrs type payload) := inferInstanceAs (Decidable (_ = _))

theorem memcpy_append (old : Bytes) (data tail : List UInt8) :
    memcpy old (bytesAt (data ++ tail)) data.length = memcpy old (bytesAt data) data.length := by
  funext i
  unfold memcpy bytesAt
  split_ifs with inside
  · rw [List.getD_append _ _ _ _ inside]
  · rfl

/-- Copying a payload to a cleared array. -/
theorem memcpy_zero (data : List UInt8) :
    memcpy (fun _ => 0) (bytesAt data) data.length = bytesAt data := by
  funext i
  unfold memcpy bytesAt
  split_ifs with inside
  · rfl
  · rw [List.getD_eq_default _ _ (Nat.le_of_not_lt inside)]

/-- A field that a loop stores from the attributes of one type, and what it holds
when there is at most one. -/
theorem foldl_field {σ τ : Type} (step : σ → Attr → σ) (field : σ → τ) (store : τ → List UInt8 → τ)
    {type : Nat} (stores : ∀ s a, field (step s a) =
      if a.type = type then store (field s) a.payload else field s)
    {attrs : List Attr} {payload : Option (List UInt8)} (carries : Carries attrs type payload) (s : σ) :
    field (attrs.foldl step s) = payload.elim (field s) (store (field s)) := by
  have all : ∀ (attrs : List Attr) (s : σ), field (attrs.foldl step s) =
      (attrs.filter fun a => a.type == type).foldl (fun x a => store x a.payload) (field s) := by
    intro attrs
    induction attrs with
    | nil => exact fun s => rfl
    | cons a attrs ih =>
        intro s
        rw [List.foldl_cons, ih, stores, List.filter_cons]
        by_cases here : a.type = type <;> simp [here]
  rw [all, show attrs.filter _ = _ from carries]
  cases payload <;> rfl

end Ufp.Daemon
