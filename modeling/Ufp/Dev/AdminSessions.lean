/-
# Ufp.Dev.AdminSessions — whose answer a session gets

The admin queue as a system of the driver's sessions and the firmware: sessions are
made and deleted, commands submitted, descriptors answered and cleaned, in any
order that the code and the firmware allow. `born`, `submitter` and `wrote` are
history: the number of the session at an address, the number of the session each
descriptor was submitted with, and what was stored in the session at an address,
each with the number of the session it belongs to.

A session is known by its address only. `results_own` says that a session holds
its own results as long as no session is made at an address which a descriptor not
yet cleaned still carries. `stale_result` is a run without that: a command times
out, its session is deleted, `malloc` returns the same address, and the next session
gets the late answer.
-/
import Ufp.Dev.AdminQueue

namespace Ufp.Dev.AdminSessions

open Ufp.Dev.AdminQueue Ufp.Theory

set_option autoImplicit false

/-! ## The system -/

structure System where
  aq : Aq
  made : Nat
  born : Nat → Nat
  submitter : Nat → Nat
  wrote : Nat → List (Nat × Session)

inductive Action where
  | create (addr data : Nat)
  | submit (addr : Nat) (opcode : Opcode) (flags : Nat) (cmd : List UInt8) (data : Option (List UInt8))
      (dataSize : Nat)
  | complete (c : Completion)
  | clean (room : Nat)
  | delete (addr : Nat)

/-- The address is that of a session. -/
def Live (aq : Aq) (addr : Nat) : Prop := addr ∈ aq.session.map Prod.fst

/-- The descriptors that were submitted and not yet cleaned. -/
def outstanding (ring : AqRing) : List Nat := Ring.window ring.numDesc ring.nextToClean ring.nextToUse

/-- Note what the answer to a command of the session `owner` left in the session at an
address, if there is one. -/
def record (wrote : Nat → List (Nat × Session)) (addr owner : Nat) : Option Session → Nat → List (Nat × Session)
  | some session => Function.update wrote addr ((owner, session) :: wrote addr)
  | none => wrote

theorem record_of_ne {wrote : Nat → List (Nat × Session)} {addr addr' owner : Nat} (session : Option Session)
    (other : addr' ≠ addr) : record wrote addr owner session addr' = wrote addr' := by
  cases session with
  | none => rfl
  | some session => exact Function.update_of_ne other ..

namespace System

def step (s : System) : Action → System
  | .create addr data =>
      { s with
        aq := i40eAqSessionCreate addr data s.aq
        made := s.made + 1
        born := Function.update s.born addr s.made
        wrote := Function.update s.wrote addr [(s.made, { retval := 0xffff, data })] }
  | .submit addr opcode flags cmd data dataSize =>
      { s with
        aq := { s.aq with txRing := i40eAqAsqAssign opcode flags cmd data dataSize addr s.aq.txRing }
        -- Without room the descriptor at `next_to_use` is not outstanding, now or after
        submitter := Function.update s.submitter s.aq.txRing.nextToUse (s.born addr) }
  | .complete c => { s with aq := { s.aq with txRing := s.aq.txRing.complete c } }
  | .clean room =>
      let cookie := (s.aq.txRing.desc s.aq.txRing.nextToClean).cookie
      let aq := asqCleanOne room s.aq
      { s with
        aq
        wrote := record s.wrote cookie (s.submitter s.aq.txRing.nextToClean)
          (if cookie ≠ 0 then aq.sessionAt cookie else none) }
  | .delete addr => { s with aq := i40eAqSessionDelete addr s.aq }

/-- `malloc` returns an address of its own; commands are submitted with a live
session, and a live session is deleted; the firmware answers what was given to it,
and the driver cleans what was answered. -/
def Permits (s : System) : Action → Prop
  | .create addr _ => addr ≠ 0 ∧ addr < 2 ^ 64 ∧ ¬ Live s.aq addr
  | .submit addr _ _ _ _ _ => Live s.aq addr
  | .complete _ => s.aq.txRing.head ≠ s.aq.txRing.tail
  | .clean _ => s.aq.txRing.nextToClean ≠ s.aq.txRing.head
  | .delete addr => Live s.aq addr

/-- No session is made at an address that an outstanding descriptor carries. -/
def Unused (s : System) : Action → Prop
  | .create addr _ => ∀ i ∈ outstanding s.aq.txRing, (s.aq.txRing.desc i).cookie ≠ addr
  | _ => True

instance (s : System) (action : Action) : Decidable (s.Permits action) :=
  match action with
  | .create addr _ => inferInstanceAs (Decidable (addr ≠ 0 ∧ addr < 2 ^ 64 ∧ ¬ addr ∈ s.aq.session.map Prod.fst))
  | .submit addr _ _ _ _ _ => inferInstanceAs (Decidable (addr ∈ s.aq.session.map Prod.fst))
  | .complete _ => inferInstanceAs (Decidable (s.aq.txRing.head ≠ s.aq.txRing.tail))
  | .clean _ => inferInstanceAs (Decidable (s.aq.txRing.nextToClean ≠ s.aq.txRing.head))
  | .delete addr => inferInstanceAs (Decidable (addr ∈ s.aq.session.map Prod.fst))

instance (s : System) (action : Action) : Decidable (s.Unused action) :=
  match action with
  | .create addr _ =>
      inferInstanceAs (Decidable (∀ i ∈ outstanding s.aq.txRing, (s.aq.txRing.desc i).cookie ≠ addr))
  | .submit _ _ _ _ _ _ => .isTrue trivial
  | .complete _ => .isTrue trivial
  | .clean _ => .isTrue trivial
  | .delete _ => .isTrue trivial

def run (s : System) (actions : List Action) : System := actions.foldl step s

/-- Every step of a run meets `P`. -/
def Along (P : System → Action → Prop) (s : System) : List Action → Prop
  | [] => True
  | action :: actions => P s action ∧ Along P (s.step action) actions

instance decidableAlong (P : System → Action → Prop) [∀ s action, Decidable (P s action)] :
    ∀ (actions : List Action) (s : System), Decidable (Along P s actions)
  | [], _ => .isTrue trivial
  | action :: actions, s =>
      haveI := decidableAlong P actions (s.step action)
      inferInstanceAs (Decidable (P s action ∧ Along P (s.step action) actions))

/-- The queue after `i40e_aq_init`. -/
structure Fresh (s : System) : Prop where
  size : 0 < s.aq.txRing.numDesc
  use : s.aq.txRing.nextToUse = 0
  clean : s.aq.txRing.nextToClean = 0
  head : s.aq.txRing.head = 0
  tail : s.aq.txRing.tail = 0
  session : s.aq.session = []

/-- Every live session holds what was stored in it last, and all that was stored in
it came from its own commands or from its making. -/
def Own (s : System) : Prop :=
  ∀ addr session, s.aq.sessionAt addr = some session →
    (∃ earlier, s.wrote addr = (s.born addr, session) :: earlier) ∧
      ∀ entry ∈ s.wrote addr, entry.1 = s.born addr

end System

/-! ## The calls -/

section Calls

variable {aq : Aq} {ring : AqRing} {addr addr' : Nat}

theorem live_iff : Live aq addr ↔ ∃ session, aq.sessionAt addr = some session := by
  simp only [Live, Aq.sessionAt, List.mem_map, Option.map_eq_some_iff]
  constructor
  · rintro ⟨entry, member, rfl⟩
    have found : (aq.session.find? fun e => e.1 = entry.1).isSome :=
      List.find?_isSome.mpr ⟨entry, member, by simp⟩
    obtain ⟨e, found⟩ := Option.isSome_iff_exists.mp found
    exact ⟨e.2, e, found, rfl⟩
  · rintro ⟨session, entry, found, rfl⟩
    exact ⟨entry, List.mem_of_find?_eq_some found, by simpa using List.find?_some found⟩

theorem sessionAt_create_self (dead : ¬ Live aq addr) (data : Nat) :
    (i40eAqSessionCreate addr data aq).sessionAt addr = some { retval := 0xffff, data } := by
  have missing : (aq.session.find? fun e => e.1 = addr) = none := by
    rw [List.find?_eq_none]
    intro entry member
    have : entry.1 ≠ addr := fun same => dead (List.mem_map.mpr ⟨entry, member, same⟩)
    simpa using this
  simp [Aq.sessionAt, i40eAqSessionCreate, List.find?_append, missing]

theorem sessionAt_create_of_ne (other : addr' ≠ addr) (data : Nat) :
    (i40eAqSessionCreate addr data aq).sessionAt addr' = aq.sessionAt addr' := by
  simp [Aq.sessionAt, i40eAqSessionCreate, List.find?_append, other.symm]

theorem live_create (data : Nat) : Live (i40eAqSessionCreate addr data aq) addr' ↔ Live aq addr' ∨ addr' = addr := by
  simp [Live, i40eAqSessionCreate]

/-- A write to a session changes that entry of the list only. -/
theorem find_setSession (session : Session) :
    ((aq.setSession addr session).session.find? fun e => e.1 = addr') =
      (aq.session.find? fun e => e.1 = addr').map fun e => if e.1 = addr then (addr, session) else e := by
  rw [Aq.setSession, List.find?_map]
  congr 2
  funext entry
  by_cases here : entry.1 = addr
  · simp [here]
  · simp [here]

theorem sessionAt_setSession_of_ne (other : addr' ≠ addr) (session : Session) :
    (aq.setSession addr session).sessionAt addr' = aq.sessionAt addr' := by
  rw [Aq.sessionAt, Aq.sessionAt, find_setSession, Option.map_map]
  cases first : aq.session.find? fun e => e.1 = addr' with
  | none => rfl
  | some entry =>
      have there : entry.1 = addr' := by simpa using List.find?_some first
      simp [there, other]

theorem setSession_addresses (session : Session) :
    (aq.setSession addr session).session.map Prod.fst = aq.session.map Prod.fst := by
  rw [Aq.setSession, List.map_map]
  apply List.map_congr_left
  intro entry _
  by_cases here : entry.1 = addr
  · simp [here]
  · simp [here]

theorem delete_addresses :
    (i40eAqSessionDelete addr aq).session.map Prod.fst = (aq.session.map Prod.fst).erase addr := by
  have test : (fun entry : Nat × Session => decide (entry.1 = addr)) = (fun x => addr == x) ∘ Prod.fst := by
    funext entry
    by_cases here : entry.1 = addr
    · simp [here]
    · simp [here, Ne.symm here]
  simp only [i40eAqSessionDelete, test]
  rw [List.erase_eq_eraseP, List.eraseP_map]

theorem sessionAt_delete_of_ne (other : addr' ≠ addr) :
    (i40eAqSessionDelete addr aq).sessionAt addr' = aq.sessionAt addr' := by
  simp only [Aq.sessionAt, i40eAqSessionDelete]
  congr 1
  induction aq.session with
  | nil => rfl
  | cons entry rest ih =>
      by_cases here : entry.1 = addr
      · simp [here, other.symm]
      · rw [List.eraseP_cons_of_neg (by simpa using here), List.find?_cons, List.find?_cons, ih]

theorem asqCleanOne_ring (room : Nat) (aq : Aq) :
    (asqCleanOne room aq).txRing =
      { aq.txRing with nextToClean := Ring.next aq.txRing.numDesc aq.txRing.nextToClean } := by
  simp only [asqCleanOne, Ring.next]
  split <;> rfl

theorem asqCleanOne_addresses (room : Nat) (aq : Aq) :
    (asqCleanOne room aq).session.map Prod.fst = aq.session.map Prod.fst := by
  simp only [asqCleanOne]
  split
  · exact setSession_addresses _
  · rfl

/-- Cleaning a descriptor writes the session it carries, and no other. -/
theorem sessionAt_asqCleanOne_of_ne (room : Nat) {aq : Aq} {addr : Nat}
    (other : addr ≠ (aq.txRing.desc aq.txRing.nextToClean).cookie) :
    (asqCleanOne room aq).sessionAt addr = aq.sessionAt addr := by
  simp only [asqCleanOne]
  split
  · exact sessionAt_setSession_of_ne other _
  · rfl

/-- The cookie a descriptor is filled with is read back. -/
theorem fillDesc_cookie (opcode : Opcode) (flags : Nat) (cmd : List UInt8) (dataSize dma : Nat) (old : Desc)
    (small : addr < 2 ^ 64) : (fillDesc opcode flags cmd dataSize addr dma old).cookie = addr := by
  have high : addr / 2 ^ 32 % 2 ^ 32 = addr / 2 ^ 32 := Nat.mod_eq_of_lt (by omega)
  have whole : addr % 2 ^ 32 ||| (addr / 2 ^ 32) <<< 32 = addr := by
    rw [Nat.or_comm, ← Nat.shiftLeft_add_eq_or_of_lt (Nat.mod_lt _ (by decide)), Nat.shiftLeft_eq]
    omega
  simp only [Desc.cookie, fillDesc, upper32, lower32, high, whole]

theorem complete_cookie (c : Completion) (i : Nat) : ((ring.complete c).desc i).cookie = (ring.desc i).cookie := by
  by_cases here : i = ring.head
  · subst here
    simp [AqRing.complete, Desc.cookie]
  · simp [AqRing.complete, here]

/-- `i40e_aq_desc_unused` counts the descriptors outside the window, one less. -/
theorem i40eAqDescUnused_eq (clean : ring.nextToClean < ring.numDesc) (use : ring.nextToUse < ring.numDesc) :
    i40eAqDescUnused ring + Ring.occupied ring.numDesc ring.nextToClean ring.nextToUse + 1 = ring.numDesc := by
  unfold i40eAqDescUnused Ring.occupied
  split_ifs <;> omega

/-- A submission changes the descriptor at `next_to_use` and moves on, or nothing. -/
theorem i40eAqAsqAssign_cases (opcode : Opcode) (flags : Nat) (cmd : List UInt8) (data : Option (List UInt8))
    (dataSize cookie : Nat) (ring : AqRing) :
    i40eAqAsqAssign opcode flags cmd data dataSize cookie ring = ring ∨
      i40eAqDescUnused ring ≠ 0 ∧ ∃ bufs, i40eAqAsqAssign opcode flags cmd data dataSize cookie ring =
        { ring with
          desc := Function.update ring.desc ring.nextToUse
            (fillDesc opcode flags cmd dataSize cookie (ring.dma ring.nextToUse) (ring.desc ring.nextToUse))
          bufs
          nextToUse := Ring.next ring.numDesc ring.nextToUse
          tail := Ring.next ring.numDesc ring.nextToUse } := by
  by_cases full : i40eAqDescUnused ring = 0
  · exact .inl (if_pos full)
  · exact .inr ⟨full, _, if_neg full⟩

end Calls

/-! ## The invariant -/

/-- The indices of the send ring: the head lies between what is cleaned and what is
submitted. -/
structure RingOk (ring : AqRing) : Prop where
  clean : ring.nextToClean < ring.numDesc
  use : ring.nextToUse < ring.numDesc
  head : ring.head < ring.numDesc
  tail : ring.tail = ring.nextToUse
  answered : Ring.occupied ring.numDesc ring.nextToClean ring.head ≤
    Ring.occupied ring.numDesc ring.nextToClean ring.nextToUse

namespace RingOk

variable {ring : AqRing}

/-- What is answered and not cleaned is outstanding. -/
theorem clean_ne_use (ok : RingOk ring) (some_left : ring.nextToClean ≠ ring.head) :
    ring.nextToClean ≠ ring.nextToUse := by
  intro same
  have answered := ok.answered
  rw [← same, Ring.occupied_self, Ring.occupied_pop ok.clean ok.head some_left] at answered
  omega

theorem outstanding_pop (ok : RingOk ring) (some_left : ring.nextToClean ≠ ring.head) :
    outstanding ring = ring.nextToClean ::
      outstanding { ring with nextToClean := Ring.next ring.numDesc ring.nextToClean } :=
  Ring.window_pop ok.clean ok.use (ok.clean_ne_use some_left)

theorem cleaned (ok : RingOk ring) (some_left : ring.nextToClean ≠ ring.head) :
    RingOk { ring with nextToClean := Ring.next ring.numDesc ring.nextToClean } := by
  have answered := ok.answered
  rw [Ring.occupied_pop ok.clean ok.head some_left,
    Ring.occupied_pop ok.clean ok.use (ok.clean_ne_use some_left)] at answered
  exact ⟨Ring.next_lt (by have := ok.clean; omega) _, ok.use, ok.head, ok.tail, by simpa using answered⟩

theorem completed (ok : RingOk ring) (given : ring.head ≠ ring.tail) (c : Completion) :
    RingOk (ring.complete c) := by
  have bound := Ring.occupied_lt ok.clean ok.use
  have less : Ring.occupied ring.numDesc ring.nextToClean ring.head <
      Ring.occupied ring.numDesc ring.nextToClean ring.nextToUse := by
    refine Nat.lt_of_le_of_ne ok.answered fun same => given ?_
    -- An index is told by how far behind `next_to_clean` it lies
    calc ring.head = Ring.index ring.numDesc ring.nextToClean _ := (Ring.index_occupied ok.clean ok.head).symm
      _ = ring.nextToUse := by rw [same, Ring.index_occupied ok.clean ok.use]
      _ = ring.tail := ok.tail.symm
  have pushed := Ring.occupied_push ok.clean ok.head (by omega)
  exact ⟨ok.clean, ok.use, Ring.next_lt (by have := ok.clean; omega) _, ok.tail, by
    show Ring.occupied ring.numDesc ring.nextToClean (Ring.next ring.numDesc ring.head) ≤ _
    rw [pushed]
    exact less⟩

theorem room (ok : RingOk ring) (unused : i40eAqDescUnused ring ≠ 0) :
    Ring.occupied ring.numDesc ring.nextToClean ring.nextToUse + 1 < ring.numDesc := by
  have := i40eAqDescUnused_eq ok.clean ok.use
  omega

theorem submitted (ok : RingOk ring) (unused : i40eAqDescUnused ring ≠ 0) (desc : Nat → Desc)
    (bufs : Nat → List UInt8) :
    RingOk { ring with
      desc, bufs
      nextToUse := Ring.next ring.numDesc ring.nextToUse
      tail := Ring.next ring.numDesc ring.nextToUse } := by
  have pushed := Ring.occupied_push ok.clean ok.use (ok.room unused)
  refine ⟨ok.clean, Ring.next_lt (by have := ok.clean; omega) _, ok.head, rfl, ?_⟩
  show _ ≤ Ring.occupied ring.numDesc ring.nextToClean (Ring.next ring.numDesc ring.nextToUse)
  rw [pushed]
  exact Nat.le_succ_of_le ok.answered

end RingOk

/-- Each outstanding descriptor that carries the address of a live session was
submitted with that session. -/
def Carried (s : System) : Prop :=
  ∀ i ∈ outstanding s.aq.txRing, Live s.aq (s.aq.txRing.desc i).cookie →
    s.submitter i = s.born (s.aq.txRing.desc i).cookie

/-- What holds in every state. -/
structure Inv (s : System) : Prop where
  ring : RingOk s.aq.txRing
  nodup : (s.aq.session.map Prod.fst).Nodup
  range : ∀ addr, Live s.aq addr → addr ≠ 0 ∧ addr < 2 ^ 64
  carried : Carried s
  own : s.Own

namespace Inv

variable {s : System}

theorem start (fresh : s.Fresh) : Inv s := by
  obtain ⟨size, use, clean, head, tail, session⟩ := fresh
  refine ⟨⟨?_, ?_, ?_, ?_, ?_⟩, ?_, ?_, ?_, ?_⟩
  · rwa [clean]
  · rwa [use]
  · rwa [head]
  · rw [tail, use]
  · exact Nat.le_of_eq (by rw [head, use])
  · simp [session]
  · simp [Live, session]
  · intro i member
    simp [outstanding, use, clean, Ring.window_self] at member
  · intro addr held found
    simp [Aq.sessionAt, session] at found

theorem create (inv : Inv s) {addr data : Nat} (permits : s.Permits (.create addr data))
    (unused : s.Unused (.create addr data)) : Inv (s.step (.create addr data)) := by
  obtain ⟨nonzero, small, dead⟩ := permits
  refine ⟨inv.ring, ?_, ?_, ?_, ?_⟩
  · show ((s.aq.session ++ _).map Prod.fst).Nodup
    rw [List.map_append, List.nodup_append]
    refine ⟨inv.nodup, by simp, ?_⟩
    rintro a member b last rfl
    obtain rfl : a = addr := by simpa using last
    exact dead member
  · intro a live
    rcases (live_create data).mp live with live | rfl
    · exact inv.range a live
    · exact ⟨nonzero, small⟩
  · intro i member live
    have other : (s.aq.txRing.desc i).cookie ≠ addr := unused i member
    have before := ((live_create data).mp live).resolve_right other
    show s.submitter i = Function.update s.born addr s.made (s.aq.txRing.desc i).cookie
    rw [Function.update_of_ne other]
    exact inv.carried i member before
  · intro a held found
    by_cases here : a = addr
    · subst here
      have found : (i40eAqSessionCreate a data s.aq).sessionAt a = some held := found
      rw [sessionAt_create_self dead] at found
      obtain rfl := Option.some.inj found
      simp [System.step]
    · have found : (i40eAqSessionCreate addr data s.aq).sessionAt a = some held := found
      rw [sessionAt_create_of_ne here] at found
      simpa [System.step, here] using inv.own a held found

theorem submit (inv : Inv s) {addr : Nat} {opcode : Opcode} {flags : Nat} {cmd : List UInt8}
    {data : Option (List UInt8)} {dataSize : Nat}
    (permits : s.Permits (.submit addr opcode flags cmd data dataSize)) :
    Inv (s.step (.submit addr opcode flags cmd data dataSize)) := by
  have live : Live s.aq addr := permits
  have free := Ring.tail_notMem_window inv.ring.clean inv.ring.use
  rcases i40eAqAsqAssign_cases opcode flags cmd data dataSize addr s.aq.txRing with same | ⟨unused, bufs, filled⟩
  · have carried : Carried (s.step (.submit addr opcode flags cmd data dataSize)) := by
      intro i member alive
      simp only [System.step, same] at member alive ⊢
      have other : i ≠ s.aq.txRing.nextToUse := by
        rintro rfl
        exact free member
      rw [Function.update_of_ne other]
      exact inv.carried i member alive
    exact ⟨by simpa only [System.step, same] using inv.ring, inv.nodup, inv.range, carried, inv.own⟩
  · have carried : Carried (s.step (.submit addr opcode flags cmd data dataSize)) := by
      intro i member alive
      simp only [System.step, filled] at member alive ⊢
      rw [outstanding, Ring.window_push inv.ring.clean inv.ring.use (inv.ring.room unused), List.mem_append,
        List.mem_singleton] at member
      rcases member with member | rfl
      · have other : i ≠ s.aq.txRing.nextToUse := by
          rintro rfl
          exact free member
        rw [Function.update_of_ne other] at alive ⊢
        rw [Function.update_of_ne other]
        exact inv.carried i member alive
      · rw [Function.update_self, Function.update_self, fillDesc_cookie _ _ _ _ _ _ (inv.range addr live).2]
    exact ⟨by simpa only [System.step, filled] using inv.ring.submitted unused _ bufs, inv.nodup, inv.range,
      carried, inv.own⟩

theorem complete (inv : Inv s) {c : Completion} (permits : s.Permits (.complete c)) :
    Inv (s.step (.complete c)) := by
  refine ⟨inv.ring.completed permits c, inv.nodup, inv.range, ?_, inv.own⟩
  intro i member alive
  simp only [System.step, complete_cookie] at alive ⊢
  exact inv.carried i member alive

theorem delete (inv : Inv s) {addr : Nat} : Inv (s.step (.delete addr)) := by
  have fewer : ∀ a, Live (i40eAqSessionDelete addr s.aq) a → Live s.aq a := by
    intro a live
    rw [Live, delete_addresses] at live
    exact List.mem_of_mem_erase live
  refine ⟨inv.ring, ?_, fun a live => inv.range a (fewer a live), ?_, ?_⟩
  · show ((i40eAqSessionDelete addr s.aq).session.map Prod.fst).Nodup
    rw [delete_addresses]
    exact inv.nodup.erase addr
  · exact fun i member live => inv.carried i member (fewer _ live)
  · intro a held found
    have found : (i40eAqSessionDelete addr s.aq).sessionAt a = some held := found
    have other : a ≠ addr := by
      rintro rfl
      have live : Live (i40eAqSessionDelete a s.aq) a := live_iff.mpr ⟨held, found⟩
      rw [Live, delete_addresses] at live
      exact inv.nodup.not_mem_erase live
    rw [sessionAt_delete_of_ne other] at found
    exact inv.own a held found

theorem clean (inv : Inv s) {room : Nat} (permits : s.Permits (.clean room)) : Inv (s.step (.clean room)) := by
  have some_left : s.aq.txRing.nextToClean ≠ s.aq.txRing.head := permits
  have outstanding_eq := inv.ring.outstanding_pop some_left
  have same_live : ∀ a, Live (asqCleanOne room s.aq) a ↔ Live s.aq a := fun a => by
    rw [Live, asqCleanOne_addresses, Live]
  refine ⟨?_, ?_, fun a live => inv.range a ((same_live a).mp live), ?_, ?_⟩
  · show RingOk (asqCleanOne room s.aq).txRing
    rw [asqCleanOne_ring]
    exact inv.ring.cleaned some_left
  · show ((asqCleanOne room s.aq).session.map Prod.fst).Nodup
    rw [asqCleanOne_addresses]
    exact inv.nodup
  · intro i member live
    have live : Live (asqCleanOne room s.aq) ((asqCleanOne room s.aq).txRing.desc i).cookie := live
    have member : i ∈ outstanding (asqCleanOne room s.aq).txRing := member
    rw [asqCleanOne_ring] at member live
    show s.submitter i = s.born ((asqCleanOne room s.aq).txRing.desc i).cookie
    rw [asqCleanOne_ring]
    exact inv.carried i (by rw [outstanding_eq]; exact List.mem_cons_of_mem _ member) ((same_live _).mp live)
  · intro a held found
    have found : (asqCleanOne room s.aq).sessionAt a = some held := found
    simp only [System.step]
    by_cases here : a = (s.aq.txRing.desc s.aq.txRing.nextToClean).cookie
    · subst here
      have live := (same_live _).mp (live_iff.mpr ⟨held, found⟩)
      obtain ⟨old, before⟩ := live_iff.mp live
      have first : s.aq.txRing.nextToClean ∈ outstanding s.aq.txRing := by
        rw [outstanding_eq]
        exact List.mem_cons_self ..
      have mine := inv.carried _ first live
      rw [if_pos (inv.range _ live).1, found]
      simp only [record, Function.update_self, mine]
      refine ⟨⟨_, rfl⟩, ?_⟩
      intro entry member
      rcases List.mem_cons.mp member with rfl | member
      · rfl
      · exact (inv.own _ old before).2 entry member
    · rw [sessionAt_asqCleanOne_of_ne room here] at found
      rw [record_of_ne _ here]
      exact inv.own a held found

theorem step (inv : Inv s) {action : Action} (permits : s.Permits action) (unused : s.Unused action) :
    Inv (s.step action) := by
  cases action with
  | create addr data => exact inv.create permits unused
  | submit addr opcode flags cmd data dataSize => exact inv.submit permits
  | complete c => exact inv.complete permits
  | clean room => exact inv.clean permits
  | delete addr => exact inv.delete

end Inv

/-- **A session holds its own results** after every run whose steps make no session
at an address which an outstanding descriptor carries. -/
theorem results_own {s : System} (fresh : s.Fresh) (actions : List Action)
    (meets : s.Along (fun s action => s.Permits action ∧ s.Unused action) actions) : (s.run actions).Own := by
  suffices inv : ∀ s : System, Inv s → s.Along (fun s action => s.Permits action ∧ s.Unused action) actions →
      Inv (s.run actions) from (inv s (Inv.start fresh) meets).own
  clear meets fresh s
  induction actions with
  | nil => exact fun s inv _ => inv
  | cons action actions ih =>
      intro s inv meets
      exact ih (s.step action) (inv.step meets.1.1 meets.1.2) meets.2

/-! ## The calls of the driver as runs -/

/-- The step leaves the list of sessions alone. -/
def Action.Serves : Action → Prop
  | .complete _ | .clean _ => True
  | _ => False

/-- The state of the queue is reached by permitted steps of the firmware and of cleaning. -/
def Served (s : System) (aq : Aq) : Prop :=
  ∃ actions, (∀ action ∈ actions, action.Serves) ∧ s.Along System.Permits actions ∧ (s.run actions).aq = aq

section Runs

variable {s : System} {aq : Aq} {P : System → Action → Prop}

theorem along_append (before after : List Action) (s : System) :
    s.Along P (before ++ after) ↔ s.Along P before ∧ (s.run before).Along P after := by
  induction before generalizing s with
  | nil => exact ⟨fun along => ⟨trivial, along⟩, fun along => along.2⟩
  | cons action before ih =>
      simp only [List.cons_append, System.Along, ih (s.step action), and_assoc]
      rfl

theorem run_append (before after : List Action) (s : System) : s.run (before ++ after) = (s.run before).run after :=
  List.foldl_append ..

theorem Served.refl (s : System) : Served s s.aq := ⟨[], by simp, trivial, rfl⟩

/-- A step more, at the end; what follows depends on the queue alone. -/
theorem Served.step (served : Served s aq) (action : Action) (serves : action.Serves)
    (permits : ∀ s' : System, s'.aq = aq → s'.Permits action) {aq' : Aq}
    (after : ∀ s' : System, s'.aq = aq → (s'.step action).aq = aq') : Served s aq' := by
  obtain ⟨actions, all, along, reached⟩ := served
  refine ⟨actions ++ [action], ?_, (along_append ..).mpr ⟨along, permits _ reached, trivial⟩, ?_⟩
  · intro a member
    rcases List.mem_append.mp member with member | member
    · exact all a member
    · rw [List.mem_singleton.mp member]
      exact serves
  · rw [run_append]
    exact after _ reached

theorem Served.asqCleanLoop (served : Served s aq) (room todo : Nat) : Served s (asqCleanLoop room todo aq) := by
  induction todo generalizing aq with
  | zero => exact served
  | succ todo ih =>
      simp only [AdminQueue.asqCleanLoop]
      split
      · exact served
      · next some_left =>
          refine ih (served.step (.clean room) trivial ?_ ?_)
          · rintro s' rfl
            exact some_left
          · rintro s' rfl
            rfl

theorem Served.answer (served : Served s aq) (answers : List Completion) : Served s (answer aq answers) := by
  induction answers generalizing aq with
  | nil => exact served
  | cons c answers ih =>
      simp only [AdminQueue.answer]
      split
      · exact served
      · next given =>
          refine ih (served.step (.complete c) trivial ?_ ?_)
          · rintro s' rfl
            exact given
          · rintro s' rfl
            rfl

theorem Served.waitCmd (served : Served s aq) (answers : Nat → List Completion) (room addr timeout : Nat) :
    Served s (waitCmd answers room addr timeout aq).2 := by
  induction timeout generalizing aq with
  | zero => exact served
  | succ timeout ih =>
      have cleaned : Served s (i40eAqAsqClean room (AdminQueue.answer aq (answers (timeout + 1)))) :=
        (served.answer _).asqCleanLoop room _
      simp only [AdminQueue.waitCmd]
      split
      · exact cleaned
      · exact ih cleaned

/-- Answers and cleaning keep the addresses of the sessions. -/
theorem Served.addresses (served : Served s aq) : aq.session.map Prod.fst = s.aq.session.map Prod.fst := by
  obtain ⟨actions, all, -, rfl⟩ := served
  induction actions generalizing s with
  | nil => rfl
  | cons action actions ih =>
      have first := all action (List.mem_cons_self ..)
      have kept : (s.step action).aq.session.map Prod.fst = s.aq.session.map Prod.fst := by
        cases action with
        | complete c => rfl
        | clean room => exact asqCleanOne_addresses room s.aq
        | _ => exact first.elim
      exact (ih fun a member => all a (List.mem_cons_of_mem _ member)).trans kept

end Runs

/-- **`i40e_rxctl_read` is a run of the system**, whatever the firmware answers and
whether or not it times out. -/
theorem i40eRxctlRead_run {s : System} {addr data : Nat} (own : s.Permits (.create addr data))
    (answers : Nat → List Completion) (room regAddr : Nat) :
    ∃ actions, s.Along System.Permits actions ∧
      (s.run actions).aq = (i40eRxctlRead (some (addr, data)) answers room regAddr s.aq).2 := by
  let submit : Action :=
    .submit addr .rxctlRead 0 (bytesU32 0 ++ bytesU32 regAddr ++ bytesU32 0 ++ bytesU32 0) none 0
  let asked := (s.step (.create addr data)).step submit
  have created : Live (s.step (.create addr data)).aq addr := (live_create data).mpr (.inr rfl)
  have served : Served asked (i40eAqcWaitCmd answers room addr asked.aq).2 :=
    (Served.refl asked).waitCmd answers room addr asqCmdTimeout
  have alive : Live (i40eAqcWaitCmd answers room addr asked.aq).2 addr := by
    rw [Live, served.addresses]
    exact created
  have result : (i40eRxctlRead (some (addr, data)) answers room regAddr s.aq).2 =
      i40eAqSessionDelete addr (i40eAqcWaitCmd answers room addr asked.aq).2 := by
    have same : asked.aq = i40eAqcReqRxctlRead regAddr addr (i40eAqSessionCreate addr data s.aq) := rfl
    rw [same]
    simp only [i40eRxctlRead]
    -- Whatever comes of the wait, the session is deleted
    rcases i40eAqcWaitCmd answers room addr _ with ⟨done, aq⟩
    cases done with
    | false => rfl
    | true =>
        simp only
        split
        · split <;> rfl
        · rfl
  obtain ⟨actions, -, along, reached⟩ := served
  refine ⟨.create addr data :: submit :: (actions ++ [.delete addr]), ⟨own, created, ?_⟩, ?_⟩
  · rw [along_append]
    exact ⟨along, by rw [System.Permits, reached]; exact alive, trivial⟩
  · rw [result]
    show (asked.run (actions ++ [.delete addr])).aq = _
    rw [run_append, ← reached]
    rfl

/-! ## A late answer -/

/-- A queue of four descriptors, nothing submitted. -/
def sampleQueue : System where
  aq :=
    { txRing :=
        { numDesc := 4, desc := fun _ => ⟨0, .queueShutdown, 0, 0, 0, 0, []⟩, bufs := fun _ => []
          dma := fun _ => 0, nextToUse := 0, nextToClean := 0, head := 0, tail := 0 }
      session := []
      dev := ⟨[], ⟨0, 0, 0, 0, 0⟩, [], [], 0⟩ }
  made := 0
  born := fun _ => 0
  submitter := fun _ => 0
  wrote := fun _ => []

theorem sampleQueue_fresh : sampleQueue.Fresh := ⟨by decide, rfl, rfl, rfl, rfl, rfl⟩

/-- The answer to the read of a control register that holds 7. -/
def sampleAnswer : Completion :=
  { flags := 3, datalen := 0, retval := 0, params := bytesU32 0 ++ bytesU32 1 ++ bytesU32 0 ++ bytesU32 7, buf := [] }

/-- One register read. -/
def sampleRead (addr regAddr : Nat) : Action :=
  .submit addr .rxctlRead 0 (bytesU32 0 ++ bytesU32 regAddr ++ bytesU32 0 ++ bytesU32 0) none 0

theorem results_own_sample :
    sampleQueue.Fresh ∧
      sampleQueue.Along (fun s action => s.Permits action ∧ s.Unused action)
        [.create 4096 0, sampleRead 4096 1, .complete sampleAnswer, .clean 0] ∧
      (sampleQueue.run [.create 4096 0, sampleRead 4096 1, .complete sampleAnswer, .clean 0]).aq.sessionAt 4096 =
        some ⟨0, 7⟩ ∧
      (sampleQueue.run [.create 4096 0, sampleRead 4096 1, .complete sampleAnswer, .clean 0]).Own :=
  have meets : sampleQueue.Along (fun s action => s.Permits action ∧ s.Unused action)
      [.create 4096 0, sampleRead 4096 1, .complete sampleAnswer, .clean 0] := by decide +kernel
  ⟨sampleQueue_fresh, meets, by decide +kernel, results_own sampleQueue_fresh _ meets⟩

/-- Read register 1, time out, and read register 2 with a session at the same
address, while the first read is answered. -/
def sampleLate : List Action :=
  [.create 4096 0, sampleRead 4096 1, .delete 4096, .create 4096 0, sampleRead 4096 2, .complete sampleAnswer,
    .clean 0]

theorem sampleLate_run :
    sampleQueue.Along System.Permits sampleLate ∧
      (sampleQueue.run sampleLate).aq.sessionAt 4096 = some ⟨0, 7⟩ ∧ (sampleQueue.run sampleLate).born 4096 = 1 ∧
      (sampleQueue.run sampleLate).wrote 4096 = [(0, ⟨0, 7⟩), (1, ⟨0xffff, 0⟩)] := by
  decide +kernel

/-- The session made second holds the result of a command of the first, which was
deleted; and `i40e_rxctl_read` of register 2 then returns what register 1 holds. -/
theorem stale_result :
    sampleQueue.Fresh ∧ sampleQueue.Along System.Permits sampleLate ∧ ¬ (sampleQueue.run sampleLate).Own ∧
      (i40eRxctlRead (some (4096, 0)) (fun _ => []) 0 1 sampleQueue.aq).1 = none ∧
      (i40eRxctlRead (some (4096, 0)) (fun _ => [sampleAnswer]) 0 2
        (i40eRxctlRead (some (4096, 0)) (fun _ => []) 0 1 sampleQueue.aq).2).1 = some 7 := by
  obtain ⟨permits, held, born, wrote⟩ := sampleLate_run
  refine ⟨sampleQueue_fresh, permits, ?_, by decide +kernel, by decide +kernel⟩
  intro own
  have mine := (own 4096 _ held).2 (0, ⟨0, 7⟩) (by simp [wrote])
  rw [born] at mine
  exact absurd mine (by decide)

end Ufp.Dev.AdminSessions
