/-
# Ufp.Dev.AdminClean — whether the admin queues are ever clean

`i40e_aq_asq_clean` and `i40e_aq_arq_clean` walk from `next_to_clean` to the head
register. The index goes round the ring; what the register holds is up to the device,
and a device that is gone reads as all ones. The receive loop takes ten bits of the
register, the send loop all of them, and neither compares them with the ring. A loop
ends when every sequence of its turns does (`Acc`).

`aq_clean_ends_iff`: the loops end exactly if the head they look for is in the ring.
-/
import Ufp.Dev.AdminSessions

namespace Ufp.Dev.AdminClean

open Ufp.Dev.AdminQueue Ufp.Dev.AdminSessions Ufp.Theory

set_option autoImplicit false

/-! ## The loops -/

/-- A turn of the loop of `i40e_aq_asq_clean`, with whatever `malloc` grants to the
answer. -/
def AsqTurn (aq aq' : Aq) : Prop :=
  aq.txRing.nextToClean ≠ aq.txRing.head ∧ ∃ room, aq' = asqCleanOne room aq

/-- The loop of `i40e_aq_asq_clean` comes to its end. -/
def AsqCleanEnds (aq : Aq) : Prop := Acc (fun aq' aq => AsqTurn aq aq') aq

/-- `I40E_PF_ARQH_ARQH_MASK`. -/
def arqhMask : Nat := 0x3ff

/-- One iteration of the loop of `i40e_aq_arq_clean`, on the receive ring.
`i40e_aq_arq_process` reads the flags and the opcode of the event and returns: it handles
no opcode. -/
def arqCleanOne (ring : AqRing) : AqRing :=
  let i := ring.nextToClean
  { ring with nextToClean := if i + 1 < ring.numDesc then i + 1 else 0 }

def ArqTurn (ring ring' : AqRing) : Prop :=
  ring.nextToClean ≠ ring.head &&& arqhMask ∧ ring' = arqCleanOne ring

/-- The loop of `i40e_aq_arq_clean` comes to its end. -/
def ArqCleanEnds (ring : AqRing) : Prop := Acc (fun ring' ring => ArqTurn ring ring') ring

/-! ## Both walk the ring -/

theorem asqWalk (n head : Nat) :
    Ring.Walk AsqTurn (fun aq => aq.txRing.nextToClean) n head
      fun aq => aq.txRing.numDesc = n ∧ aq.txRing.head = head where
  moves := by
    rintro aq _ ⟨rfl, rfl⟩ ⟨left, room, rfl⟩
    rw [asqCleanOne_ring]
    exact ⟨left, ⟨rfl, rfl⟩, rfl⟩
  goes := by
    rintro aq ⟨rfl, rfl⟩ left
    exact ⟨asqCleanOne 0 aq, left, 0, rfl⟩

theorem arqWalk (n head : Nat) :
    Ring.Walk ArqTurn AqRing.nextToClean n (head &&& arqhMask) fun ring => ring.numDesc = n ∧ ring.head = head where
  moves := by
    rintro ring _ ⟨rfl, rfl⟩ ⟨left, rfl⟩
    exact ⟨left, ⟨rfl, rfl⟩, rfl⟩
  goes := by
    rintro ring ⟨rfl, rfl⟩ left
    exact ⟨arqCleanOne ring, left, rfl⟩

theorem asqCleanEnds_iff {aq : Aq} (clean : aq.txRing.nextToClean < aq.txRing.numDesc) :
    AsqCleanEnds aq ↔ aq.txRing.head < aq.txRing.numDesc :=
  (asqWalk _ _).ends_iff ⟨rfl, rfl⟩ clean

theorem arqCleanEnds_iff {ring : AqRing} (clean : ring.nextToClean < ring.numDesc) :
    ArqCleanEnds ring ↔ ring.head &&& arqhMask < ring.numDesc :=
  (arqWalk _ _).ends_iff ⟨rfl, rfl⟩ clean

theorem asqCleanLoop_done (room todo : Nat) {aq : Aq} (clean : aq.txRing.nextToClean < aq.txRing.numDesc)
    (within : aq.txRing.head < aq.txRing.numDesc)
    (enough : Ring.occupied aq.txRing.numDesc aq.txRing.nextToClean aq.txRing.head ≤ todo) :
    (asqCleanLoop room todo aq).txRing.nextToClean = aq.txRing.head := by
  induction todo generalizing aq with
  | zero =>
      by_contra left
      rw [Ring.occupied_pop clean within left] at enough
      omega
  | succ todo ih =>
      simp only [asqCleanLoop]
      split
      case isTrue done => exact done
      case isFalse left =>
          rw [Ring.occupied_pop clean within left] at enough
          have cleaned := asqCleanOne_ring room aq
          have result := @ih (asqCleanOne room aq)
          rw [cleaned] at result
          exact result (Ring.next_lt (by omega) _) within (by dsimp only; omega)

/-- Where the send loop ends, as many turns as there are descriptors are enough, and the
ring is clean up to the head. -/
theorem i40eAqAsqClean_done {aq : Aq} (clean : aq.txRing.nextToClean < aq.txRing.numDesc) (ends : AsqCleanEnds aq)
    (room : Nat) : (i40eAqAsqClean room aq).txRing.nextToClean = aq.txRing.head := by
  have within := (asqCleanEnds_iff clean).1 ends
  exact asqCleanLoop_done room _ clean within (Nat.le_of_lt (Ring.occupied_lt clean within))

/-- **The loops end exactly if the head is in the ring.** For the send loop that is the
whole register, for the receive loop its lower ten bits. -/
theorem aq_clean_ends_iff {aq : Aq} {rxRing : AqRing} (sendClean : aq.txRing.nextToClean < aq.txRing.numDesc)
    (receiveClean : rxRing.nextToClean < rxRing.numDesc) :
    (AsqCleanEnds aq ↔ aq.txRing.head < aq.txRing.numDesc) ∧
      (ArqCleanEnds rxRing ↔ rxRing.head &&& arqhMask < rxRing.numDesc) :=
  ⟨asqCleanEnds_iff sendClean, arqCleanEnds_iff receiveClean⟩

/-- A ring of `I40E_AQ_LEN` descriptors with nothing to do but what the head says. -/
def sampleAqRing (head : Nat) : AqRing :=
  { numDesc := 128, desc := fun _ => ⟨0, .queueShutdown, 0, 0, 0, 0, []⟩, bufs := fun _ => [], dma := fun _ => 0
    nextToUse := 0, nextToClean := 0, head, tail := 0 }

def sampleAq (head : Nat) : Aq := { sampleQueue.aq with txRing := sampleAqRing head }

theorem aq_clean_ends_iff_sample : AsqCleanEnds (sampleAq 5) ∧ ArqCleanEnds (sampleAqRing 0x405) := by
  have both := @aq_clean_ends_iff (sampleAq 5) (sampleAqRing 0x405) (by decide) (by decide)
  exact ⟨both.1.2 (by decide), both.2.2 (by decide)⟩

/-- The device is gone: the register reads as all ones. -/
theorem aq_clean_endless : (sampleAq 0xffffffff).txRing.nextToClean < (sampleAq 0xffffffff).txRing.numDesc ∧
    (sampleAqRing 0xffffffff).nextToClean < (sampleAqRing 0xffffffff).numDesc ∧
    ¬ AsqCleanEnds (sampleAq 0xffffffff) ∧ ¬ ArqCleanEnds (sampleAqRing 0xffffffff) := by
  refine ⟨by decide, by decide, ?_, ?_⟩
  · rw [asqCleanEnds_iff (by decide)]
    decide
  · rw [arqCleanEnds_iff (by decide)]
    decide

end Ufp.Dev.AdminClean
