import PolarisTrade.MoldUdp.Ab
import PolarisTrade.MoldUdp.Gap
import PolarisTrade.MoldUdp.Reassembly
import PolarisTrade.MoldUdp.Wire

/-!
# The receiver's state and its construction

`Inner` is everything the receiver keeps between calls.  Legs are the environment:
of a leg itself only the capacity of its receive pool is kept, which construction
checks.
-/

namespace MoldUdp

open Transport Word

/-- Ring capacity of both the reassembler and the arbiter window. -/
def ringCapacity : ℕ := 4096

theorem ringCapacity_pos : 0 < ringCapacity := by norm_num [ringCapacity]

theorem ringCapacity_lt : ringCapacity < 2 ^ 64 := by norm_num [ringCapacity]

def maxInflightBurst : ℕ := 64

def minLegPoolCapacity : ℕ := ringCapacity + maxInflightBurst

/-- Drained item waiting for the caller. -/
inductive ReadyItem (F : Type) where
  | inline (sequence : ℕ) (streamId : UInt8) (offset len : ℕ)
  | view (view : MessageView F) (sequence : ℕ) (streamId : UInt8)
  | event (ev : MoldUdpEvent)
  | gap

/-- What a receive call hands back; a borrowed frame is its bytes. -/
inductive MoldUdpOutcome (F : Type) where
  | frame (payload : List UInt8) (sequence : ℕ) (streamId : UInt8)
  | owned (view : MessageView F) (sequence : ℕ) (streamId : UInt8)
  | event (ev : MoldUdpEvent)

structure Leg where
  poolCapacity : ℕ

/-- Sequence, byte position and length of one message block. -/
structure Block where
  seq : ℕ
  offset : ℕ
  len : ℕ

structure Inner (F : Type) where
  legs : List Leg
  recoveryStream : UInt8
  session : Option SessionId
  reassembler : SequenceReassembler (MessageView F)
  nextUnseen : ℕ
  gapHandler : GapRequestHandler
  arbiter : Option AbArbiter
  maxRerequestsPerGapPerSec : UInt32
  ready : List (ReadyItem F)
  current : Option (ReadyItem F)
  pendingDatagrams : List (UInt8 × Held F)
  backing : Backing F
  inlinePending : ℕ
  seqAnchored : Bool
  recvBatch : List F
  blocks : List Block

variable {F : Type}

/-- First leg whose pool is too small. -/
def undersizedLeg (legs : List Leg) : Option (ℕ × ℕ) :=
  ((legs.map Leg.poolCapacity).zipIdx.find? fun p ↦ p.1 < minLegPoolCapacity).map
    fun p ↦ (p.2, p.1)

/-- State of a fresh receiver over `legs`, before any datagram. -/
def Inner.fresh (cfg : MoldUdpReceiverConfig) (legs : List Leg) : Inner F :=
  let windowMs := min (cfg.gapConfirmWindow / 1000000) max64
  let arbiter :=
    if 1 < legs.length then
      some (AbArbiter.new legs.length ringCapacity ringCapacity_pos windowMs)
    else none
  let reassembler := SequenceReassembler.new ringCapacity ringCapacity_pos
  let (reassembler, arbiter) :=
    match cfg.startSequence with
    | some start =>
        (reassembler.resetExpected start.toNat, arbiter.map fun a ↦ a.rebase start.toNat)
    | none => (reassembler, arbiter)
  { legs := legs
    recoveryStream := UInt8.ofNat legs.length
    session := none
    reassembler := reassembler
    nextUnseen := reassembler.expectedNext
    gapHandler := .new
    arbiter := arbiter
    maxRerequestsPerGapPerSec := cfg.maxRerequestsPerGapPerSec
    ready := []
    current := none
    pendingDatagrams := []
    backing := .empty
    inlinePending := 0
    seqAnchored := cfg.startSequence.isSome
    recvBatch := []
    blocks := [] }

/-! ## The fresh state -/

section Fresh

variable (cfg : MoldUdpReceiverConfig) (legs : List Leg)

theorem lookup_fresh (n : ℕ) : (Inner.fresh cfg legs : Inner F).reassembler.lookup n = none := by
  unfold Inner.fresh
  cases cfg.startSequence <;>
    exact SequenceReassembler.lookup_new ringCapacity n ringCapacity_pos

theorem wellPlaced_fresh : (Inner.fresh cfg legs : Inner F).reassembler.WellPlaced := by
  unfold Inner.fresh
  cases cfg.startSequence <;>
    exact SequenceReassembler.wellPlaced_new ringCapacity ringCapacity_pos

theorem capacity_fresh : (Inner.fresh cfg legs : Inner F).reassembler.capacity = ringCapacity := by
  unfold Inner.fresh
  cases cfg.startSequence <;> rfl

theorem nextUnseen_fresh : (Inner.fresh cfg legs : Inner F).nextUnseen =
    (Inner.fresh cfg legs : Inner F).reassembler.expectedNext := rfl

theorem expectedNext_fresh {start : UInt64} (hstart : cfg.startSequence = some start) :
    (Inner.fresh cfg legs : Inner F).reassembler.expectedNext = start.toNat := by
  unfold Inner.fresh
  rw [hstart]
  rfl

theorem expectedNext_fresh_lt :
    (Inner.fresh cfg legs : Inner F).reassembler.expectedNext < 2 ^ 64 := by
  unfold Inner.fresh
  cases cfg.startSequence with
  | none => norm_num [SequenceReassembler.new]
  | some start => exact start.toNat_lt

/-- A fresh arbiter has seen and staged nothing; its window starts at the configured start. -/
theorem arbiter_fresh {a : AbArbiter} (ha : a ∈ (Inner.fresh cfg legs : Inner F).arbiter) :
    a.windowLen = ringCapacity ∧
      a.windowBase = (cfg.startSequence.map UInt64.toNat).getD 0 ∧
      (∀ s, ¬ a.Seen s) ∧ ∀ s, s ∉ a.pendingGapConfirms := by
  unfold Inner.fresh at ha
  by_cases hlegs : 1 < legs.length
  · cases hstart : cfg.startSequence with
    | none =>
        simp only [hstart, if_pos hlegs] at ha
        cases ha
        exact ⟨rfl, rfl, by simp [AbArbiter.Seen, AbArbiter.new], by simp [AbArbiter.new]⟩
    | some start =>
        simp only [hstart, if_pos hlegs] at ha
        cases ha
        exact ⟨rfl, rfl, AbArbiter.not_seen_rebase _ _, by simp [AbArbiter.rebase]⟩
  · cases hstart : cfg.startSequence <;> simp [hstart, hlegs] at ha

end Fresh

def fromLegs (cfg : MoldUdpReceiverConfig) (legs : List Leg) : Except MoldUdpError (Inner F) :=
  if legs.length = 0 ∨ 255 < legs.length then .error (.legCount legs.length)
  else match undersizedLeg legs with
    | some (leg, capacity) => .error (.poolTooSmall leg capacity minLegPoolCapacity)
    | none => .ok (Inner.fresh cfg legs)

theorem fromLegs_ok {cfg : MoldUdpReceiverConfig} {legs : List Leg} {inner : Inner F}
    (h : fromLegs cfg legs = .ok inner) : inner = Inner.fresh cfg legs := by
  unfold fromLegs at h
  split at h
  · cases h
  · split at h
    · cases h
    · exact (Except.ok.inj h).symm

/-! ## Sample receivers -/

theorem length_sampleName : (List.replicate 10 (65 : UInt8)).length = 10 := rfl

/-- Session name used on concrete packets. -/
def sampleSession : SessionId := ⟨List.replicate 10 65, length_sampleName⟩

/-- Receiver of one leg, expecting 1 first. -/
def sampleOneLeg : Inner (List UInt8) := .fresh { startSequence := some 1 } [⟨minLegPoolCapacity⟩]

/-- Receiver of two legs, expecting 1 first. -/
def sampleTwoLegs : Inner (List UInt8) :=
  .fresh { startSequence := some 1 } [⟨minLegPoolCapacity⟩, ⟨minLegPoolCapacity⟩]

end MoldUdp
