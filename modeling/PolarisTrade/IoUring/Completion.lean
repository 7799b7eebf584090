import Mathlib

/-!
# Receive completions

What one completion means for the slot and for the request, and the count of armed receives
with its starved gate.  A single-shot receive ends with its completion; a multishot receive
ends with the completion that lacks `F_MORE`.
-/

namespace IoUring

inductive RecvPath where
  | legacy
  | bufRing
  | multishot
  deriving DecidableEq

/-- User-data tags. -/
inductive UserData where
  | recv
  | provide
  | cancel
  | probe
  deriving DecidableEq

/-- One entry of the completion queue. -/
structure Cqe where
  userData : UserData
  result : ℤ
  flags : BitVec 32
  deriving DecidableEq

/-- `IORING_CQE_F_MORE` -/
def more (flags : BitVec 32) : Bool := flags &&& 2 != 0

/-- `IORING_CQE_F_BUFFER`, and the buffer id above it -/
def bufferSelect (flags : BitVec 32) : Option ℕ :=
  if flags &&& 1 != 0 then some (flags >>> 16).toNat else none

def enobufs : ℤ := 105

def eio : ℤ := 5

/-- Meaning of one receive completion; `rearm` when the request ended with it. -/
inductive Completion where
  | data (slot len : ℕ) (rearm : Bool)
  | truncated (slot : ℕ) (rearm : Bool)
  | empty (rearm : Bool)
  | noBuffers
  | failed (errno : ℤ)
  deriving DecidableEq

def classify (res : ℤ) (flags : BitVec 32) (slotSize : ℕ) (multishot : Bool) : Completion :=
  if res < 0 then
    if res = -enobufs then .noBuffers else .failed (-res)
  else
    let rearm := !(multishot && more flags)
    match bufferSelect flags with
    | none => if res = 0 then .empty rearm else .failed eio
    | some slot =>
        let len := res.natAbs
        if slotSize < len then .truncated slot rearm else .data slot len rearm

/-- The completion after which nothing follows on its request. -/
def Cqe.terminal (cqe : Cqe) (multishot : Bool) : Bool := !(multishot && more cqe.flags)

/-- The slot a receive completion hands back. -/
def Cqe.slot (cqe : Cqe) : Option ℕ :=
  if cqe.userData = .recv then bufferSelect cqe.flags else none

/-- The group had no buffer for a receive. -/
def Cqe.isNoBuffers (cqe : Cqe) : Bool := cqe.userData = .recv ∧ cqe.result = -enobufs

/-! ## Armed receives -/

/-- Armed receive count and starved gate. -/
structure Fleet where
  depth : ℕ
  armed : ℕ
  starved : Bool

namespace Fleet

def new (depth : ℕ) : Fleet where
  depth := depth
  armed := 0
  starved := false

def wanted (fleet : Fleet) : ℕ := if fleet.starved then 0 else fleet.depth - fleet.armed

/-- One request fewer when it `ended`. -/
def settle (fleet : Fleet) (ended : Bool) : Fleet :=
  if ended then { fleet with armed := fleet.armed - 1 } else fleet

def complete (fleet : Fleet) : Completion → Fleet
  | .data _ _ rearm => fleet.settle rearm
  | .truncated _ rearm => fleet.settle rearm
  | .empty rearm => fleet.settle rearm
  | .noBuffers => { fleet with starved := true }.settle true
  | .failed _ => fleet.settle true

def refilled (fleet : Fleet) (slots : ℕ) : Fleet :=
  if 0 < slots then { fleet with starved := false } else fleet

@[simp] theorem depth_settle (fleet : Fleet) (ended : Bool) :
    (fleet.settle ended).depth = fleet.depth := by
  cases ended <;> rfl

@[simp] theorem starved_settle (fleet : Fleet) (ended : Bool) :
    (fleet.settle ended).starved = fleet.starved := by
  cases ended <;> rfl

theorem armed_settle (fleet : Fleet) (ended : Bool) :
    (fleet.settle ended).armed = fleet.armed - ended.toNat := by
  cases ended <;> rfl

@[simp] theorem depth_complete (fleet : Fleet) (completion : Completion) :
    (fleet.complete completion).depth = fleet.depth := by
  cases completion <;> simp only [complete, depth_settle]

@[simp] theorem depth_refilled (fleet : Fleet) (slots : ℕ) :
    (fleet.refilled slots).depth = fleet.depth := by
  unfold refilled
  split
  · rfl
  · rfl

@[simp] theorem armed_refilled (fleet : Fleet) (slots : ℕ) :
    (fleet.refilled slots).armed = fleet.armed := by
  unfold refilled
  split
  · rfl
  · rfl

theorem starved_complete (fleet : Fleet) (completion : Completion) :
    (fleet.complete completion).starved = (fleet.starved || completion = .noBuffers) := by
  cases completion <;> simp [complete]

/-- Nothing more is wanted once what is wanted is armed. -/
theorem wanted_add_wanted (fleet : Fleet) :
    wanted { fleet with armed := fleet.armed + fleet.wanted } = 0 := by
  unfold wanted
  split
  · rfl
  · dsimp only
    omega

end Fleet

/-! ## What `classify` makes of a completion -/

variable {res : ℤ} {flags : BitVec 32} {slotSize : ℕ} {multishot : Bool}

theorem classify_of_neg (h : res < 0) :
    classify res flags slotSize multishot
      = if res = -enobufs then .noBuffers else .failed (-res) := if_pos h

theorem classify_of_none (h : 0 ≤ res) (hnone : bufferSelect flags = none) :
    classify res flags slotSize multishot
      = if res = 0 then .empty !(multishot && more flags) else .failed eio := by
  rw [classify, if_neg h.not_gt, hnone]

theorem classify_of_some (h : 0 ≤ res) {slot : ℕ} (hsome : bufferSelect flags = some slot) :
    classify res flags slotSize multishot
      = if slotSize < res.natAbs then .truncated slot !(multishot && more flags)
        else .data slot res.natAbs !(multishot && more flags) := by
  rw [classify, if_neg h.not_gt, hsome]

theorem classify_eq_noBuffers_iff :
    classify res flags slotSize multishot = .noBuffers ↔ res = -enobufs := by
  rcases lt_or_ge res 0 with hneg | hnonneg
  · rw [classify_of_neg hneg]
    split_ifs with h <;> simp [h]
  · have hne : res ≠ -enobufs := by
      unfold enobufs
      omega
    cases hselect : bufferSelect flags with
    | none =>
        rw [classify_of_none hnonneg hselect]
        split_ifs <;> simp [hne]
    | some slot =>
        rw [classify_of_some hnonneg hselect]
        split_ifs <;> simp [hne]

/-- The kernel's side of a receive: an error ends the request, and a datagram that is not
empty comes in a buffer. -/
def Cqe.Orderly (cqe : Cqe) : Prop :=
  (cqe.result < 0 → more cqe.flags = false) ∧
    (0 < cqe.result → (bufferSelect cqe.flags).isSome)

instance (cqe : Cqe) : Decidable cqe.Orderly := inferInstanceAs (Decidable (_ ∧ _))

/-- An orderly completion takes its request off the count when it is the last one. -/
theorem Fleet.armed_complete_classify (fleet : Fleet) {cqe : Cqe} (h : cqe.Orderly) :
    (fleet.complete (classify cqe.result cqe.flags slotSize multishot)).armed
      = fleet.armed - (cqe.terminal multishot).toNat := by
  obtain ⟨herror, hdata⟩ := h
  unfold Cqe.terminal
  rcases lt_or_ge cqe.result 0 with hneg | hnonneg
  · rw [classify_of_neg hneg, herror hneg]
    split_ifs <;> simp [complete, armed_settle]
  · cases hselect : bufferSelect cqe.flags with
    | none =>
        have hzero : cqe.result = 0 := by
          by_contra hne
          have hsome := hdata (by omega)
          rw [hselect] at hsome
          cases hsome
        rw [classify_of_none hnonneg hselect, if_pos hzero, complete, armed_settle]
    | some slot =>
        rw [classify_of_some hnonneg hselect]
        split_ifs
        · rw [complete, armed_settle]
        · rw [complete, armed_settle]

end IoUring
