import PolarisTrade.Lib.SortedMap
import PolarisTrade.MoldUdp.Types

/-!
# The A/B stream arbiter

A sliding bitmap window over `[windowBase, windowBase + windowLen)`, addressed by
`seq % windowLen`, and the gap candidates waiting for their confirm window.  `Seen`
reads the bitmap as a set of sequences; each operation is described by what it does
to `Seen`, to `windowBase` and to the candidates.
-/

namespace MoldUdp

open Transport Word

inductive ArbiterVerdict where
  | forward
  | duplicate
  | outOfWindow
  deriving DecidableEq

structure StreamStats where
  packetsWon : UInt64 := 0
  packetsLostToPeer : UInt64 := 0
  lastRecvAt : Option Instant := none
  maxSeqSeen : ℕ := 0
  sequencesBehindLeader : ℕ := 0

structure AbArbiter where
  windowBase : ℕ
  windowBits : ℕ → Bool
  windowLen : ℕ
  windowLen_pos : 0 < windowLen
  streamStats : List StreamStats
  gapConfirmWindowMs : ℕ
  pendingGapConfirms : SortedMap ℕ Instant

namespace AbArbiter

def new (streamCount windowCapacity : ℕ) (hcapacity : 0 < windowCapacity)
    (gapConfirmWindowMs : ℕ) : AbArbiter where
  windowBase := 0
  windowBits _ := false
  windowLen := windowCapacity
  windowLen_pos := hcapacity
  streamStats := List.replicate streamCount {}
  gapConfirmWindowMs := gapConfirmWindowMs
  pendingGapConfirms := .empty

def idx (a : AbArbiter) (seq : ℕ) : ℕ := seq % a.windowLen

def rebase (a : AbArbiter) (base : ℕ) : AbArbiter :=
  { a with
    windowBase := base
    windowBits := fun _ ↦ false
    pendingGapConfirms := .empty }

def noteMissing (now : Instant) (a : AbArbiter) (seq : ℕ) : AbArbiter :=
  if a.windowBase ≤ seq ∧ seq < wrappingAdd a.windowBase a.windowLen ∧
      a.windowBits (a.idx seq) = true then a
  else { a with pendingGapConfirms := a.pendingGapConfirms.orInsert seq now }

def noteMissingRange (a : AbArbiter) (start endExclusive : ℕ) (now : Instant) : AbArbiter :=
  (List.range' start (endExclusive - start)).foldl (noteMissing now) a

def recomputeLeaderLag (a : AbArbiter) : AbArbiter :=
  let leader := (a.streamStats.map StreamStats.maxSeqSeen).foldl max 0
  { a with
    streamStats := a.streamStats.map fun s ↦
      { s with sequencesBehindLeader := leader - s.maxSeqSeen } }

def recordDelivery (a : AbArbiter) (streamId : UInt8) (seq : ℕ) (now : Instant)
    (lostRace : Bool) : AbArbiter :=
  if streamId.toNat < a.streamStats.length then
    recomputeLeaderLag
      { a with
        streamStats := a.streamStats.modify streamId.toNat fun s ↦
          { s with
            packetsWon := if lostRace then s.packetsWon else s.packetsWon + 1
            packetsLostToPeer :=
              if lostRace then s.packetsLostToPeer + 1 else s.packetsLostToPeer
            lastRecvAt := some now
            maxSeqSeen := max s.maxSeqSeen seq } }
  else a

/-- Push the window one position on; a position never delivered becomes a candidate. -/
def evict (now : Instant) (a : AbArbiter) : AbArbiter :=
  { a with
    pendingGapConfirms :=
      if a.windowBits (a.idx a.windowBase) then a.pendingGapConfirms
      else a.pendingGapConfirms.orInsert a.windowBase now
    windowBits := Function.update a.windowBits (a.idx a.windowBase) false
    windowBase := wrappingAdd a.windowBase 1 }

/-- `while window_base < target_base`, one eviction a round. -/
def slideTo (a : AbArbiter) (targetBase : ℕ) (now : Instant) : AbArbiter :=
  (evict now)^[targetBase - a.windowBase] a

def observe (a : AbArbiter) (streamId : UInt8) (seq : ℕ) (now : Instant) :
    ArbiterVerdict × AbArbiter :=
  if seq < a.windowBase then
    if a.pendingGapConfirms.contains seq then
      (.forward, recordDelivery { a with pendingGapConfirms := a.pendingGapConfirms.erase seq }
        streamId seq now false)
    else (.outOfWindow, a)
  else
    let a :=
      if wrappingAdd a.windowBase a.windowLen ≤ seq then
        a.slideTo (wrappingAdd (seq - a.windowLen) 1) now
      else a
    if a.windowBits (a.idx seq) then
      (.duplicate, a.recordDelivery streamId seq now true)
    else
      (.forward, recordDelivery
        { a with
          windowBits := Function.update a.windowBits (a.idx seq) true
          pendingGapConfirms := a.pendingGapConfirms.erase seq }
        streamId seq now false)

/-- A candidate first noticed at `firstSeen` has waited out the confirm window. -/
def graceElapsed (a : AbArbiter) (now firstSeen : Instant) : Bool :=
  a.gapConfirmWindowMs * 1000000 ≤ now - firstSeen

def confirmedGaps (a : AbArbiter) (now : Instant) : List ℕ × AbArbiter :=
  let confirmed := (a.pendingGapConfirms.entries.filter fun p ↦ a.graceElapsed now p.2).map Prod.fst
  (confirmed, { a with pendingGapConfirms := confirmed.foldl SortedMap.erase a.pendingGapConfirms })

/-! ## The bitmap as a set -/

/-- `s` is inside the window and its bit is set. -/
def Seen (a : AbArbiter) (s : ℕ) : Prop :=
  a.windowBase ≤ s ∧ s < a.windowBase + a.windowLen ∧ a.windowBits (a.idx s) = true

instance (a : AbArbiter) (s : ℕ) : Decidable (a.Seen s) :=
  inferInstanceAs (Decidable (_ ∧ _ ∧ _))

/-- Whether the next arrival of `s` is forwarded. -/
def Takes (a : AbArbiter) (s : ℕ) : Prop :=
  (s < a.windowBase ∧ s ∈ a.pendingGapConfirms) ∨ (a.windowBase ≤ s ∧ ¬ a.Seen s)

instance (a : AbArbiter) (s : ℕ) : Decidable (a.Takes s) :=
  inferInstanceAs (Decidable (_ ∨ _))

section Window

variable (a : AbArbiter) (streamId : UInt8) (seq : ℕ) (now : Instant) (lost : Bool)

@[simp] theorem windowBase_recordDelivery :
    (a.recordDelivery streamId seq now lost).windowBase = a.windowBase := by
  unfold recordDelivery
  split <;> rfl

@[simp] theorem windowBits_recordDelivery :
    (a.recordDelivery streamId seq now lost).windowBits = a.windowBits := by
  unfold recordDelivery
  split <;> rfl

@[simp] theorem windowLen_recordDelivery :
    (a.recordDelivery streamId seq now lost).windowLen = a.windowLen := by
  unfold recordDelivery
  split <;> rfl

@[simp] theorem pending_recordDelivery :
    (a.recordDelivery streamId seq now lost).pendingGapConfirms = a.pendingGapConfirms := by
  unfold recordDelivery
  split <;> rfl

@[simp] theorem gapConfirmWindowMs_recordDelivery :
    (a.recordDelivery streamId seq now lost).gapConfirmWindowMs = a.gapConfirmWindowMs := by
  unfold recordDelivery
  split <;> rfl

@[simp] theorem seen_recordDelivery (s : ℕ) :
    (a.recordDelivery streamId seq now lost).Seen s ↔ a.Seen s := by
  simp [Seen, idx]

end Window

@[simp] theorem not_seen_rebase (a : AbArbiter) (base s : ℕ) : ¬ (a.rebase base).Seen s := by
  simp [Seen, rebase]

/-! ## Sliding -/

/-- Two sequences of one window share an index only when equal. -/
theorem idx_inj {a : AbArbiter} {s t base : ℕ} (hs : base ≤ s) (hs' : s < base + a.windowLen)
    (ht : base ≤ t) (ht' : t < base + a.windowLen) (h : a.idx s = a.idx t) : s = t := by
  unfold idx at h
  have hmod : s ≡ t [MOD a.windowLen] := h
  rcases Nat.le_total s t with hst | hts
  · have hdvd : a.windowLen ∣ t - s := (Nat.modEq_iff_dvd' hst).mp hmod
    have hzero := Nat.eq_zero_of_dvd_of_lt hdvd (by omega)
    omega
  · have hdvd : a.windowLen ∣ s - t := (Nat.modEq_iff_dvd' hts).mp hmod.symm
    have hzero := Nat.eq_zero_of_dvd_of_lt hdvd (by omega)
    omega

theorem seen_evict {a : AbArbiter} {now : Instant} (hbase : a.windowBase + 1 < 2 ^ 64) (s : ℕ) :
    (a.evict now).Seen s ↔ a.Seen s ∧ s ≠ a.windowBase := by
  have hpos := a.windowLen_pos
  have hbase' : (a.evict now).windowBase = a.windowBase + 1 := wrappingAdd_of_lt hbase
  have hlen : (a.evict now).windowLen = a.windowLen := rfl
  have hbits : (a.evict now).windowBits =
    Function.update a.windowBits (a.idx a.windowBase) false := rfl
  have hidx : (a.evict now).idx s = a.idx s := rfl
  unfold Seen
  rw [hbase', hlen, hbits, hidx]
  constructor
  · rintro ⟨hlo, hhi, hbit⟩
    have hne : a.idx s ≠ a.idx a.windowBase := by
      intro h
      rw [h, Function.update_self] at hbit
      cases hbit
    rw [Function.update_of_ne hne] at hbit
    refine ⟨⟨by omega, ?_, hbit⟩, by omega⟩
    by_contra hout
    have heq : s = a.windowBase + a.windowLen := by omega
    exact hne (by simp [idx, heq])
  · rintro ⟨⟨hlo, hhi, hbit⟩, hne⟩
    refine ⟨by omega, by omega, ?_⟩
    have hidx : a.idx s ≠ a.idx a.windowBase := fun h ↦
      hne (idx_inj hlo hhi le_rfl (by omega) h)
    rwa [Function.update_of_ne hidx]

theorem mem_pending_evict {a : AbArbiter} {now : Instant} (s : ℕ) :
    s ∈ (a.evict now).pendingGapConfirms ↔
      s ∈ a.pendingGapConfirms ∨ (s = a.windowBase ∧ ¬ a.Seen s) := by
  have hpos := a.windowLen_pos
  have hseen : a.Seen a.windowBase ↔ a.windowBits (a.idx a.windowBase) = true := by
    simp [Seen, hpos]
  unfold evict
  simp only
  split
  · next hbit =>
      constructor
      · exact Or.inl
      · rintro (h | ⟨rfl, h⟩)
        · exact h
        · exact (h (hseen.mpr hbit)).elim
  · next hbit =>
      rw [SortedMap.mem_orInsert]
      constructor
      · rintro (rfl | h)
        · exact Or.inr ⟨rfl, fun h ↦ hbit (hseen.mp h)⟩
        · exact Or.inl h
      · rintro (h | ⟨h, -⟩)
        · exact Or.inr h
        · exact Or.inl h

/-- `n` evictions: the window moves `n` on, what leaves it unseen becomes a candidate. -/
theorem evict_iterate (now : Instant) (n : ℕ) {a : AbArbiter} (hfit : a.windowBase + n < 2 ^ 64) :
    ((evict now)^[n] a).windowBase = a.windowBase + n ∧
    ((evict now)^[n] a).windowLen = a.windowLen ∧
    ((evict now)^[n] a).gapConfirmWindowMs = a.gapConfirmWindowMs ∧
    (∀ s, ((evict now)^[n] a).Seen s ↔ a.Seen s ∧ a.windowBase + n ≤ s) ∧
    ∀ s, s ∈ ((evict now)^[n] a).pendingGapConfirms ↔ s ∈ a.pendingGapConfirms ∨
      (a.windowBase ≤ s ∧ s < a.windowBase + n ∧ ¬ a.Seen s) := by
  induction n generalizing a with
  | zero =>
      refine ⟨rfl, rfl, rfl, fun s ↦ ?_, fun s ↦ ?_⟩
      · exact ⟨fun h ↦ ⟨h, h.1⟩, And.left⟩
      · constructor
        · exact Or.inl
        · rintro (h | h)
          · exact h
          · omega
  | succ n ih =>
      have hone : a.windowBase + 1 < 2 ^ 64 := by omega
      have hbase : (a.evict now).windowBase = a.windowBase + 1 := wrappingAdd_of_lt hone
      obtain ⟨h₁, h₂, h₃, h₄, h₅⟩ := ih (a := a.evict now) (by omega)
      rw [Function.iterate_succ_apply]
      refine ⟨by omega, h₂, h₃, fun s ↦ ?_, fun s ↦ ?_⟩
      · rw [h₄, seen_evict hone, hbase]
        constructor
        · rintro ⟨⟨hs, -⟩, hle⟩
          exact ⟨hs, by omega⟩
        · rintro ⟨hs, hle⟩
          exact ⟨⟨hs, by omega⟩, by omega⟩
      · rw [h₅, mem_pending_evict, seen_evict hone, hbase]
        constructor
        · rintro ((h | ⟨rfl, h⟩) | ⟨hlo, hhi, h⟩)
          · exact Or.inl h
          · exact Or.inr ⟨le_rfl, by omega, h⟩
          · exact Or.inr ⟨by omega, by omega, fun hs ↦ h ⟨hs, by omega⟩⟩
        · rintro (h | ⟨hlo, hhi, h⟩)
          · exact Or.inl (Or.inl h)
          · by_cases hs : s = a.windowBase
            · exact Or.inl (Or.inr ⟨hs, h⟩)
            · exact Or.inr ⟨by omega, by omega, fun hs' ↦ h hs'.1⟩

/-- The sliding part of `observe`, before the bit of `seq` is read. -/
def slide (a : AbArbiter) (seq : ℕ) (now : Instant) : AbArbiter :=
  if wrappingAdd a.windowBase a.windowLen ≤ seq then
    a.slideTo (wrappingAdd (seq - a.windowLen) 1) now
  else a

theorem slide_eq_iterate {a : AbArbiter} {seq : ℕ} (now : Instant) (hle : a.windowBase ≤ seq)
    (hseq : seq < 2 ^ 64) (hlen : a.windowLen < 2 ^ 64) :
    a.slide seq now =
      (evict now)^[max a.windowBase (seq + 1 - a.windowLen) - a.windowBase] a := by
  have hpos := a.windowLen_pos
  have htarget : wrappingAdd (seq - a.windowLen) 1 = seq - a.windowLen + 1 :=
    wrappingAdd_of_lt (by omega)
  unfold slide slideTo
  rw [htarget]
  by_cases hwrap : a.windowBase + a.windowLen < 2 ^ 64
  · rw [wrappingAdd_of_lt hwrap]
    split
    · next hbeyond =>
        congr 1
        omega
    · next hinside =>
        have hzero : max a.windowBase (seq + 1 - a.windowLen) - a.windowBase = 0 := by omega
        rw [hzero, Function.iterate_zero_apply]
  · -- the window reaches past the last word, so there is nothing to slide to
    have hzero : max a.windowBase (seq + 1 - a.windowLen) - a.windowBase = 0 := by omega
    have hzero' : seq - a.windowLen + 1 - a.windowBase = 0 := by omega
    rw [hzero, hzero']
    exact ite_self _

/-! ## Observing -/

/-- `a'` is `a` after forwarding `seq`. -/
structure Forwarded (a a' : AbArbiter) (seq : ℕ) : Prop where
  base : a'.windowBase = max a.windowBase (seq + 1 - a.windowLen)
  len : a'.windowLen = a.windowLen
  windowMs : a'.gapConfirmWindowMs = a.gapConfirmWindowMs
  seen : ∀ s, a'.Seen s ↔ (a.Seen s ∧ a'.windowBase ≤ s) ∨ (s = seq ∧ a.windowBase ≤ seq)
  pending : ∀ s, s ∈ a'.pendingGapConfirms ↔
    (s ∈ a.pendingGapConfirms ∨ (a.windowBase ≤ s ∧ s < a'.windowBase ∧ ¬ a.Seen s)) ∧ s ≠ seq

/-- `a'` is `a` up to its counters. -/
structure Unmoved (a a' : AbArbiter) : Prop where
  base : a'.windowBase = a.windowBase
  len : a'.windowLen = a.windowLen
  windowMs : a'.gapConfirmWindowMs = a.gapConfirmWindowMs
  seen : ∀ s, a'.Seen s ↔ a.Seen s
  pending : a'.pendingGapConfirms = a.pendingGapConfirms

theorem observe_of_lt {a : AbArbiter} {seq : ℕ} (streamId : UInt8) (now : Instant)
    (hlt : seq < a.windowBase) :
    a.observe streamId seq now =
      if a.pendingGapConfirms.contains seq then
        (.forward, recordDelivery { a with pendingGapConfirms := a.pendingGapConfirms.erase seq }
          streamId seq now false)
      else (.outOfWindow, a) := by
  rw [observe, if_pos hlt]

theorem observe_of_le {a : AbArbiter} {seq : ℕ} (streamId : UInt8) (now : Instant)
    (hle : a.windowBase ≤ seq) :
    a.observe streamId seq now =
      if (a.slide seq now).windowBits ((a.slide seq now).idx seq) then
        (.duplicate, (a.slide seq now).recordDelivery streamId seq now true)
      else
        (.forward, recordDelivery
          { a.slide seq now with
            windowBits := Function.update (a.slide seq now).windowBits
              ((a.slide seq now).idx seq) true
            pendingGapConfirms := (a.slide seq now).pendingGapConfirms.erase seq }
          streamId seq now false) := by
  rw [observe, if_neg (Nat.not_lt.mpr hle)]
  rfl

/-- Setting the bit of an in-window sequence adds it to the seen ones. -/
theorem seen_setBit {a : AbArbiter} {seq : ℕ} {pending : SortedMap ℕ Instant}
    (hlo : a.windowBase ≤ seq) (hhi : seq < a.windowBase + a.windowLen) (s : ℕ) :
    Seen { a with
        windowBits := Function.update a.windowBits (a.idx seq) true
        pendingGapConfirms := pending } s ↔ a.Seen s ∨ s = seq := by
  change (a.windowBase ≤ s ∧ s < a.windowBase + a.windowLen ∧
    Function.update a.windowBits (a.idx seq) true (a.idx s) = true) ↔ _
  constructor
  · rintro ⟨hs, hs', hbit⟩
    by_cases hidx : a.idx s = a.idx seq
    · exact Or.inr (idx_inj hs hs' hlo hhi hidx)
    · rw [Function.update_of_ne hidx] at hbit
      exact Or.inl ⟨hs, hs', hbit⟩
  · rintro (⟨hs, hs', hbit⟩ | rfl)
    · refine ⟨hs, hs', ?_⟩
      by_cases hidx : a.idx s = a.idx seq
      · rw [hidx, Function.update_self]
      · rwa [Function.update_of_ne hidx]
    · exact ⟨hlo, hhi, Function.update_self ..⟩

section Observe

variable {a : AbArbiter} {seq : ℕ} {streamId : UInt8} {now : Instant}

theorem observe_takes (hseq : seq < 2 ^ 64) (hlen : a.windowLen < 2 ^ 64) (htakes : a.Takes seq) :
    (a.observe streamId seq now).1 = .forward ∧
      Forwarded a (a.observe streamId seq now).2 seq := by
  have hpos := a.windowLen_pos
  rcases htakes with ⟨hlt, hmem⟩ | ⟨hle, hunseen⟩
  · rw [observe_of_lt streamId now hlt, if_pos (SortedMap.contains_iff.mpr hmem)]
    have hbase : max a.windowBase (seq + 1 - a.windowLen) = a.windowBase := by omega
    refine ⟨rfl, ⟨?_, ?_, ?_, fun s ↦ ?_, fun s ↦ ?_⟩⟩
    · simp [hbase]
    · simp
    · simp
    · simp only [seen_recordDelivery, windowBase_recordDelivery]
      change a.Seen s ↔ _
      constructor
      · exact fun hs ↦ Or.inl ⟨hs, hs.1⟩
      · rintro (⟨hs, -⟩ | ⟨-, hs⟩)
        · exact hs
        · omega
    · simp only [pending_recordDelivery, windowBase_recordDelivery, SortedMap.mem_erase]
      constructor
      · rintro ⟨h, hne⟩
        exact ⟨Or.inl h, hne⟩
      · rintro ⟨h | ⟨hlo, hhi, -⟩, hne⟩
        · exact ⟨h, hne⟩
        · omega
  · obtain ⟨hbase, hlen', hms, hseen, hpend⟩ := evict_iterate now
      (max a.windowBase (seq + 1 - a.windowLen) - a.windowBase) (a := a) (by omega)
    rw [← slide_eq_iterate now hle hseq hlen] at hbase hlen' hms hseen hpend
    have hsum : a.windowBase + (max a.windowBase (seq + 1 - a.windowLen) - a.windowBase) =
        max a.windowBase (seq + 1 - a.windowLen) := by omega
    rw [hsum] at hbase hseen hpend
    have hlo : (a.slide seq now).windowBase ≤ seq := by omega
    have hhi : seq < (a.slide seq now).windowBase + (a.slide seq now).windowLen := by omega
    have hbit : ¬ (a.slide seq now).windowBits ((a.slide seq now).idx seq) = true := fun h ↦
      hunseen ((hseen seq).mp ⟨hlo, hhi, h⟩).1
    rw [observe_of_le streamId now hle, if_neg hbit]
    refine ⟨rfl, ⟨?_, ?_, ?_, fun s ↦ ?_, fun s ↦ ?_⟩⟩
    · simpa using hbase
    · simpa using hlen'
    · simpa using hms
    · simp only [seen_recordDelivery, windowBase_recordDelivery]
      rw [seen_setBit hlo hhi, hseen, hbase]
      simp only [hle, and_true]
    · simp only [pending_recordDelivery, windowBase_recordDelivery, SortedMap.mem_erase]
      rw [hpend, hbase]

theorem observe_drops (hseq : seq < 2 ^ 64) (hlen : a.windowLen < 2 ^ 64)
    (hdrops : ¬ a.Takes seq) :
    (a.observe streamId seq now).1 ≠ .forward ∧ Unmoved a (a.observe streamId seq now).2 := by
  by_cases hlt : seq < a.windowBase
  · have hmem : ¬ a.pendingGapConfirms.contains seq = true := fun h ↦
      hdrops (Or.inl ⟨hlt, SortedMap.contains_iff.mp h⟩)
    rw [observe_of_lt streamId now hlt, if_neg hmem]
    exact ⟨by simp, rfl, rfl, rfl, fun _ ↦ Iff.rfl, rfl⟩
  · have hle := Nat.le_of_not_lt hlt
    have hseen : a.Seen seq := by
      by_contra h
      exact hdrops (Or.inr ⟨hle, h⟩)
    have hzero : max a.windowBase (seq + 1 - a.windowLen) - a.windowBase = 0 := by
      have := hseen.2.1
      omega
    have hslide : a.slide seq now = a := by
      rw [slide_eq_iterate now hle hseq hlen, hzero, Function.iterate_zero_apply]
    rw [observe_of_le streamId now hle, hslide, if_pos hseen.2.2]
    exact ⟨by simp, by simp, by simp, by simp, fun s ↦ by simp, by simp⟩

end Observe

/-! ## Candidates -/

/-- Candidates are never sequences the window has seen. -/
def Apart (a : AbArbiter) : Prop := ∀ s, a.Seen s → s ∉ a.pendingGapConfirms

theorem Forwarded.apart {a a' : AbArbiter} {seq : ℕ} (h : Forwarded a a' seq) (ha : a.Apart) :
    a'.Apart := by
  intro s hs hmem
  obtain ⟨hpend, hne⟩ := (h.pending s).mp hmem
  rcases (h.seen s).mp hs with ⟨hseen, hbase⟩ | ⟨heq, -⟩
  · rcases hpend with hpend | ⟨-, hlt, -⟩
    · exact ha s hseen hpend
    · omega
  · exact hne heq

theorem Unmoved.apart {a a' : AbArbiter} (h : Unmoved a a') (ha : a.Apart) : a'.Apart := by
  intro s hs
  rw [h.pending]
  exact ha s ((h.seen s).mp hs)

/-- Forwarding one sequence does not change whether another one would be taken. -/
theorem Forwarded.takes_iff {a a' : AbArbiter} {seq s : ℕ} (h : Forwarded a a' seq)
    (ha : a.Apart) (hne : s ≠ seq) : a'.Takes s ↔ a.Takes s := by
  have hbase : a.windowBase ≤ a'.windowBase := by
    rw [h.base]
    exact le_max_left _ _
  unfold Takes
  rw [h.pending, h.seen]
  by_cases hlow : s < a.windowBase
  · have h₁ : s < a'.windowBase := by omega
    have h₂ : ¬ a.windowBase ≤ s := by omega
    have h₃ : ¬ a'.windowBase ≤ s := by omega
    simp [hlow, h₁, h₂, h₃, hne]
  · by_cases hmid : s < a'.windowBase
    · have h₁ : a.windowBase ≤ s := by omega
      have h₂ : ¬ a'.windowBase ≤ s := by omega
      simp only [hmid, h₁, h₂, hlow, hne, true_and, false_and, and_true, or_false, false_or,
        ne_eq, not_false_eq_true]
      exact ⟨fun hs ↦ hs.elim (fun hp hseen ↦ ha s hseen hp) id, Or.inr⟩
    · have h₁ : a.windowBase ≤ s := by omega
      have h₂ : a'.windowBase ≤ s := by omega
      simp [hmid, h₁, h₂, hlow, hne]

theorem Unmoved.takes_iff {a a' : AbArbiter} (h : Unmoved a a') (s : ℕ) :
    a'.Takes s ↔ a.Takes s := by
  unfold Takes
  rw [h.base, h.pending, h.seen]

theorem noteMissing_spec {a : AbArbiter} {now : Instant} {seq : ℕ} (hunseen : ¬ a.Seen seq)
    (hbase : a.windowBase < 2 ^ 64) (hlen : a.windowLen < 2 ^ 64) :
    a.noteMissing now seq =
      { a with pendingGapConfirms := a.pendingGapConfirms.orInsert seq now } := by
  rw [noteMissing, if_neg]
  rintro ⟨hlo, hhi, hbit⟩
  by_cases hwrap : a.windowBase + a.windowLen < 2 ^ 64
  · rw [wrappingAdd_of_lt hwrap] at hhi
    exact hunseen ⟨hlo, hhi, hbit⟩
  · have hsmall : wrappingAdd a.windowBase a.windowLen =
        a.windowBase + a.windowLen - 2 ^ 64 := by
      unfold wrappingAdd
      rw [Nat.mod_eq_sub_mod (by omega), Nat.mod_eq_of_lt (by omega)]
    omega

/-- Staging a range none of which was seen makes all of it candidates. -/
theorem noteMissingRange_spec {a : AbArbiter} {now : Instant} {start stop : ℕ}
    (hunseen : ∀ s, start ≤ s → s < stop → ¬ a.Seen s)
    (hbase : a.windowBase < 2 ^ 64) (hlen : a.windowLen < 2 ^ 64) :
    (a.noteMissingRange start stop now).windowBase = a.windowBase ∧
    (a.noteMissingRange start stop now).windowLen = a.windowLen ∧
    (a.noteMissingRange start stop now).gapConfirmWindowMs = a.gapConfirmWindowMs ∧
    (∀ s, (a.noteMissingRange start stop now).Seen s ↔ a.Seen s) ∧
    ∀ s, s ∈ (a.noteMissingRange start stop now).pendingGapConfirms ↔
      s ∈ a.pendingGapConfirms ∨ (start ≤ s ∧ s < stop) := by
  unfold noteMissingRange
  generalize hn : stop - start = n
  induction n generalizing a start with
  | zero =>
      refine ⟨rfl, rfl, rfl, fun _ ↦ Iff.rfl, fun s ↦ ?_⟩
      constructor
      · exact Or.inl
      · rintro (h | h)
        · exact h
        · omega
  | succ n ih =>
      rw [List.range'_succ, List.foldl_cons,
        noteMissing_spec (hunseen start le_rfl (by omega)) hbase hlen]
      obtain ⟨h₁, h₂, h₃, h₄, h₅⟩ := ih
        (a := { a with pendingGapConfirms := a.pendingGapConfirms.orInsert start now })
        (fun s (hs : start + 1 ≤ s) hs' ↦ hunseen s (by omega) hs') hbase hlen (by omega)
      refine ⟨h₁, h₂, h₃, h₄, fun s ↦ (h₅ s).trans ?_⟩
      rw [SortedMap.mem_orInsert]
      constructor
      · rintro ((rfl | h) | h)
        · exact Or.inr ⟨le_rfl, by omega⟩
        · exact Or.inl h
        · exact Or.inr ⟨by omega, h.2⟩
      · rintro (h | h)
        · exact Or.inl (Or.inr h)
        · by_cases hs : s = start
          · exact Or.inl (Or.inl hs)
          · exact Or.inr ⟨by omega, h.2⟩

theorem mem_foldl_erase {ks : List ℕ} {m : SortedMap ℕ Instant} {s : ℕ} :
    s ∈ ks.foldl SortedMap.erase m ↔ s ∈ m ∧ s ∉ ks := by
  simp [SortedMap.mem_iff, SortedMap.mem_entries_foldl_erase]

theorem mem_confirmedGaps {a : AbArbiter} {now : Instant} {s : ℕ}
    (h : s ∈ (a.confirmedGaps now).1) : s ∈ a.pendingGapConfirms := by
  obtain ⟨p, hp, rfl⟩ := List.mem_map.mp h
  exact ⟨p.2, (List.mem_filter.mp hp).1⟩

theorem mem_pending_confirmedGaps {a : AbArbiter} {now : Instant} {s : ℕ} :
    s ∈ (a.confirmedGaps now).2.pendingGapConfirms ↔
      s ∈ a.pendingGapConfirms ∧ s ∉ (a.confirmedGaps now).1 :=
  mem_foldl_erase

end AbArbiter

end MoldUdp
