import PolarisTrade.Lib.Machine
import PolarisTrade.MoldUdp.Reassembly

/-!
# What the reorder ring admits

Nothing bounds how far ahead an inserted sequence may be, so a message a lap or more ahead
of `expected_next` takes the slot of one inside the window.  Exactly those messages make the
ring refuse an in-window one, the next expected one included.
-/

namespace MoldUdp

open Word

namespace SequenceReassembler

variable {S : Type}

/-- `insert`, with the cursor it may return drained or dropped; a refused one changes
nothing. -/
def offer (r : SequenceReassembler S) (seq : ℕ) (slab : S) : SequenceReassembler S :=
  match r.insert seq slab with
  | .error _ => r
  | .ok (false, r) => r
  | .ok (true, r) => r.drainReady.2

/-- The ring after any insert calls, each of a 64-bit sequence. -/
def offerAll (r : SequenceReassembler S) (inserts : List (UInt64 × S)) : SequenceReassembler S :=
  inserts.foldl (fun r p ↦ r.offer p.1.toNat p.2) r

/-- Everything buffered is still to be delivered. -/
def Ahead (r : SequenceReassembler S) : Prop :=
  ∀ s, (r.lookup s).isSome → r.expectedNext ≤ s

theorem Ahead.take {r : SequenceReassembler S} (h : r.Ahead)
    (hheld : (r.lookup r.expectedNext).isSome) : r.take.Ahead := by
  intro s hs
  rw [lookup_take hheld] at hs
  split at hs
  · simp at hs
  · next hne =>
      have hle := h s hs
      have hnext : wrappingAdd r.expectedNext 1 ≤ r.expectedNext + 1 := Nat.mod_le _ _
      rw [expectedNext_take]
      omega

theorem Ahead.drain {fuel : ℕ} {r : SequenceReassembler S} (h : r.Ahead) :
    (drain fuel r).2.Ahead := by
  induction fuel generalizing r with
  | zero => exact h
  | succ fuel ih =>
      rw [drain_succ]
      cases hheld : r.lookup r.expectedNext with
      | none => exact h
      | some payload => exact ih (h.take (by simp [hheld]))

theorem Ahead.store {r : SequenceReassembler S} (h : r.Ahead) {seq : ℕ} (slab : S)
    (hle : r.expectedNext ≤ seq) (hfree : (r.slots (r.slotIndex seq)).payload = none) :
    (r.store seq slab).Ahead := by
  intro s hs
  rw [lookup_store slab hfree] at hs
  split at hs
  · next heq => exact heq ▸ hle
  · exact h s hs

/-- Inserting keeps the ring in place, ahead of what was delivered, and of its size. -/
theorem offer_kept {r : SequenceReassembler S} (hplaced : r.WellPlaced) (hahead : r.Ahead)
    (seq : ℕ) (slab : S) :
    (r.offer seq slab).WellPlaced ∧ (r.offer seq slab).Ahead ∧
      (r.offer seq slab).capacity = r.capacity := by
  unfold offer
  rcases r.insert_cases seq slab with ⟨-, h⟩ | ⟨-, -, h⟩ | ⟨-, -, -, -, h⟩ | ⟨hle, -, hfree, h⟩
  · rw [h]
    exact ⟨hplaced, hahead, rfl⟩
  · rw [h]
    exact ⟨hplaced, hahead, rfl⟩
  · rw [h]
    exact ⟨hplaced, hahead, rfl⟩
  · have hplaced' := wellPlaced_store hplaced seq slab
    have hahead' := hahead.store slab hle hfree
    rw [h]
    cases decide (seq = r.expectedNext) with
    | false => exact ⟨hplaced', hahead', rfl⟩
    | true => exact ⟨wellPlaced_drain hplaced', hahead'.drain, capacity_drain _ _⟩

theorem offerAll_kept (inserts : List (UInt64 × S)) :
    ∀ {r : SequenceReassembler S}, r.WellPlaced → r.Ahead →
      (r.offerAll inserts).WellPlaced ∧ (r.offerAll inserts).Ahead ∧
        (r.offerAll inserts).capacity = r.capacity := by
  induction inserts with
  | nil => exact fun hplaced hahead ↦ ⟨hplaced, hahead, rfl⟩
  | cons p inserts ih =>
      intro r hplaced hahead
      obtain ⟨hplaced', hahead', hcapacity⟩ := offer_kept hplaced hahead p.1.toNat p.2
      obtain ⟨h₁, h₂, h₃⟩ := ih hplaced' hahead'
      exact ⟨h₁, h₂, h₃.trans hcapacity⟩

/-- Two sequences of one slot that are not the same are a lap apart. -/
theorem lap_of_slotIndex_eq {r : SequenceReassembler S} {base s t : ℕ} (hs : base ≤ s)
    (hs' : s < base + r.capacity) (ht : base ≤ t) (hne : t ≠ s)
    (hslot : r.slotIndex t = r.slotIndex s) : base + r.capacity ≤ t := by
  by_contra hlt
  have hmod : s ≡ t [MOD r.capacity] := hslot.symm
  rcases Nat.le_total s t with hst | hts
  · have hzero := Nat.eq_zero_of_dvd_of_lt ((Nat.modEq_iff_dvd' hst).mp hmod) (by omega)
    omega
  · have hzero := Nat.eq_zero_of_dvd_of_lt ((Nat.modEq_iff_dvd' hts).mp hmod.symm) (by omega)
    omega

end SequenceReassembler

/-- After any inserts, an in-window sequence is accepted unless a message a lap or more ahead
of `expected_next` is buffered on its slot. -/
theorem insert_accepted_iff {S : Type} {capacity : ℕ} (hcapacity : 0 < capacity)
    {inserts : List (UInt64 × S)} {r : SequenceReassembler S}
    (hr : r = (SequenceReassembler.new capacity hcapacity).offerAll inserts) {seq : ℕ}
    (hlo : r.expectedNext ≤ seq) (hhi : seq < r.expectedNext + capacity) (slab : S) :
    r.insert seq slab ≠ .error (.reassemblyBufferFull capacity) ↔
      ¬ ∃ t, (r.lookup t).isSome ∧ r.expectedNext + capacity ≤ t ∧
        t % capacity = seq % capacity := by
  have hempty : (SequenceReassembler.new capacity hcapacity : SequenceReassembler S).Ahead :=
    fun s hs ↦ by simp at hs
  obtain ⟨hplaced, hahead, hcap⟩ := SequenceReassembler.offerAll_kept inserts
    (SequenceReassembler.wellPlaced_new capacity hcapacity) hempty
  rw [← hr] at hplaced hahead hcap
  obtain rfl : r.capacity = capacity := hcap
  rcases r.insert_cases seq slab with
    ⟨hlt, -⟩ | ⟨-, hheld, h⟩ | ⟨-, -, hsome, hne, h⟩ | ⟨-, -, hfree, h⟩
  · omega
  · -- `seq` itself is buffered, so no other sequence is on its slot
    refine ⟨fun _ ⟨t, ht, hlap, hslot⟩ ↦ ?_, fun _ ↦ by simp [h]⟩
    have heq := SequenceReassembler.lookup_slot_unique ht hheld hslot
    omega
  · refine ⟨fun haccepted ↦ (haccepted h).elim, fun hnone ↦ (hnone ?_).elim⟩
    obtain ⟨hslot, hheld⟩ := SequenceReassembler.lookup_of_refused hplaced hsome
    exact ⟨_, hheld, SequenceReassembler.lap_of_slotIndex_eq hlo hhi (hahead _ hheld) hne hslot,
      hslot⟩
  · refine ⟨fun _ ⟨t, ht, _, hslot⟩ ↦ ?_, fun _ ↦ by simp [h]⟩
    rw [SequenceReassembler.lookup, show r.slotIndex t = r.slotIndex seq from hslot, hfree,
      ite_self] at ht
    cases ht

theorem insert_accepted_iff_four_slots :
    ∃ r : SequenceReassembler ℕ,
      r = (SequenceReassembler.new 4 (by decide)).offerAll [(2, 20), (6, 60), (7, 70)] ∧
      r.insert 4 40 ≠ .error (.reassemblyBufferFull 4) ∧
      ¬ ∃ t, (r.lookup t).isSome ∧ r.expectedNext + 4 ≤ t ∧ t % 4 = 4 % 4 := by
  have haccepted : ((SequenceReassembler.new 4 (by decide)).offerAll
      [(2, 20), (6, 60), (7, 70)]).insert 4 40 ≠ .error (.reassemblyBufferFull 4) := nofun
  exact ⟨_, rfl, haccepted,
    (insert_accepted_iff (by decide) rfl (by decide) (by decide) 40).mp haccepted⟩

/-- With four slots, 5 takes the slot of 1, and the next expected message is refused. -/
theorem expected_message_refused :
    ∃ r : SequenceReassembler ℕ,
      r = (SequenceReassembler.new 4 (by decide)).offerAll [(5, 50)] ∧ r.expectedNext = 1 ∧
      r.insert 1 10 = .error (.reassemblyBufferFull 4) :=
  ⟨_, rfl, by decide, by rfl⟩

end MoldUdp
