import PolarisTrade.MoldUdp.Types

/-!
# The sequence reassembler

A ring of `capacity` slots keyed by `seq % capacity`.  `lookup` is what the ring
holds for a sequence; every operation is described by what it does to `lookup` and
to `expectedNext`, and later modules use these descriptions only.
-/

namespace MoldUdp

open Word

/-- One ring slot; `seq` means something only while `payload` is there. -/
structure Slot (S : Type) where
  seq : ℕ
  payload : Option S

structure SequenceReassembler (S : Type) where
  slots : ℕ → Slot S
  capacity : ℕ
  capacity_pos : 0 < capacity
  expectedNext : ℕ

namespace SequenceReassembler

variable {S : Type}

def new (capacity : ℕ) (hcapacity : 0 < capacity) : SequenceReassembler S where
  slots _ := ⟨0, none⟩
  capacity := capacity
  capacity_pos := hcapacity
  expectedNext := 1

def slotIndex (r : SequenceReassembler S) (seq : ℕ) : ℕ := seq % r.capacity

def advanceExpected (r : SequenceReassembler S) (n : ℕ) : SequenceReassembler S :=
  { r with expectedNext := wrappingAdd r.expectedNext n }

def resetExpected (r : SequenceReassembler S) (expected : ℕ) : SequenceReassembler S :=
  { r with expectedNext := expected }

/-- `DrainCursor::next`. -/
def cursorNext (r : SequenceReassembler S) : Option S × SequenceReassembler S :=
  let idx := r.slotIndex r.expectedNext
  let slot := r.slots idx
  if slot.seq ≠ r.expectedNext then (none, r)
  else match slot.payload with
    | none => (none, r)
    | some payload =>
        (some payload,
          { r with
            slots := Function.update r.slots idx ⟨slot.seq, none⟩
            expectedNext := wrappingAdd r.expectedNext 1 })

/-- At most `fuel` rounds of the cursor, ending at its first `None`. -/
def drain : ℕ → SequenceReassembler S → List S × SequenceReassembler S
  | 0, r => ([], r)
  | fuel + 1, r =>
      match r.cursorNext with
      | (none, r) => ([], r)
      | (some payload, r) =>
          let (payloads, r) := drain fuel r
          (payload :: payloads, r)

/-- The cursor of `drain_ready` run to its end.  Each round empties a slot, so
`capacity` rounds reach the end. -/
def drainReady (r : SequenceReassembler S) : List S × SequenceReassembler S :=
  drain r.capacity r

/-- On success, whether a cursor over the newly contiguous run is returned. -/
def insert (r : SequenceReassembler S) (seq : ℕ) (slab : S) :
    Except MoldUdpError (Bool × SequenceReassembler S) :=
  if seq < r.expectedNext then .ok (false, r)
  else
    let idx := r.slotIndex seq
    if (r.slots idx).payload.isSome then
      if (r.slots idx).seq = seq then .ok (false, r)
      else .error (.reassemblyBufferFull r.capacity)
    else
      .ok (decide (seq = r.expectedNext),
        { r with slots := Function.update r.slots idx ⟨seq, some slab⟩ })

/-! ## The ring as a map -/

/-- What the ring holds for `seq`. -/
def lookup (r : SequenceReassembler S) (seq : ℕ) : Option S :=
  if (r.slots (r.slotIndex seq)).seq = seq then (r.slots (r.slotIndex seq)).payload else none

/-- Some slot holds `seq`. -/
def Holds (r : SequenceReassembler S) (seq : ℕ) : Prop :=
  ∃ i < r.capacity, (r.slots i).seq = seq ∧ (r.slots i).payload.isSome

/-- A slot in use sits where its sequence belongs. -/
def WellPlaced (r : SequenceReassembler S) : Prop :=
  ∀ i, (r.slots i).payload.isSome → r.slotIndex (r.slots i).seq = i

theorem slotIndex_lt (r : SequenceReassembler S) (seq : ℕ) : r.slotIndex seq < r.capacity :=
  Nat.mod_lt _ r.capacity_pos

theorem holds_iff {r : SequenceReassembler S} (hr : r.WellPlaced) {seq : ℕ} :
    r.Holds seq ↔ (r.lookup seq).isSome := by
  constructor
  · rintro ⟨i, -, hseq, hsome⟩
    have hi : r.slotIndex seq = i := hseq ▸ hr i hsome
    rw [lookup, hi, if_pos hseq]
    exact hsome
  · intro h
    unfold lookup at h
    split at h
    · next hseq => exact ⟨_, r.slotIndex_lt seq, hseq, h⟩
    · simp at h

/-- Two held sequences in one slot are the same. -/
theorem lookup_slot_unique {r : SequenceReassembler S} {s t : ℕ}
    (hs : (r.lookup s).isSome) (ht : (r.lookup t).isSome)
    (hslot : r.slotIndex s = r.slotIndex t) : s = t := by
  unfold lookup at hs ht
  split at hs
  · next hseq =>
      split at ht
      · next htseq => rw [← hseq, hslot, htseq]
      · simp at ht
  · simp at hs

@[simp] theorem lookup_new (capacity seq : ℕ) (h : 0 < capacity) :
    (new capacity h : SequenceReassembler S).lookup seq = none := ite_self _

theorem wellPlaced_new (capacity : ℕ) (h : 0 < capacity) :
    (new capacity h : SequenceReassembler S).WellPlaced := by
  intro i hi
  simp [new] at hi

@[simp] theorem lookup_advanceExpected (r : SequenceReassembler S) (n seq : ℕ) :
    (r.advanceExpected n).lookup seq = r.lookup seq := rfl

@[simp] theorem expectedNext_advanceExpected (r : SequenceReassembler S) (n : ℕ) :
    (r.advanceExpected n).expectedNext = wrappingAdd r.expectedNext n := rfl

/-- Writing one slot changes `lookup` only for the sequences of that slot. -/
theorem lookup_update (r : SequenceReassembler S) (seq expected : ℕ) (slot : Slot S) (s : ℕ) :
    lookup { r with
        slots := Function.update r.slots (r.slotIndex seq) slot
        expectedNext := expected } s =
      if r.slotIndex s = r.slotIndex seq then (if slot.seq = s then slot.payload else none)
      else r.lookup s := by
  change (if (Function.update r.slots (r.slotIndex seq) slot (r.slotIndex s)).seq = s then
    (Function.update r.slots (r.slotIndex seq) slot (r.slotIndex s)).payload else none) = _
  by_cases hslot : r.slotIndex s = r.slotIndex seq
  · rw [hslot, Function.update_self, if_pos rfl]
  · rw [Function.update_of_ne hslot, if_neg hslot, lookup]

theorem wellPlaced_update {r : SequenceReassembler S} (hr : r.WellPlaced) (seq expected : ℕ)
    (slot : Slot S) (hslot : slot.payload.isSome → slot.seq = seq) :
    WellPlaced { r with
      slots := Function.update r.slots (r.slotIndex seq) slot
      expectedNext := expected } := by
  intro i hi
  change slotIndex r (Function.update r.slots (r.slotIndex seq) slot i).seq = i
  change (Function.update r.slots (r.slotIndex seq) slot i).payload.isSome at hi
  by_cases h : i = r.slotIndex seq
  · subst h
    rw [Function.update_self] at hi ⊢
    rw [hslot hi]
  · rw [Function.update_of_ne h] at hi ⊢
    exact hr i hi

/-! ## Insertion -/

/-- `r` with `slab` stored for `seq`. -/
def store (r : SequenceReassembler S) (seq : ℕ) (slab : S) : SequenceReassembler S :=
  { r with slots := Function.update r.slots (r.slotIndex seq) ⟨seq, some slab⟩ }

theorem lookup_store {r : SequenceReassembler S} {seq : ℕ} (slab : S)
    (hfree : (r.slots (r.slotIndex seq)).payload = none) (s : ℕ) :
    (r.store seq slab).lookup s = if s = seq then some slab else r.lookup s := by
  refine (lookup_update r seq r.expectedNext ⟨seq, some slab⟩ s).trans ?_
  by_cases hs : s = seq
  · simp [hs]
  · have hne : ¬ seq = s := fun h ↦ hs h.symm
    by_cases hslot : r.slotIndex s = r.slotIndex seq
    · have hold : r.lookup s = none := by
        rw [lookup, hslot, hfree, ite_self]
      simp [hslot, hs, hne, hold]
    · simp [hslot, hs]

theorem wellPlaced_store {r : SequenceReassembler S} (hr : r.WellPlaced) (seq : ℕ) (slab : S) :
    (r.store seq slab).WellPlaced :=
  wellPlaced_update hr seq r.expectedNext ⟨seq, some slab⟩ fun _ ↦ rfl

/-- The ways an insertion goes: stale, already held, refused because the slot holds
another sequence, or stored. -/
theorem insert_cases (r : SequenceReassembler S) (seq : ℕ) (slab : S) :
    (seq < r.expectedNext ∧ r.insert seq slab = .ok (false, r)) ∨
    (r.expectedNext ≤ seq ∧ (r.lookup seq).isSome ∧ r.insert seq slab = .ok (false, r)) ∨
    (r.expectedNext ≤ seq ∧ r.lookup seq = none ∧
      (r.slots (r.slotIndex seq)).payload.isSome ∧ (r.slots (r.slotIndex seq)).seq ≠ seq ∧
      r.insert seq slab = .error (.reassemblyBufferFull r.capacity)) ∨
    (r.expectedNext ≤ seq ∧ r.lookup seq = none ∧
      (r.slots (r.slotIndex seq)).payload = none ∧
      r.insert seq slab = .ok (decide (seq = r.expectedNext), r.store seq slab)) := by
  unfold insert
  split
  · next hstale => exact Or.inl ⟨hstale, rfl⟩
  · next hge =>
      have hge := Nat.le_of_not_lt hge
      simp only
      split
      · next hsome =>
          split
          · next hseq =>
              refine Or.inr (Or.inl ⟨hge, ?_, rfl⟩)
              rw [lookup, if_pos hseq]
              exact hsome
          · next hseq =>
              exact Or.inr (Or.inr (Or.inl ⟨hge, if_neg hseq, hsome, hseq, rfl⟩))
      · next hnone =>
          have hfree : (r.slots (r.slotIndex seq)).payload = none := by simpa using hnone
          refine Or.inr (Or.inr (Or.inr ⟨hge, ?_, hfree, rfl⟩))
          rw [lookup, hfree, ite_self]

/-- A refusing slot holds some other sequence of the same slot. -/
theorem lookup_of_refused {r : SequenceReassembler S} (hr : r.WellPlaced) {seq : ℕ}
    (hsome : (r.slots (r.slotIndex seq)).payload.isSome) :
    r.slotIndex (r.slots (r.slotIndex seq)).seq = r.slotIndex seq ∧
      (r.lookup (r.slots (r.slotIndex seq)).seq).isSome := by
  have hslot := hr _ hsome
  refine ⟨hslot, ?_⟩
  rw [lookup, hslot, if_pos rfl]
  exact hsome

/-! ## Draining -/

/-- `r` after the cursor has taken the payload of `expectedNext`. -/
def take (r : SequenceReassembler S) : SequenceReassembler S :=
  { r with
    slots := Function.update r.slots (r.slotIndex r.expectedNext)
      ⟨(r.slots (r.slotIndex r.expectedNext)).seq, none⟩
    expectedNext := wrappingAdd r.expectedNext 1 }

@[simp] theorem expectedNext_take (r : SequenceReassembler S) :
    r.take.expectedNext = wrappingAdd r.expectedNext 1 := rfl

@[simp] theorem capacity_take (r : SequenceReassembler S) : r.take.capacity = r.capacity := rfl

theorem cursorNext_eq (r : SequenceReassembler S) :
    r.cursorNext = match r.lookup r.expectedNext with
      | none => (none, r)
      | some payload => (some payload, r.take) := by
  unfold cursorNext lookup
  by_cases hseq : (r.slots (r.slotIndex r.expectedNext)).seq = r.expectedNext
  · simp only [hseq, ne_eq, not_true_eq_false, if_false, if_true]
    cases (r.slots (r.slotIndex r.expectedNext)).payload with
    | none => rfl
    | some payload => simp [take, hseq]
  · simp [hseq]

theorem lookup_take {r : SequenceReassembler S} (hheld : (r.lookup r.expectedNext).isSome)
    (s : ℕ) : r.take.lookup s = if s = r.expectedNext then none else r.lookup s := by
  refine (lookup_update r r.expectedNext _ _ s).trans ?_
  by_cases hs : s = r.expectedNext
  · simp [hs]
  · by_cases hslot : r.slotIndex s = r.slotIndex r.expectedNext
    · have hold : r.lookup s = none := by
        by_contra hsome
        exact hs (lookup_slot_unique (Option.isSome_iff_ne_none.mpr hsome) hheld hslot)
      simp [hslot, hs, hold]
    · simp [hslot, hs]

theorem wellPlaced_take {r : SequenceReassembler S} (hr : r.WellPlaced) : r.take.WellPlaced := by
  refine wellPlaced_update hr r.expectedNext _ _ ?_
  intro h
  simp at h

theorem drain_succ (fuel : ℕ) (r : SequenceReassembler S) :
    drain (fuel + 1) r = match r.lookup r.expectedNext with
      | none => ([], r)
      | some payload => (payload :: (drain fuel r.take).1, (drain fuel r.take).2) := by
  rw [drain, cursorNext_eq]
  cases r.lookup r.expectedNext <;> rfl

@[simp] theorem capacity_drain (fuel : ℕ) (r : SequenceReassembler S) :
    (drain fuel r).2.capacity = r.capacity := by
  induction fuel generalizing r with
  | zero => rfl
  | succ fuel ih =>
      rw [drain_succ]
      cases r.lookup r.expectedNext with
      | none => rfl
      | some payload => simpa using ih r.take

theorem wellPlaced_drain {fuel : ℕ} {r : SequenceReassembler S} (hr : r.WellPlaced) :
    (drain fuel r).2.WellPlaced := by
  induction fuel generalizing r with
  | zero => exact hr
  | succ fuel ih =>
      rw [drain_succ]
      cases r.lookup r.expectedNext with
      | none => exact hr
      | some payload => exact ih (wellPlaced_take hr)

/-- Slots in use. -/
def occupied (r : SequenceReassembler S) : Finset ℕ :=
  (Finset.range r.capacity).filter fun i ↦ (r.slots i).payload.isSome

theorem mem_occupied {r : SequenceReassembler S} {i : ℕ} :
    i ∈ r.occupied ↔ i < r.capacity ∧ (r.slots i).payload.isSome := by
  rw [occupied, Finset.mem_filter, Finset.mem_range]

theorem card_occupied_take {r : SequenceReassembler S}
    (hheld : (r.lookup r.expectedNext).isSome) : r.take.occupied.card < r.occupied.card := by
  have hslot : (r.slots (r.slotIndex r.expectedNext)).payload.isSome := by
    unfold lookup at hheld
    split at hheld
    · exact hheld
    · simp at hheld
  refine Finset.card_lt_card (Finset.ssubset_iff_of_subset ?_ |>.mpr
    ⟨r.slotIndex r.expectedNext, ?_, ?_⟩)
  · intro i hi
    obtain ⟨hlt, hsome⟩ := mem_occupied.mp hi
    refine mem_occupied.mpr ⟨hlt, ?_⟩
    by_cases h : i = r.slotIndex r.expectedNext
    · exact h ▸ hslot
    · simpa [take, Function.update_of_ne h] using hsome
  · exact mem_occupied.mpr ⟨r.slotIndex_lt _, hslot⟩
  · simp [mem_occupied, take]

theorem card_occupied_le (r : SequenceReassembler S) : r.occupied.card ≤ r.capacity := by
  calc
    r.occupied.card ≤ (Finset.range r.capacity).card := Finset.card_filter_le _ _
    _ = r.capacity := Finset.card_range _

/-- With a round for every slot in use the cursor comes to its end. -/
theorem lookup_expectedNext_drain {fuel : ℕ} {r : SequenceReassembler S}
    (hfuel : r.occupied.card ≤ fuel) :
    (drain fuel r).2.lookup (drain fuel r).2.expectedNext = none := by
  induction fuel generalizing r with
  | zero =>
      by_contra hheld
      have := card_occupied_take (Option.isSome_iff_ne_none.mpr hheld)
      change r.take.occupied.card < r.occupied.card at this
      omega
  | succ fuel ih =>
      rw [drain_succ]
      cases hheld : r.lookup r.expectedNext with
      | none => exact hheld
      | some payload =>
          have := card_occupied_take (r := r) (by simp [hheld])
          exact ih (by omega)

/-- The drained payloads are those of the consecutive sequences from `expectedNext`,
which leave the ring; everything else stays. -/
theorem drain_spec {fuel : ℕ} {r : SequenceReassembler S}
    (hfit : ∀ s, (r.lookup s).isSome → s + 1 < 2 ^ 64) :
    (drain fuel r).2.expectedNext = r.expectedNext + (drain fuel r).1.length ∧
    (∀ j, j < (drain fuel r).1.length →
      r.lookup (r.expectedNext + j) = (drain fuel r).1[j]?) ∧
    ∀ s, (drain fuel r).2.lookup s =
      if r.expectedNext ≤ s ∧ s < r.expectedNext + (drain fuel r).1.length then none
      else r.lookup s := by
  induction fuel generalizing r with
  | zero => simp [drain]
  | succ fuel ih =>
      rw [drain_succ]
      cases hheld : r.lookup r.expectedNext with
      | none => simp
      | some payload =>
          have hsome : (r.lookup r.expectedNext).isSome := by simp [hheld]
          have hnext : r.take.expectedNext = r.expectedNext + 1 :=
            wrappingAdd_of_lt (hfit _ hsome)
          have hfit' : ∀ s, (r.take.lookup s).isSome → s + 1 < 2 ^ 64 := by
            intro s hs
            rw [lookup_take hsome] at hs
            split at hs
            · simp at hs
            · exact hfit s hs
          obtain ⟨hexp, hpay, hlook⟩ := ih hfit'
          rw [hnext] at hexp hpay hlook
          refine ⟨?_, ?_, ?_⟩
          · simp only [List.length_cons]
            omega
          · intro j hj
            cases j with
            | zero => simpa using hheld
            | succ j =>
                have hj' : j < (drain fuel r.take).1.length := by simpa using hj
                have := hpay j hj'
                rw [lookup_take hsome, if_neg (by omega)] at this
                rw [List.getElem?_cons_succ, ← this]
                congr 1
                omega
          · intro s
            rw [hlook, lookup_take hsome]
            simp only [List.length_cons]
            split_ifs <;> first | rfl | omega

end SequenceReassembler

end MoldUdp
