import PolarisTrade.MoldUdp.Admission

/-!
# Runs of the reorder ring

The ring driven by its callers: inserts of any sequence, cursors that are iterated some way and
dropped, and the step of the receiver for the next expected message, which is never stored.
The run keeps what the ring accepted and what its cursors yielded.  Between two calls the ring
holds exactly the accepted messages above `expected_next`.
-/

namespace MoldUdp

open Word

/-! ## Cursors -/

namespace SequenceReassembler

variable {S : Type} {r c : SequenceReassembler S}

/-- The messages that `n` calls of `DrainCursor::next` return. -/
def cursorCalls : ℕ → SequenceReassembler S → List S × SequenceReassembler S
  | 0, r => ([], r)
  | n + 1, r =>
      let (item, r) := r.cursorNext
      let (items, r) := cursorCalls n r
      (item.toList ++ items, r)

/-- A cursor on which `next` is called `n` times before it is dropped; `Drop` runs it to its
end. -/
def cursor (n : ℕ) (r : SequenceReassembler S) : List S × SequenceReassembler S :=
  let (items, r) := cursorCalls n r
  (items, r.drainReady.2)

theorem drain_of_none (hnone : r.lookup r.expectedNext = none) (n : ℕ) :
    drain n r = ([], r) := by
  cases n with
  | zero => rfl
  | succ n => rw [drain_succ, hnone]

/-- A cursor that has returned `None` returns it again. -/
theorem cursorCalls_eq_drain (n : ℕ) (r : SequenceReassembler S) :
    cursorCalls n r = drain n r := by
  induction n generalizing r with
  | zero => rfl
  | succ n ih =>
      rw [cursorCalls, cursorNext_eq, drain_succ]
      cases hheld : r.lookup r.expectedNext with
      | none => simp only [ih, drain_of_none hheld, Option.toList_none, List.append_nil]
      | some payload => simp only [ih, Option.toList_some, List.singleton_append]

theorem cursor_eq (n : ℕ) (r : SequenceReassembler S) :
    r.cursor n = ((drain n r).1, (drain n r).2.drainReady.2) := by
  rw [cursor, cursorCalls_eq_drain]

theorem wellPlaced_cursor (hr : r.WellPlaced) (n : ℕ) : (r.cursor n).2.WellPlaced := by
  rw [cursor_eq]
  exact wellPlaced_drain (wellPlaced_drain hr)

@[simp] theorem capacity_cursor (n : ℕ) (r : SequenceReassembler S) :
    (r.cursor n).2.capacity = r.capacity := by
  rw [cursor_eq]
  exact (capacity_drain _ _).trans (capacity_drain n r)

theorem drain_add (m n : ℕ) (r : SequenceReassembler S) :
    drain (m + n) r =
      ((drain m r).1 ++ (drain n (drain m r).2).1, (drain n (drain m r).2).2) := by
  induction m generalizing r with
  | zero => rw [Nat.zero_add]; rfl
  | succ m ih =>
      rw [Nat.succ_add, drain_succ, drain_succ]
      cases hheld : r.lookup r.expectedNext with
      | none => simp only [drain_of_none hheld, List.append_nil]
      | some payload => simp only [ih, List.cons_append]

theorem length_drain_le (n : ℕ) (r : SequenceReassembler S) : (drain n r).1.length ≤ n := by
  induction n generalizing r with
  | zero => exact le_rfl
  | succ n ih =>
      rw [drain_succ]
      cases r.lookup r.expectedNext with
      | none => exact Nat.zero_le _
      | some payload => exact Nat.succ_le_succ (ih r.take)

/-- A cursor that yields less than it was asked for has come to its end. -/
theorem lookup_expectedNext_of_length_drain_lt {n : ℕ} (h : (drain n r).1.length < n) :
    (drain n r).2.lookup (drain n r).2.expectedNext = none := by
  induction n generalizing r with
  | zero => exact (Nat.not_lt_zero _ h).elim
  | succ n ih =>
      rw [drain_succ] at h ⊢
      cases hheld : r.lookup r.expectedNext with
      | none => exact hheld
      | some payload =>
          rw [hheld] at h
          exact ih (Nat.lt_of_succ_lt_succ h)

/-- Payloads with the sequences they are for, counted from `base`. -/
def numbered (base : ℕ) (items : List S) : List (ℕ × S) :=
  (List.range' base items.length).zip items

theorem map_fst_numbered (base : ℕ) (items : List S) :
    (numbered base items).map Prod.fst = List.range' base items.length := by
  rw [numbered, List.map_fst_zip (by simp)]

@[simp] theorem length_numbered (base : ℕ) (items : List S) :
    (numbered base items).length = items.length := by
  simp [numbered]

theorem mem_numbered {base : ℕ} {items : List S} {p : ℕ × S} (hp : p ∈ numbered base items) :
    ∃ j < items.length, p.1 = base + j ∧ items[j]? = some p.2 := by
  obtain ⟨j, hj, rfl⟩ := List.mem_iff_getElem.mp hp
  rw [length_numbered] at hj
  exact ⟨j, hj, by simp [numbered], by simp [numbered, hj]⟩

/-- A cursor over `c` that yielded `yields` and is gone, leaving `c'`: it passed the buffered
messages up to the first sequence not buffered, and yielded the first of them in order. -/
structure Passes (c : SequenceReassembler S) (yields : List (ℕ × S))
    (c' : SequenceReassembler S) : Prop where
  reached : c.expectedNext ≤ c'.expectedNext
  passed : ∀ s, c.expectedNext ≤ s → s < c'.expectedNext → (c.lookup s).isSome
  stopped : c.lookup c'.expectedNext = none
  consecutive : yields.map Prod.fst = List.range' c.expectedNext yields.length
  count : yields.length ≤ c'.expectedNext - c.expectedNext
  payload : ∀ p ∈ yields, c.lookup p.1 = some p.2
  rest : ∀ s, c'.lookup s = if s < c'.expectedNext then none else c.lookup s

section Passing

variable (hahead : c.Ahead) (hfit : ∀ s, (c.lookup s).isSome → s + 1 < 2 ^ 64)
include hahead hfit

/-- A cursor asked `n` times and then run to its end. -/
theorem passes_cursor (n : ℕ) :
    c.Passes (numbered c.expectedNext (c.cursor n).1) (c.cursor n).2 ∧
      (c.cursor n).1.length = min n ((c.cursor n).2.expectedNext - c.expectedNext) := by
  have hcursor : c.cursor n = ((drain n c).1, (drain (n + c.capacity) c).2) := by
    rw [cursor_eq, drain_add, drainReady, capacity_drain]
  have hsplit : (drain (n + c.capacity) c).1 =
      (drain n c).1 ++ (drain c.capacity (drain n c).2).1 := by
    rw [drain_add]
  obtain ⟨hnext, hpay, hrest⟩ := @drain_spec S (n + c.capacity) c hfit
  have hlen := congrArg List.length hsplit
  rw [List.length_append] at hlen
  have hle := length_drain_le n c
  -- a cursor that stopped short has nothing left for `Drop`
  have hmin : (drain n c).1.length = min n (drain (n + c.capacity) c).1.length := by
    rcases Nat.lt_or_ge (drain n c).1.length n with hlt | hge
    · have hend := lookup_expectedNext_of_length_drain_lt hlt
      rw [drain_of_none hend, List.length_nil] at hlen
      omega
    · omega
  have hstop : (drain (n + c.capacity) c).2.lookup
      (drain (n + c.capacity) c).2.expectedNext = none := by
    apply lookup_expectedNext_drain
    have hcard := c.card_occupied_le
    omega
  rw [hcursor]
  dsimp only
  refine ⟨⟨by omega, fun s hlo hhi ↦ ?_, ?_, ?_, ?_, fun p hp ↦ ?_, fun s ↦ ?_⟩, by omega⟩
  · obtain ⟨j, rfl⟩ := Nat.exists_eq_add_of_le hlo
    have hj : j < (drain (n + c.capacity) c).1.length := by omega
    rw [hpay j hj, List.getElem?_eq_getElem hj]
    rfl
  · rw [hrest, if_neg (by omega)] at hstop
    exact hstop
  · rw [map_fst_numbered, length_numbered]
  · rw [length_numbered]
    omega
  · obtain ⟨j, hj, hseq, hitem⟩ := mem_numbered hp
    rw [hseq, hpay j (by omega), hsplit, List.getElem?_append_left hj, hitem]
  · rw [hrest, hnext]
    by_cases hlo : c.expectedNext ≤ s
    · simp only [hlo, true_and]
    · have hnone : c.lookup s = none := by
        by_contra hsome
        exact hlo (hahead s (Option.isSome_iff_ne_none.mpr hsome))
      simp [hlo, hnone]

/-- A cursor run to its end by its caller leaves nothing for `Drop`. -/
theorem passes_drainReady :
    c.Passes (numbered c.expectedNext c.drainReady.1) c.drainReady.2 ∧
      c.drainReady.1.length = c.drainReady.2.expectedNext - c.expectedNext := by
  have hend : c.drainReady.2.lookup c.drainReady.2.expectedNext = none :=
    lookup_expectedNext_drain c.card_occupied_le
  have hcursor : c.cursor c.capacity = c.drainReady := by
    rw [cursor_eq]
    change (c.drainReady.1, (drain _ c.drainReady.2).2) = _
    rw [drain_of_none hend]
  refine ⟨hcursor ▸ (passes_cursor hahead hfit c.capacity).1, ?_⟩
  have hnext := (@drain_spec S c.capacity c hfit).1
  change c.drainReady.2.expectedNext = _ + c.drainReady.1.length at hnext
  omega

end Passing

/-- The slot of `seq` is free and `seq` is not stale. -/
def Accepts (r : SequenceReassembler S) (seq : ℕ) : Prop :=
  r.expectedNext ≤ seq ∧ (r.slots (r.slotIndex seq)).payload.isNone

instance (r : SequenceReassembler S) (seq : ℕ) : Decidable (r.Accepts seq) :=
  inferInstanceAs (Decidable (_ ∧ _))

end SequenceReassembler

/-! ## Runs -/

/-- One call of the ring's owner. -/
inductive RingCall (S : Type) where
  /-- `insert`, with `next` called `calls` times on the cursor it may return. -/
  | insert (seq : UInt64) (slab : S) (calls : ℕ)
  /-- The next expected message arrives and is not stored. -/
  | inOrder

/-- The ring with the messages it accepted and those its cursors yielded. -/
structure RingRun (S : Type) where
  ring : SequenceReassembler S
  accepted : List (ℕ × S)
  yielded : List (ℕ × S)

namespace RingRun

open SequenceReassembler

variable {S : Type} {d : RingRun S}

/-- An empty ring anchored at `start`; `new` alone anchors at 1. -/
def fresh (capacity : ℕ) (hcapacity : 0 < capacity) (start : ℕ) : RingRun S where
  ring := (SequenceReassembler.new capacity hcapacity).resetExpected start
  accepted := []
  yielded := []

def next (d : RingRun S) : RingCall S → RingRun S
  | .insert seq slab calls =>
      let accepted :=
        d.accepted ++ if d.ring.Accepts seq.toNat then [(seq.toNat, slab)] else []
      match d.ring.insert seq.toNat slab with
      | .error _ => d
      | .ok (false, ring) => { d with ring := ring, accepted := accepted }
      | .ok (true, ring) =>
          { ring := (ring.cursor calls).2
            accepted := accepted
            yielded := d.yielded ++ numbered ring.expectedNext (ring.cursor calls).1 }
  | .inOrder =>
      let ring := d.ring.advanceExpected 1
      { d with
        ring := ring.drainReady.2
        yielded := d.yielded ++ numbered ring.expectedNext ring.drainReady.1 }

/-- Sequences stay below the last word. -/
def Allowed (d : RingRun S) : RingCall S → Prop
  | .insert seq _ _ => seq.toNat < 2 ^ 64 - 1
  | .inOrder => d.ring.expectedNext < 2 ^ 64 - 1

instance (d : RingRun S) : (c : RingCall S) → Decidable (d.Allowed c)
  | .insert .. => inferInstanceAs (Decidable (_ < _))
  | .inOrder => inferInstanceAs (Decidable (_ < _))

def machine : Machine (RingRun S) (RingCall S) := .ofNext fun d c ↦ some (d.next c)

/-- The ring holds the accepted messages from `expected_next` on; those yielded lie below. -/
structure Kept (d : RingRun S) : Prop where
  placed : d.ring.WellPlaced
  held : ∀ s x, d.ring.lookup s = some x ↔ (s, x) ∈ d.accepted ∧ d.ring.expectedNext ≤ s
  once : (d.accepted.map Prod.fst).Nodup
  fits : ∀ p ∈ d.accepted, p.1 < 2 ^ 64 - 1
  behind : ∀ p ∈ d.yielded, p ∈ d.accepted ∧ p.1 < d.ring.expectedNext
  increasing : (d.yielded.map Prod.fst).Pairwise (· < ·)

namespace Kept

theorem fresh {capacity : ℕ} (hcapacity : 0 < capacity) (start : ℕ) :
    (fresh capacity hcapacity start : RingRun S).Kept := by
  refine ⟨wellPlaced_new capacity hcapacity, fun s x ↦ ?_, List.nodup_nil, nofun, nofun, .nil⟩
  have hnone : (RingRun.fresh capacity hcapacity start : RingRun S).ring.lookup s = none :=
    lookup_new capacity s hcapacity
  rw [hnone]
  exact ⟨nofun, fun h ↦ (List.not_mem_nil h.1).elim⟩

theorem ahead (h : d.Kept) : d.ring.Ahead := by
  intro s hs
  obtain ⟨x, hx⟩ := Option.isSome_iff_exists.mp hs
  exact ((h.held s x).mp hx).2

theorem fit (h : d.Kept) (s : ℕ) (hs : (d.ring.lookup s).isSome) : s + 1 < 2 ^ 64 := by
  obtain ⟨x, hx⟩ := Option.isSome_iff_exists.mp hs
  have hlt := h.fits _ ((h.held s x).mp hx).1
  change s < 2 ^ 64 - 1 at hlt
  omega

/-- Nothing was accepted for a sequence that is neither delivered nor buffered. -/
theorem not_mem_accepted (h : d.Kept) {s : ℕ} (hle : d.ring.expectedNext ≤ s)
    (hnone : d.ring.lookup s = none) (x : S) : (s, x) ∉ d.accepted := by
  intro hmem
  have hsome := (h.held s x).mpr ⟨hmem, hle⟩
  rw [hnone] at hsome
  cases hsome

theorem store (h : d.Kept) {seq : ℕ} (slab : S) (hle : d.ring.expectedNext ≤ seq)
    (hnone : d.ring.lookup seq = none)
    (hfree : (d.ring.slots (d.ring.slotIndex seq)).payload = none) (hfit : seq < 2 ^ 64 - 1) :
    Kept { d with ring := d.ring.store seq slab, accepted := d.accepted ++ [(seq, slab)] } := by
  refine ⟨wellPlaced_store h.placed seq slab, fun s x ↦ ?_, ?_, fun p hp ↦ ?_, fun p hp ↦ ?_,
    h.increasing⟩
  · change (d.ring.store seq slab).lookup s = some x ↔ _ ∧ d.ring.expectedNext ≤ s
    rw [lookup_store slab hfree, List.mem_append, List.mem_singleton, Prod.mk.injEq]
    by_cases hs : s = seq
    · subst hs
      have hfirst := h.not_mem_accepted hle hnone x
      simp only [if_true, Option.some.injEq, hfirst, false_or, true_and, hle, and_true]
      exact eq_comm
    · simp only [hs, if_false, false_and, or_false]
      exact h.held s x
  · rw [List.map_append]
    apply h.once.append (List.nodup_singleton _)
    rw [List.disjoint_singleton]
    intro hmem
    obtain ⟨⟨s, x⟩, hp, rfl⟩ := List.mem_map.mp hmem
    exact h.not_mem_accepted hle hnone x hp
  · rcases List.mem_append.mp hp with hp | hp
    · exact h.fits p hp
    · rw [List.mem_singleton.mp hp]
      exact hfit
  · exact ⟨List.mem_append_left _ (h.behind p hp).1, (h.behind p hp).2⟩

theorem advance (h : d.Kept) (hnone : d.ring.lookup d.ring.expectedNext = none)
    (hfit : d.ring.expectedNext < 2 ^ 64 - 1) :
    Kept { d with ring := d.ring.advanceExpected 1 } := by
  have hnext : (d.ring.advanceExpected 1).expectedNext = d.ring.expectedNext + 1 :=
    wrappingAdd_of_lt (by omega)
  refine ⟨h.placed, fun s x ↦ ?_, h.once, h.fits, fun p hp ↦ ?_, h.increasing⟩
  · change d.ring.lookup s = some x ↔ _ ∧ (d.ring.advanceExpected 1).expectedNext ≤ s
    rw [h.held, hnext]
    refine and_congr_right fun hmem ↦ ⟨fun hle ↦ ?_, fun hle ↦ by omega⟩
    refine Nat.lt_of_le_of_ne hle fun heq ↦ ?_
    subst heq
    exact h.not_mem_accepted le_rfl hnone x hmem
  · have hlt := (h.behind p hp).2
    refine ⟨(h.behind p hp).1, ?_⟩
    change p.1 < (d.ring.advanceExpected 1).expectedNext
    omega

/-- A cursor over the ring, from its first call to its drop. -/
theorem passes (h : d.Kept) {yields : List (ℕ × S)} {ring : SequenceReassembler S}
    (hplaced : ring.WellPlaced) (hpasses : d.ring.Passes yields ring) :
    Kept { d with ring := ring, yielded := d.yielded ++ yields } ∧
      ring.lookup ring.expectedNext = none := by
  have hreached := hpasses.reached
  have hcount := hpasses.count
  have hkeys : ∀ p ∈ yields, d.ring.expectedNext ≤ p.1 ∧ p.1 < ring.expectedNext := by
    intro p hp
    have hmem := List.mem_map_of_mem (f := Prod.fst) hp
    rw [hpasses.consecutive, List.mem_range'_1] at hmem
    omega
  refine ⟨⟨hplaced, fun s x ↦ ?_, h.once, h.fits, fun p hp ↦ ?_, ?_⟩, ?_⟩
  · change ring.lookup s = some x ↔ _ ∧ ring.expectedNext ≤ s
    rw [hpasses.rest]
    by_cases hlt : s < ring.expectedNext
    · simp [hlt]
    · rw [if_neg hlt, h.held]
      refine and_congr_right fun _ ↦ ⟨fun _ ↦ Nat.le_of_not_lt hlt, fun hle ↦ hreached.trans hle⟩
  · rcases List.mem_append.mp hp with hp | hp
    · exact ⟨(h.behind p hp).1, (h.behind p hp).2.trans_le hreached⟩
    · exact ⟨((h.held _ _).mp (hpasses.payload p hp)).1, (hkeys p hp).2⟩
  · rw [List.map_append, List.pairwise_append]
    refine ⟨h.increasing, ?_, fun a ha b hb ↦ ?_⟩
    · rw [hpasses.consecutive]
      exact List.pairwise_lt_range'
    · obtain ⟨p, hp, rfl⟩ := List.mem_map.mp ha
      obtain ⟨q, hq, rfl⟩ := List.mem_map.mp hb
      exact (h.behind p hp).2.trans_le (hkeys q hq).1
  · rw [hpasses.rest, if_neg (lt_irrefl _), hpasses.stopped]

end Kept

/-- The ways an insert goes: dropped or refused, stored ahead, or stored and drained. -/
theorem next_insert_cases (d : RingRun S) (seq : UInt64) (slab : S) (calls : ℕ) :
    (¬ d.ring.Accepts seq.toNat ∧ (∀ c, d.ring.insert seq.toNat slab ≠ .ok (true, c)) ∧
      d.next (.insert seq slab calls) = d) ∨
    (d.ring.expectedNext ≤ seq.toNat ∧ d.ring.lookup seq.toNat = none ∧
      (d.ring.slots (d.ring.slotIndex seq.toNat)).payload = none ∧
      d.ring.insert seq.toNat slab =
        .ok (decide (seq.toNat = d.ring.expectedNext), d.ring.store seq.toNat slab) ∧
      d.next (.insert seq slab calls) =
        if seq.toNat = d.ring.expectedNext then
          { ring := ((d.ring.store seq.toNat slab).cursor calls).2
            accepted := d.accepted ++ [(seq.toNat, slab)]
            yielded := d.yielded ++ numbered d.ring.expectedNext
              ((d.ring.store seq.toNat slab).cursor calls).1 }
        else
          { d with
            ring := d.ring.store seq.toNat slab
            accepted := d.accepted ++ [(seq.toNat, slab)] }) := by
  rcases d.ring.insert_cases seq.toNat slab with
    ⟨hlt, h⟩ | ⟨hle, hheld, h⟩ | ⟨hle, hnone, hsome, hne, h⟩ | ⟨hle, hnone, hfree, h⟩
  · have hrefuses : ¬ d.ring.Accepts seq.toNat := fun ha ↦ absurd ha.1 (Nat.not_le.mpr hlt)
    refine Or.inl ⟨hrefuses, by simp [h], ?_⟩
    simp [next, h, hrefuses]
  · have hrefuses : ¬ d.ring.Accepts seq.toNat := by
      rintro ⟨-, hfree⟩
      rw [lookup, Option.isNone_iff_eq_none.mp hfree, ite_self] at hheld
      cases hheld
    refine Or.inl ⟨hrefuses, by simp [h], ?_⟩
    simp [next, h, hrefuses]
  · have hrefuses : ¬ d.ring.Accepts seq.toNat := by
      rintro ⟨-, hfree⟩
      rw [Option.isNone_iff_eq_none.mp hfree] at hsome
      cases hsome
    refine Or.inl ⟨hrefuses, by simp [h], ?_⟩
    simp [next, h]
  · have haccepts : d.ring.Accepts seq.toNat := ⟨hle, by simp [hfree]⟩
    refine Or.inr ⟨hle, hnone, hfree, h, ?_⟩
    by_cases heq : seq.toNat = d.ring.expectedNext
    · rw [next, h, if_pos heq, if_pos haccepts, decide_eq_true heq]
      rfl
    · rw [next, h, if_neg heq, if_pos haccepts, decide_eq_false heq]

/-- Between two calls nothing is left to drain. -/
structure Sound (d : RingRun S) : Prop extends d.Kept where
  stopped : d.ring.lookup d.ring.expectedNext = none

namespace Sound

theorem next (h : d.Sound) {c : RingCall S} (hallowed : d.Allowed c) :
    (d.next c).Sound ∧ (d.next c).ring.capacity = d.ring.capacity := by
  cases c with
  | insert seq slab calls =>
      rcases d.next_insert_cases seq slab calls with
        ⟨-, -, hnext⟩ | ⟨hle, hnone, hfree, -, hnext⟩
      · rw [hnext]
        exact ⟨h, rfl⟩
      · have hkept := h.store slab hle hnone hfree hallowed
        rw [hnext]
        split
        · have hpasses := (passes_cursor hkept.ahead hkept.fit calls).1
          obtain ⟨hkept', hstopped⟩ := hkept.passes (wellPlaced_cursor hkept.placed calls) hpasses
          exact ⟨⟨hkept', hstopped⟩, capacity_cursor calls _⟩
        · next hne =>
            refine ⟨⟨hkept, ?_⟩, rfl⟩
            change (d.ring.store seq.toNat slab).lookup d.ring.expectedNext = none
            rw [lookup_store slab hfree, if_neg (Ne.symm hne)]
            exact h.stopped
  | inOrder =>
      have hkept := h.advance h.stopped hallowed
      have hpasses := (passes_drainReady hkept.ahead hkept.fit).1
      obtain ⟨hkept', hstopped⟩ := hkept.passes (wellPlaced_drain hkept.placed) hpasses
      exact ⟨⟨hkept', hstopped⟩, capacity_drain _ _⟩

end Sound

end RingRun

open SequenceReassembler in
/-- The reorder ring along every run.  A slot in use holds a sequence of its residue above
`expected_next`.  What cursors yielded was accepted for the sequence it is yielded for, and no
sequence is yielded twice.  A stale, duplicate or refused insert changes nothing.  A cursor,
however far it is iterated before it is dropped, passes to the first sequence not buffered and
yields the payloads of the consecutive sequences from where it started; the step for the next
expected message yields all of them. -/
theorem reorder_ring_runs {S : Type} {capacity : ℕ} {hcapacity : 0 < capacity} {start : UInt64}
    {d : RingRun S}
    (hrun : RingRun.machine.Run RingRun.Allowed (.fresh capacity hcapacity start.toNat) d) :
    (∀ i, (d.ring.slots i).payload.isSome →
      d.ring.expectedNext < (d.ring.slots i).seq ∧ (d.ring.slots i).seq % capacity = i) ∧
    (∀ p ∈ d.yielded, p ∈ d.accepted) ∧ (d.accepted.map Prod.fst).Nodup ∧
    (d.yielded.map Prod.fst).Pairwise (· < ·) ∧
    (∀ seq slab calls, d.Allowed (.insert seq slab calls) →
      ((seq.toNat < d.ring.expectedNext ∨ (d.ring.lookup seq.toNat).isSome ∨
          (∃ e, d.ring.insert seq.toNat slab = .error e) →
        d.next (.insert seq slab calls) = d) ∧
      ∀ c, d.ring.insert seq.toNat slab = .ok (true, c) →
        seq.toNat = c.expectedNext ∧ c.expectedNext = d.ring.expectedNext ∧
        ∃ yields, (d.next (.insert seq slab calls)).yielded = d.yielded ++ yields ∧
          c.Passes yields (d.next (.insert seq slab calls)).ring ∧
          yields.length = min calls
            ((d.next (.insert seq slab calls)).ring.expectedNext - c.expectedNext))) ∧
    (d.Allowed .inOrder →
      ∃ yields, (d.next .inOrder).yielded = d.yielded ++ yields ∧
        (d.ring.advanceExpected 1).Passes yields (d.next .inOrder).ring ∧
        yields.length = (d.next .inOrder).ring.expectedNext - (d.ring.expectedNext + 1)) := by
  have hinv : d.Sound ∧ d.ring.capacity = capacity := by
    refine hrun.invariant (I := fun d ↦ d.Sound ∧ d.ring.capacity = capacity)
      ⟨⟨.fresh hcapacity _, lookup_new _ _ hcapacity⟩, rfl⟩ ?_
    rintro d c _ ⟨h, hcap⟩ hallowed ⟨⟩
    exact ⟨(h.next hallowed).1, (h.next hallowed).2.trans hcap⟩
  obtain ⟨h, rfl⟩ := hinv
  refine ⟨fun i hi ↦ ?_, fun p hp ↦ (h.behind p hp).1, h.once, h.increasing,
    fun seq slab calls hallowed ↦ ⟨fun hdropped ↦ ?_, fun c hc ↦ ?_⟩, fun hallowed ↦ ?_⟩
  · have hslot : d.ring.slotIndex (d.ring.slots i).seq = i := h.placed i hi
    have hheld : (d.ring.lookup (d.ring.slots i).seq).isSome := by
      rw [lookup, hslot, if_pos rfl]
      exact hi
    refine ⟨Nat.lt_of_le_of_ne (h.ahead _ hheld) fun heq ↦ ?_, hslot⟩
    rw [← heq, h.stopped] at hheld
    cases hheld
  · rcases d.next_insert_cases seq slab calls with ⟨-, -, hnext⟩ | ⟨hle, hnone, -, hok, -⟩
    · exact hnext
    · rcases hdropped with hlt | hheld | ⟨e, herr⟩
      · omega
      · rw [hnone] at hheld
        cases hheld
      · rw [hok] at herr
        cases herr
  · rcases d.next_insert_cases seq slab calls with
      ⟨-, hno, -⟩ | ⟨hle, hnone, hfree, hok, hnext⟩
    · exact (hno c hc).elim
    · rw [hok] at hc
      obtain ⟨heq, rfl⟩ := Prod.mk.inj (Except.ok.inj hc)
      have heq := of_decide_eq_true heq
      have hkept := h.store slab hle hnone hfree hallowed
      obtain ⟨hpasses, hlen⟩ := passes_cursor hkept.ahead hkept.fit calls
      rw [hnext, if_pos heq]
      refine ⟨heq, rfl, _, rfl, hpasses, ?_⟩
      rw [length_numbered]
      exact hlen
  · have hkept := h.advance h.stopped hallowed
    obtain ⟨hpasses, hlen⟩ := passes_drainReady hkept.ahead hkept.fit
    refine ⟨_, rfl, hpasses, ?_⟩
    have hfit : d.ring.expectedNext < 2 ^ 64 - 1 := hallowed
    rw [length_numbered, ← wrappingAdd_of_lt (show d.ring.expectedNext + 1 < 2 ^ 64 by omega)]
    exact hlen

/-- Four slots: 3 and 2 wait, 7 is refused by the slot of 3, and the cursor for 1 is dropped
after two calls; 6 waits while 4 comes in order. -/
theorem reorder_ring_runs_dropped :
    ∃ d : RingRun ℕ,
      RingRun.machine.Run RingRun.Allowed (.fresh 4 (by decide) (1 : UInt64).toNat) d ∧
      d.yielded = [(1, 10), (2, 20)] ∧ d.accepted = [(3, 30), (2, 20), (1, 10), (6, 60)] ∧
      d.ring.expectedNext = 5 ∧ (d.accepted.map Prod.fst).Nodup ∧
      d.next (.insert 3 31 0) = d ∧
      ∃ yields, (d.next .inOrder).yielded = d.yielded ++ yields ∧
        (d.ring.advanceExpected 1).Passes yields (d.next .inOrder).ring := by
  have hend : ∃ d ∈ Machine.follow (fun d c ↦ some (RingRun.next d c))
        (.fresh 4 (by decide) (1 : UInt64).toNat)
        [.insert 3 30 0, .insert 2 20 1, .insert 7 70 0, .insert 1 10 2, .insert 6 60 0, .inOrder],
      d.yielded = [(1, 10), (2, 20)] ∧ d.accepted = [(3, 30), (2, 20), (1, 10), (6, 60)] ∧
      d.ring.expectedNext = 5 := by
    decide +kernel
  obtain ⟨d, hd, hyielded, haccepted, hexpected⟩ := hend
  have hrun : RingRun.machine.Run RingRun.Allowed
      (.fresh 4 (by decide) (1 : UInt64).toNat) d := .of_follow (by decide +kernel) hd
  obtain ⟨-, -, honce, -, hinsert, hfused⟩ := reorder_ring_runs hrun
  have hallowed : d.Allowed .inOrder := by
    change d.ring.expectedNext < _
    omega
  obtain ⟨yields, hyields, hpasses, -⟩ := hfused hallowed
  refine ⟨d, hrun, hyielded, haccepted, hexpected, honce, ?_, yields, hyields, hpasses⟩
  have hthree : d.Allowed (.insert 3 31 0) := show (3 : UInt64).toNat < 2 ^ 64 - 1 by decide
  apply (hinsert 3 31 0 hthree).1
  exact Or.inl (by rw [hexpected]; decide)

end MoldUdp
