import PolarisTrade.MoldUdp.InOrder

/-!
# The reorder window

What the receiver is for, as a set: it *has* a number once that number was delivered or
is buffered.  A block less than one ring ahead of `expected_next` adds exactly its own
number to this set and is never refused, on one leg or behind the arbiter, whose window
mirrors the set.
-/

namespace MoldUdp

open Transport Word

variable {F : Type}

/-- Number `n` was delivered or is buffered. -/
def Inner.Has (i : Inner F) (n : ℕ) : Prop :=
  n < i.reassembler.expectedNext ∨ (i.reassembler.lookup n).isSome

/-- The ring holds numbers strictly ahead of `expected_next`. -/
structure Inner.RingOpen (i : Inner F) : Prop where
  placed : i.reassembler.WellPlaced
  ahead : ∀ n, (i.reassembler.lookup n).isSome → i.reassembler.expectedNext < n
  fits : i.RingFits

/-- The first number the receiver does not have is `expected_next`. -/
theorem Inner.RingOpen.not_has_expectedNext {i : Inner F} (h : i.RingOpen) :
    ¬ i.Has i.reassembler.expectedNext := by
  rintro (hlt | hheld)
  · exact lt_irrefl _ hlt
  · exact lt_irrefl _ (h.ahead _ hheld)

theorem Inner.RingOpen.congr {i i' : Inner F} (h : i.RingOpen)
    (hring : i'.reassembler = i.reassembler) : i'.RingOpen := by
  refine ⟨hring ▸ h.placed, ?_, fun n hn ↦ h.fits n (hring ▸ hn)⟩
  rw [hring]
  exact h.ahead

/-- From `i` to `i'` the receiver got `seq` and nothing else. -/
structure Inner.Gets (i i' : Inner F) (seq : ℕ) : Prop where
  ring : i'.RingOpen
  capacity : i'.reassembler.capacity = i.reassembler.capacity
  le : i.reassembler.expectedNext ≤ i'.reassembler.expectedNext
  has : ∀ n, i'.Has n ↔ i.Has n ∨ n = seq
  held : ∀ n, (i'.reassembler.lookup n).isSome → (i.reassembler.lookup n).isSome ∨ n = seq

/-- Getting a number the receiver has already. -/
theorem Inner.Gets.refl {i : Inner F} {seq : ℕ} (h : i.RingOpen) (hseq : i.Has seq) :
    i.Gets i seq :=
  ⟨h, rfl, le_rfl, fun _ ↦ ⟨Or.inl, fun hn ↦ hn.elim id fun heq ↦ heq ▸ hseq⟩, fun _ ↦ Or.inl⟩

namespace Decoding

variable {d : Decoding F}

theorem deliver_gets (h : d.inner.RingOpen) (streamId : UInt8) {b : Block}
    (hb : b.seq = d.inner.reassembler.expectedNext) (hfit : b.seq + 1 < 2 ^ 64) :
    d.inner.Gets (d.deliver streamId b).inner b.seq := by
  obtain ⟨views, -, hexp, -, hpay, hlook, hend⟩ := deliver_spec h.fits streamId hb hfit
  -- a drained number was in the ring
  have hdrained : ∀ n, b.seq + 1 ≤ n → n < b.seq + 1 + views.length →
      (d.inner.reassembler.lookup n).isSome := by
    intro n hlo hhi
    have hn := hpay (n - (b.seq + 1)) (by omega)
    rw [Nat.add_sub_cancel' hlo, List.getElem?_eq_getElem (by omega)] at hn
    exact Option.isSome_iff_exists.mpr ⟨_, hn⟩
  have hkept : ∀ n, ((d.deliver streamId b).inner.reassembler.lookup n).isSome ↔
      (d.inner.reassembler.lookup n).isSome ∧ b.seq + 1 + views.length < n := by
    intro n
    constructor
    · intro hn
      have hne : n ≠ b.seq + 1 + views.length := by
        rintro rfl
        rw [hend] at hn
        cases hn
      rw [hlook] at hn
      split at hn
      · cases hn
      · next hout =>
          have := h.ahead n hn
          exact ⟨hn, by omega⟩
    · rintro ⟨hn, hlt⟩
      rw [hlook, if_neg (by omega)]
      exact hn
  refine ⟨⟨?_, fun n hn ↦ ?_, fun n hn ↦ ?_⟩, ?_, ?_, fun n ↦ ?_, fun n hn ↦ ?_⟩
  · exact SequenceReassembler.wellPlaced_drain
      (r := d.inner.reassembler.advanceExpected 1) h.placed
  · rw [hexp]
    exact ((hkept n).mp hn).2
  · exact h.fits n ((hkept n).mp hn).1
  · exact SequenceReassembler.capacity_drain _ _
  · rw [hexp]
    omega
  · unfold Inner.Has
    rw [hexp, hkept]
    constructor
    · rintro (hlt | ⟨hold, -⟩)
      · by_cases hlow : n < b.seq + 1
        · by_cases heq : n = b.seq
          · exact Or.inr heq
          · exact Or.inl (Or.inl (by omega))
        · exact Or.inl (Or.inr (hdrained n (by omega) hlt))
      · exact Or.inl (Or.inr hold)
    · rintro ((hlt | hold) | rfl)
      · exact Or.inl (by omega)
      · by_cases hlow : n < b.seq + 1 + views.length
        · exact Or.inl hlow
        · refine Or.inr ⟨hold, ?_⟩
          have hne : n ≠ b.seq + 1 + views.length := by
            rintro rfl
            rw [hlook, if_neg (by omega)] at hend
            rw [hend] at hold
            cases hold
          omega
      · exact Or.inl (by omega)
  · exact Or.inl ((hkept n).mp hn).1

/-- A block ahead of `expected_next` is buffered, unless its slot holds another number. -/
theorem buffer_gets (h : d.inner.RingOpen) (streamId : UInt8) {b : Block}
    (hb : d.inner.reassembler.expectedNext < b.seq) (hfit : b.seq + 1 < 2 ^ 64) :
    ((d.buffer streamId b).1 = .ok () ∧ d.inner.Gets (d.buffer streamId b).2.inner b.seq) ∨
    (d.buffer streamId b).2.inner = d.inner ∧ d.inner.reassembler.lookup b.seq = none ∧
      (d.buffer streamId b).1 = .error (.reassemblyBufferFull d.inner.reassembler.capacity) ∧
      ∃ n ≠ b.seq, (d.inner.reassembler.lookup n).isSome ∧
        d.inner.reassembler.slotIndex n = d.inner.reassembler.slotIndex b.seq := by
  unfold Decoding.buffer
  rcases d.inner.reassembler.insert_cases b.seq ⟨d.backing.share.2, b.offset, b.len⟩ with
    ⟨hlt, -⟩ | ⟨-, hheld, hinsert⟩ | ⟨-, hnone, hsome, hne, hinsert⟩ | ⟨-, -, hfree, hinsert⟩
  · omega
  · rw [hinsert]
    exact Or.inl ⟨rfl, .refl h (Or.inr hheld)⟩
  · rw [hinsert]
    obtain ⟨hslot, hother⟩ := SequenceReassembler.lookup_of_refused h.placed hsome
    exact Or.inr ⟨rfl, hnone, rfl, _, hne, hother, hslot⟩
  · have hahead : decide (b.seq = d.inner.reassembler.expectedNext) = false := by
      simp only [decide_eq_false_iff_not]
      omega
    rw [hinsert, hahead]
    have hlook := @SequenceReassembler.lookup_store _ d.inner.reassembler b.seq
      ⟨d.backing.share.2, b.offset, b.len⟩ hfree
    have hheld : ∀ n, ((d.inner.reassembler.store b.seq
        ⟨d.backing.share.2, b.offset, b.len⟩).lookup n).isSome ↔
        (d.inner.reassembler.lookup n).isSome ∨ n = b.seq := by
      intro n
      rw [hlook]
      split
      · next heq => simp [heq]
      · next hn => simp [hn]
    refine Or.inl ⟨rfl, ⟨?_, fun n hn ↦ ?_, fun n hn ↦ ?_⟩, rfl, le_rfl, fun n ↦ ?_,
      fun n ↦ (hheld n).mp⟩
    · exact SequenceReassembler.wellPlaced_store h.placed _ _
    · rcases (hheld n).mp hn with hold | rfl
      · exact h.ahead n hold
      · exact hb
    · rcases (hheld n).mp hn with hold | rfl
      · exact h.fits n hold
      · exact hfit
    · exact (or_congr_right (hheld n)).trans (or_assoc).symm

/-- Unless an insert is refused, placing a block gets its number. -/
theorem place_gets (h : d.inner.RingOpen) (streamId : UInt8) {b : Block}
    (hfit : b.seq + 1 < 2 ^ 64) :
    ((d.place streamId b).1 = .ok () ∧ d.inner.Gets (d.place streamId b).2.inner b.seq) ∨
    (d.place streamId b).2.inner = d.inner ∧ d.inner.reassembler.expectedNext < b.seq ∧
      d.inner.reassembler.lookup b.seq = none ∧
      (d.place streamId b).1 = .error (.reassemblyBufferFull d.inner.reassembler.capacity) ∧
      ∃ n ≠ b.seq, (d.inner.reassembler.lookup n).isSome ∧
        d.inner.reassembler.slotIndex n = d.inner.reassembler.slotIndex b.seq := by
  unfold Decoding.place
  split
  · next heq => exact Or.inl ⟨rfl, deliver_gets h streamId (compare_eq_iff_eq.mp heq) hfit⟩
  · next hgt =>
      have hb := compare_gt_iff_gt.mp hgt
      rcases buffer_gets h streamId hb hfit with hgets | ⟨hsame, hrest⟩
      · exact Or.inl hgets
      · exact Or.inr ⟨hsame, hb, hrest⟩
  · next hlt => exact Or.inl ⟨rfl, .refl h (Or.inl (compare_lt_iff_lt.mp hlt))⟩

end Decoding

/-! ## Inside the window -/

/-- The ring holds numbers less than one turn ahead of `expected_next`. -/
structure Inner.RingAhead (i : Inner F) : Prop extends i.RingOpen where
  capacity : i.reassembler.capacity = ringCapacity
  turn : ∀ n, (i.reassembler.lookup n).isSome →
    n < i.reassembler.expectedNext + ringCapacity

/-- Two numbers of one slot less than a turn apart are the same number. -/
theorem eq_of_slotIndex {r : SequenceReassembler (MessageView F)} {m n base : ℕ}
    (hm : base < m) (hm' : m < base + r.capacity) (hn : base < n) (hn' : n < base + r.capacity)
    (hslot : r.slotIndex m = r.slotIndex n) : m = n := by
  have hmod : m % r.capacity = n % r.capacity := hslot
  rcases Nat.lt_trichotomy m n with hlt | heq | hgt
  · have hdvd : r.capacity ∣ n - m := (Nat.modEq_iff_dvd' hlt.le).mp hmod
    have := Nat.le_of_dvd (by omega) hdvd
    omega
  · exact heq
  · have hdvd : r.capacity ∣ m - n := (Nat.modEq_iff_dvd' hgt.le).mp hmod.symm
    have := Nat.le_of_dvd (by omega) hdvd
    omega

/-- Inside the window an insert is never refused: the only number that could be in its
slot is the number itself. -/
theorem Decoding.place_ringAhead {d : Decoding F} (h : d.inner.RingAhead) (streamId : UInt8)
    {b : Block} (hwindow : b.seq < d.inner.reassembler.expectedNext + ringCapacity)
    (hfit : b.seq + 1 < 2 ^ 64) :
    (d.place streamId b).1 = .ok () ∧ (d.place streamId b).2.inner.RingAhead ∧
      d.inner.Gets (d.place streamId b).2.inner b.seq := by
  rcases place_gets h.toRingOpen streamId hfit with
    ⟨hok, hgets⟩ | ⟨-, hb, -, -, n, hne, hheld, hslot⟩
  · refine ⟨hok, ⟨hgets.ring, hgets.capacity.trans h.capacity, fun n hn ↦ ?_⟩, hgets⟩
    have hle := hgets.le
    rcases hgets.held n hn with hold | rfl
    · have := h.turn n hold
      omega
    · omega
  · have hahead := h.ahead n hheld
    have hturn := h.turn n hheld
    rw [← h.capacity] at hturn hwindow
    exact (hne (eq_of_slotIndex hahead hturn hb hwindow hslot)).elim

/-! ## Behind the arbiter -/

/-- The arbiter's window has not passed `expected_next`, and from its base on it has seen
exactly the numbers the receiver has. -/
structure AbArbiter.Mirrors (a : AbArbiter) (i : Inner F) : Prop where
  len : a.windowLen = ringCapacity
  base : a.windowBase ≤ i.reassembler.expectedNext
  seen : ∀ n, a.windowBase ≤ n → (a.Seen n ↔ i.Has n)

/-- Ring and arbiter in step. -/
structure Inner.Windowed (i : Inner F) : Prop where
  ring : i.RingAhead
  arbiter : ∀ a ∈ i.arbiter, a.Mirrors i

/-- Same window, whatever the candidates and counters. -/
structure AbArbiter.SameWindow (a a' : AbArbiter) : Prop where
  base : a'.windowBase = a.windowBase
  len : a'.windowLen = a.windowLen
  seen : ∀ n, a'.Seen n ↔ a.Seen n

theorem AbArbiter.sameWindow_noteMissingRange (a : AbArbiter) (start stop : ℕ) (now : Instant) :
    a.SameWindow (a.noteMissingRange start stop now) := by
  unfold noteMissingRange
  generalize List.range' start (stop - start) = missing
  induction missing generalizing a with
  | nil => exact ⟨rfl, rfl, fun _ ↦ Iff.rfl⟩
  | cons n missing ih =>
      have hnote : a.SameWindow (a.noteMissing now n) := by
        unfold noteMissing
        split <;> exact ⟨rfl, rfl, fun _ ↦ Iff.rfl⟩
      obtain ⟨hbase, hlen, hseen⟩ := ih (a.noteMissing now n)
      exact ⟨hbase.trans hnote.base, hlen.trans hnote.len,
        fun k ↦ (hseen k).trans (hnote.seen k)⟩

/-- Only the ring and the arbiter's window matter. -/
theorem Inner.Windowed.congr {i i' : Inner F} (h : i.Windowed)
    (hring : i'.reassembler = i.reassembler)
    (harbiter : ∀ a' ∈ i'.arbiter, ∃ a ∈ i.arbiter, a.SameWindow a') : i'.Windowed := by
  have hhas : ∀ n, i'.Has n ↔ i.Has n := by
    intro n
    unfold Inner.Has
    rw [hring]
  refine ⟨⟨h.ring.toRingOpen.congr hring, hring ▸ h.ring.capacity, ?_⟩, fun a' ha' ↦ ?_⟩
  · rw [hring]
    exact h.ring.turn
  · obtain ⟨a, ha, hsame⟩ := harbiter a' ha'
    obtain ⟨hlen, hbase, hseen⟩ := h.arbiter a ha
    refine ⟨hsame.len.trans hlen, ?_, fun n hn ↦ ?_⟩
    · rw [hsame.base, hring]
      exact hbase
    · rw [hsame.seen, hhas]
      exact hseen n (hsame.base ▸ hn)

theorem Inner.Windowed.of_eq {i i' : Inner F} (h : i.Windowed)
    (hring : i'.reassembler = i.reassembler) (harbiter : i'.arbiter = i.arbiter) : i'.Windowed :=
  h.congr hring fun a ha ↦ ⟨a, harbiter ▸ ha, ⟨rfl, rfl, fun _ ↦ Iff.rfl⟩⟩

namespace Decoding

variable {d : Decoding F}

/-- One block inside the window, whatever the arbiter says: no failure, and afterwards
the receiver has the block's number besides what it had. -/
theorem decodeBlock_windowed (h : d.inner.Windowed) (streamId : UInt8) (now : Option Instant)
    {b : Block} (hwindow : b.seq < d.inner.reassembler.expectedNext + ringCapacity)
    (hfit : b.seq + 1 < 2 ^ 64) (hnow : d.inner.arbiter.isSome → now.isSome) :
    (decodeBlock streamId now b d).1 = .ok () ∧
      (decodeBlock streamId now b d).2.inner.Windowed ∧
      (∀ n, (decodeBlock streamId now b d).2.inner.Has n ↔ d.inner.Has n ∨ n = b.seq) ∧
      ((decodeBlock streamId now b d).2.inner.arbiter.isSome → now.isSome) := by
  have hlen : ∀ a ∈ d.inner.arbiter, a.windowLen < 2 ^ 64 := by
    intro a ha
    rw [(h.arbiter a ha).len]
    exact ringCapacity_lt
  rcases decodeBlock_cases streamId now b d (Nat.lt_of_succ_lt hfit) hlen with
    ⟨hnone, hdecode⟩ | ⟨a, a', t, harbiter, rfl, -, hforward, hdecode⟩ |
    ⟨a, a', t, harbiter, rfl, hdrops, hunmoved, hdecode⟩
  · have hnone : d.inner.arbiter = none := by
      rcases hnone with hnone | rfl
      · exact hnone
      · by_contra hsome
        exact absurd (hnow (Option.isSome_iff_ne_none.mpr hsome)) (by simp)
    have hring₁ : (d.unarbitrated b).inner.RingAhead :=
      ⟨h.ring.toRingOpen.congr rfl, h.ring.capacity, h.ring.turn⟩
    obtain ⟨hok, hring, hgets⟩ := place_ringAhead hring₁ streamId hwindow hfit
    have harbiter : ((d.unarbitrated b).place streamId b).2.inner.arbiter = none :=
      (arbiter_place streamId b).trans hnone
    rw [hdecode]
    refine ⟨hok, ⟨hring, ?_⟩, hgets.has, ?_⟩
    · rw [harbiter]
      intro a ha
      cases ha
    · rw [harbiter]
      intro hsome
      cases hsome
  · obtain ⟨hlen, hbase, hseen⟩ := h.arbiter a harbiter
    have hring₁ : (d.forwarded a' b).inner.RingAhead :=
      ⟨h.ring.toRingOpen.congr rfl, h.ring.capacity, h.ring.turn⟩
    obtain ⟨hok, hring, hgets⟩ := place_ringAhead hring₁ streamId hwindow hfit
    have harbiter' : ((d.forwarded a' b).place streamId b).2.inner.arbiter = some a' :=
      arbiter_place streamId b
    have hhas : ∀ n, ((d.forwarded a' b).place streamId b).2.inner.Has n ↔
      d.inner.Has n ∨ n = b.seq := hgets.has
    have hmono : d.inner.reassembler.expectedNext ≤
      ((d.forwarded a' b).place streamId b).2.inner.reassembler.expectedNext := hgets.le
    have hbase' := hforward.base
    rw [hdecode]
    refine ⟨hok, ⟨hring, ?_⟩, hhas, fun _ ↦ rfl⟩
    rw [harbiter']
    rintro _ ⟨⟩
    refine ⟨hforward.len.trans hlen, ?_, fun n hn ↦ ?_⟩
    · -- the window slides only as far as the block is ahead
      rw [hlen] at hbase'
      omega
    · have hle : a.windowBase ≤ n := by omega
      rw [hforward.seen, hhas, hseen n hle]
      constructor
      · rintro (⟨hold, -⟩ | ⟨heq, -⟩)
        · exact Or.inl hold
        · exact Or.inr heq
      · rintro (hold | rfl)
        · exact Or.inl ⟨hold, hn⟩
        · exact Or.inr ⟨rfl, hle⟩
  · obtain ⟨hlen, hbase, hseen⟩ := h.arbiter a harbiter
    -- a dropped number is one the receiver has
    have hhas : d.inner.Has b.seq := by
      by_cases hlow : b.seq < a.windowBase
      · exact Or.inl (hlow.trans_le hbase)
      · have hle := Nat.le_of_not_lt hlow
        refine (hseen b.seq hle).mp ?_
        by_contra hunseen
        exact hdrops (Or.inr ⟨hle, hunseen⟩)
    rw [hdecode]
    refine ⟨rfl, ⟨⟨h.ring.toRingOpen.congr rfl, h.ring.capacity, h.ring.turn⟩, ?_⟩,
      fun n ↦ ⟨Or.inl, fun hn ↦ hn.elim id fun heq ↦ heq ▸ hhas⟩, fun _ ↦ rfl⟩
    rintro _ ⟨⟩
    refine ⟨hunmoved.len.trans hlen, hunmoved.base.trans_le hbase, fun n hn ↦ ?_⟩
    rw [hunmoved.seen]
    exact hseen n (hunmoved.base ▸ hn)

/-- Along the loop, every block is inside the window when its turn comes. -/
def InWindow (streamId : UInt8) (now : Option Instant) : List Block → Decoding F → Prop
  | [], _ => True
  | b :: blocks, d => b.seq < d.inner.reassembler.expectedNext + ringCapacity ∧
      InWindow streamId now blocks (decodeBlock streamId now b d).2

instance decidableInWindow (streamId : UInt8) (now : Option Instant) :
    ∀ (blocks : List Block) (d : Decoding F), Decidable (InWindow streamId now blocks d)
  | [], _ => .isTrue trivial
  | b :: blocks, d =>
      have := decidableInWindow streamId now blocks (decodeBlock streamId now b d).2
      inferInstanceAs (Decidable (_ ∧ _))

theorem decodeBlocks_windowed {streamId : UInt8} {now : Option Instant} {blocks : List Block} :
    ∀ {d : Decoding F}, d.inner.Windowed → InWindow streamId now blocks d →
      (∀ b ∈ blocks, b.seq + 1 < 2 ^ 64) → (d.inner.arbiter.isSome → now.isSome) →
      (decodeBlocks streamId now blocks d).1 = .ok () ∧
        (decodeBlocks streamId now blocks d).2.inner.Windowed ∧
        ∀ n, (decodeBlocks streamId now blocks d).2.inner.Has n ↔
          d.inner.Has n ∨ ∃ b ∈ blocks, b.seq = n := by
  induction blocks with
  | nil => exact fun h _ _ _ ↦ ⟨rfl, h, fun n ↦ by simp [decodeBlocks]⟩
  | cons b blocks ih =>
      intro d h hwindow hfit hnow
      obtain ⟨hok, h₁, hhas₁, hnow₁⟩ := decodeBlock_windowed h streamId now hwindow.1
        (hfit b List.mem_cons_self) hnow
      obtain ⟨hok₂, h₂, hhas₂⟩ := ih h₁ hwindow.2
        (fun b' hb' ↦ hfit b' (List.mem_cons_of_mem b hb')) hnow₁
      have hrest : decodeBlocks streamId now (b :: blocks) d =
          decodeBlocks streamId now blocks (decodeBlock streamId now b d).2 := by
        rw [decodeBlocks]
        generalize decodeBlock streamId now b d = decoded at hok ⊢
        obtain ⟨_ | _, d'⟩ := decoded
        · cases hok
        · rfl
      rw [hrest]
      refine ⟨hok₂, h₂, fun n ↦ (hhas₂ n).trans ?_⟩
      rw [hhas₁, or_assoc, List.exists_mem_cons_iff]
      exact or_congr_right (or_congr_left eq_comm)

end Decoding

/-! ## One decode step -/

namespace Inner

theorem Windowed.noteJump {i : Inner F} (h : i.Windowed) (sequence : ℕ) (now : Option Instant) :
    (i.noteJump sequence now).Windowed := by
  rcases i.noteJump_cases sequence now with
    ⟨-, hjump⟩ | ⟨-, a, t, harbiter, -, hjump⟩ | ⟨-, -, hjump⟩
  · rw [hjump]
    exact h
  · rw [hjump]
    refine h.congr rfl ?_
    rintro _ ⟨⟩
    exact ⟨a, harbiter, a.sameWindow_noteMissingRange _ _ _⟩
  · rw [hjump]
    exact h.of_eq rfl rfl

theorem Windowed.drainConfirmedGaps {i : Inner F} (h : i.Windowed) (now : Instant) :
    (i.drainConfirmedGaps now).Windowed := by
  unfold Inner.drainConfirmedGaps
  split
  · exact h
  · next a harbiter =>
      refine h.congr rfl ?_
      rintro _ ⟨⟩
      exact ⟨a, harbiter, ⟨rfl, rfl, fun _ ↦ Iff.rfl⟩⟩

theorem has_congr {i i' : Inner F} (hring : i'.reassembler = i.reassembler) (n : ℕ) :
    i'.Has n ↔ i.Has n := by
  unfold Has
  rw [hring]

end Inner

end MoldUdp
