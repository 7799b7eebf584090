import PolarisTrade.MoldUdp.ArbiterSet

/-!
# Staging delivered sequences

`note_missing_range` skips what the bitmap knows to be delivered.  The bitmap forgets a sequence
when the window slides past it, so a delivered sequence below the window is staged again by any
range that holds it; and near the last word the end of the window wraps, so nothing is skipped.
Ranges without such sequences stage nothing that was delivered.
-/

namespace MoldUdp

open Transport Word

/-! ## What is skipped -/

namespace AbArbiter

variable {a : AbArbiter}

/-- `note_missing_range` passes over `s`. -/
def Skips (a : AbArbiter) (s : ℕ) : Prop :=
  a.windowBase ≤ s ∧ s < wrappingAdd a.windowBase a.windowLen ∧ a.windowBits (a.idx s) = true

/-- What was seen is skipped while the end of the window fits a word, and nothing else is. -/
theorem skips_iff (hbase : a.windowBase < 2 ^ 64) (hlen : a.windowLen < 2 ^ 64) (s : ℕ) :
    a.Skips s ↔ a.Seen s ∧ a.windowBase + a.windowLen < 2 ^ 64 := by
  unfold Skips Seen
  by_cases hfits : a.windowBase + a.windowLen < 2 ^ 64
  · rw [wrappingAdd_of_lt hfits]
    simp only [hfits, and_true]
  · have hwrap : wrappingAdd a.windowBase a.windowLen = a.windowBase + a.windowLen - 2 ^ 64 := by
      unfold wrappingAdd
      rw [Nat.mod_eq_sub_mod (by omega), Nat.mod_eq_of_lt (by omega)]
    rw [hwrap]
    simp only [hfits, and_false, iff_false]
    rintro ⟨hlo, hhi, -⟩
    omega

/-- Staging changes the candidates only, by what of the range is not skipped. -/
theorem noteMissingRange_eq (a : AbArbiter) (start stop : ℕ) (now : Instant) :
    ∃ pending, a.noteMissingRange start stop now = { a with pendingGapConfirms := pending } ∧
      ∀ s, s ∈ pending ↔ s ∈ a.pendingGapConfirms ∨ (start ≤ s ∧ s < stop ∧ ¬ a.Skips s) := by
  unfold noteMissingRange
  -- along the range; staging a sequence moves no bit, so what is skipped stays the same
  generalize hn : stop - start = n
  induction n generalizing a start with
  | zero =>
      refine ⟨a.pendingGapConfirms, rfl, fun s ↦ ⟨Or.inl, ?_⟩⟩
      rintro (hs | ⟨hlo, hhi, -⟩)
      · exact hs
      · omega
  | succ n ih =>
      have hone : ∃ pending, a.noteMissing now start = { a with pendingGapConfirms := pending } ∧
          ∀ s, s ∈ pending ↔ s ∈ a.pendingGapConfirms ∨ (s = start ∧ ¬ a.Skips s) := by
        unfold noteMissing
        split
        · next hskips =>
            refine ⟨a.pendingGapConfirms, rfl, fun s ↦ ⟨Or.inl, ?_⟩⟩
            rintro (hs | ⟨rfl, hs⟩)
            · exact hs
            · exact (hs hskips).elim
        · next hskips =>
            refine ⟨_, rfl, fun s ↦ ?_⟩
            rw [SortedMap.mem_orInsert]
            constructor
            · rintro (rfl | hs)
              · exact Or.inr ⟨rfl, hskips⟩
              · exact Or.inl hs
            · rintro (hs | ⟨rfl, -⟩)
              · exact Or.inr hs
              · exact Or.inl rfl
      obtain ⟨first, hfirst, hmem⟩ := hone
      obtain ⟨pending, hrest, hpending⟩ := ih { a with pendingGapConfirms := first } (start + 1)
        (by omega)
      rw [List.range'_succ, List.foldl_cons, hfirst]
      refine ⟨pending, hrest, fun s ↦ (hpending s).trans ?_⟩
      change s ∈ first ∨ (start + 1 ≤ s ∧ s < stop ∧ ¬ a.Skips s) ↔ _
      rw [hmem]
      constructor
      · rintro ((hs | ⟨rfl, hs⟩) | ⟨hlo, hhi, hs⟩)
        · exact Or.inl hs
        · exact Or.inr ⟨le_rfl, by omega, hs⟩
        · exact Or.inr ⟨by omega, hhi, hs⟩
      · rintro (hs | ⟨hlo, hhi, hs⟩)
        · exact Or.inl (Or.inl hs)
        · rcases Nat.eq_or_lt_of_le hlo with rfl | hlt
          · exact Or.inl (Or.inr ⟨rfl, hs⟩)
          · exact Or.inr ⟨hlt, hhi, hs⟩

end AbArbiter

/-! ## Along any calls -/

namespace Arbitration

variable {d : Arbitration}

/-- The bits inside the window are the sequences forwarded, whatever was staged. -/
structure Marked (d : Arbitration) : Prop where
  seen : ∀ s, d.arbiter.Seen s ↔ s ∈ d.forwarded ∧ d.arbiter.windowBase ≤ s
  base_lt : d.arbiter.windowBase < 2 ^ 64
  len_lt : d.arbiter.windowLen < 2 ^ 64

namespace Marked

theorem rebased {a : AbArbiter} (hlen : a.windowLen < 2 ^ 64) (base : UInt64) :
    (rebased a base.toNat).Marked := by
  refine ⟨fun s ↦ ⟨fun h ↦ (AbArbiter.not_seen_rebase a _ s h).elim, fun h ↦ ?_⟩,
    base.toNat_lt, hlen⟩
  exact (List.not_mem_nil h.1).elim

/-- The two ways `observe` goes, with what it does to the record. -/
theorem observe_cases (h : d.Marked) (streamId : UInt8) (seq : UInt64) (now : Instant) :
    (d.arbiter.Takes seq.toNat ∧ ∃ a, d.arbiter.Forwarded a seq.toNat ∧
      d.next (.observe streamId seq now) =
        { d with
          arbiter := a
          observed := d.observed ++ [seq.toNat]
          forwarded := d.forwarded ++ [seq.toNat] }) ∨
    (¬ d.arbiter.Takes seq.toNat ∧ ∃ a, d.arbiter.Unmoved a ∧
      d.next (.observe streamId seq now) =
        { d with arbiter := a, observed := d.observed ++ [seq.toNat] }) := by
  by_cases htakes : d.arbiter.Takes seq.toNat
  · obtain ⟨hverdict, ha⟩ := @AbArbiter.observe_takes d.arbiter seq.toNat streamId now
      seq.toNat_lt h.len_lt htakes
    refine Or.inl ⟨htakes, _, ha, ?_⟩
    simp [Arbitration.next, hverdict]
  · obtain ⟨hverdict, ha⟩ := @AbArbiter.observe_drops d.arbiter seq.toNat streamId now
      seq.toNat_lt h.len_lt htakes
    refine Or.inr ⟨htakes, _, ha, ?_⟩
    simp [Arbitration.next, hverdict]

theorem next (h : d.Marked) (c : ArbiterCall) : (d.next c).Marked := by
  cases c with
  | observe streamId seq now =>
      have hpos := d.arbiter.windowLen_pos
      rcases h.observe_cases streamId seq now with ⟨-, a, ha, hnext⟩ | ⟨-, a, ha, hnext⟩
      · have hbase := ha.base
        have hseq := seq.toNat_lt
        have hlt := h.base_lt
        rw [hnext]
        refine ⟨ha.seen_append h.seen, ?_, ha.len ▸ h.len_lt⟩
        change a.windowBase < 2 ^ 64
        omega
      · rw [hnext]
        refine ⟨fun s ↦ ?_, ha.base ▸ h.base_lt, ha.len ▸ h.len_lt⟩
        change a.Seen s ↔ s ∈ d.forwarded ∧ a.windowBase ≤ s
        rw [ha.seen, ha.base, h.seen]
  | noteMissingRange start endExclusive now =>
      obtain ⟨pending, hnote, -⟩ :=
        d.arbiter.noteMissingRange_eq start.toNat endExclusive.toNat now
      change Marked { d with arbiter := _ }
      rw [hnote]
      exact ⟨h.seen, h.base_lt, h.len_lt⟩
  | confirmedGaps now => exact ⟨h.seen, h.base_lt, h.len_lt⟩

end Marked

/-- Of a range to be staged, what was forwarded and is no candidate lies in the window, and the
window ends within the words. -/
def Clears (d : Arbitration) : ArbiterCall → Prop
  | .noteMissingRange start endExclusive _ =>
      ∀ s ∈ d.forwarded, start.toNat ≤ s → s < endExclusive.toNat →
        s ∉ d.arbiter.pendingGapConfirms →
        d.arbiter.windowBase ≤ s ∧ d.arbiter.windowBase + d.arbiter.windowLen < 2 ^ 64
  | _ => True

instance (d : Arbitration) : (c : ArbiterCall) → Decidable (d.Clears c)
  | .observe .. => .isTrue trivial
  | .noteMissingRange .. => inferInstanceAs (Decidable (∀ s ∈ d.forwarded, _))
  | .confirmedGaps _ => .isTrue trivial

/-- A range stages nothing that was forwarded exactly when it is clear of such sequences. -/
theorem Marked.clears_iff (h : d.Marked) (start endExclusive : UInt64) (now : Instant) :
    (∀ s ∈ d.forwarded, s ∉ d.arbiter.pendingGapConfirms →
        s ∉ (d.next (.noteMissingRange start endExclusive now)).arbiter.pendingGapConfirms) ↔
      d.Clears (.noteMissingRange start endExclusive now) := by
  obtain ⟨pending, hnote, hpending⟩ :=
    d.arbiter.noteMissingRange_eq start.toNat endExclusive.toNat now
  refine forall₂_congr fun s hs ↦ ?_
  change (_ → s ∉ (d.arbiter.noteMissingRange _ _ now).pendingGapConfirms) ↔ _
  rw [hnote, hpending, AbArbiter.skips_iff h.base_lt h.len_lt, h.seen]
  tauto

/-- Nothing forwarded is a candidate. -/
structure Untouched (d : Arbitration) : Prop where
  unstaged : ∀ s ∈ d.forwarded, s ∉ d.arbiter.pendingGapConfirms
  once : d.forwarded.Nodup

namespace Untouched

theorem not_takes (h : d.Untouched) (hmarked : d.Marked) {s : ℕ} (hs : s ∈ d.forwarded) :
    ¬ d.arbiter.Takes s := by
  rintro (⟨-, hpending⟩ | ⟨hle, hunseen⟩)
  · exact h.unstaged s hs hpending
  · exact hunseen ((hmarked.seen s).mpr ⟨hs, hle⟩)

theorem next (h : d.Untouched) (hmarked : d.Marked) {c : ArbiterCall} (hclears : d.Clears c) :
    (d.next c).Untouched := by
  cases c with
  | observe streamId seq now =>
      rcases hmarked.observe_cases streamId seq now with
        ⟨htakes, a, ha, hnext⟩ | ⟨-, a, ha, hnext⟩
      · have hfirst : seq.toNat ∉ d.forwarded := fun hs ↦ h.not_takes hmarked hs htakes
        rw [hnext]
        refine ⟨ha.unstaged_append hmarked.seen h.unstaged, ?_⟩
        apply h.once.append (List.nodup_singleton _)
        rw [List.disjoint_singleton]
        exact hfirst
      · rw [hnext]
        refine ⟨fun s hs ↦ ?_, h.once⟩
        change s ∉ a.pendingGapConfirms
        rw [ha.pending]
        exact h.unstaged s hs
  | noteMissingRange start endExclusive now =>
      have hkept := (hmarked.clears_iff start endExclusive now).mpr hclears
      exact ⟨fun s hs ↦ hkept s hs (h.unstaged s hs), h.once⟩
  | confirmedGaps now =>
      refine ⟨fun s hs hmem ↦ ?_, h.once⟩
      exact h.unstaged s hs (AbArbiter.mem_pending_confirmedGaps.mp hmem).1

end Untouched

end Arbitration

/-- When a delivered sequence is staged.  After any calls since a rebase, a range stages one
exactly when it is not clear of delivered sequences below the window (or the window reaches past
the last word).  As long as every range is clear, no delivered sequence is a candidate, none is
confirmed as a gap and none is forwarded again. -/
theorem delivered_unstaged_iff {a : AbArbiter} (hlen : a.windowLen < 2 ^ 64) (base : UInt64) :
    (∀ d, Arbitration.machine.Run (fun _ _ ↦ True) (.rebased a base.toNat) d →
      ∀ start endExclusive now,
        (∀ s ∈ d.forwarded, s ∉ d.arbiter.pendingGapConfirms →
          s ∉ (d.next (.noteMissingRange start endExclusive now)).arbiter.pendingGapConfirms) ↔
        d.Clears (.noteMissingRange start endExclusive now)) ∧
    ∀ d, Arbitration.machine.Run Arbitration.Clears (.rebased a base.toNat) d →
      (∀ s ∈ d.forwarded, s ∉ d.arbiter.pendingGapConfirms) ∧
      (∀ now, ∀ s ∈ (d.arbiter.confirmedGaps now).1, s ∉ d.forwarded) ∧
      (∀ streamId (seq : UInt64) now, seq.toNat ∈ d.forwarded →
        (d.arbiter.observe streamId seq.toNat now).1 ≠ .forward) ∧
      d.forwarded.Nodup := by
  have hmarked : ∀ {allowed : Arbitration → ArbiterCall → Prop} d,
      Arbitration.machine.Run allowed (.rebased a base.toNat) d → d.Marked := by
    intro allowed d hrun
    refine hrun.invariant (I := Arbitration.Marked) (.rebased hlen base) ?_
    rintro d c _ h - ⟨⟩
    exact h.next c
  refine ⟨fun d hrun start endExclusive now ↦ (hmarked d hrun).clears_iff _ _ now,
    fun d hrun ↦ ?_⟩
  have h : d.Untouched := by
    refine hrun.invariant_of (J := Arbitration.Marked) hmarked ⟨nofun, List.nodup_nil⟩ ?_
    rintro d c _ hmarked h hclears ⟨⟩
    exact h.next hmarked hclears
  refine ⟨h.unstaged, fun now s hs hforwarded ↦ ?_, fun streamId seq now hseq ↦ ?_, h.once⟩
  · exact h.unstaged s hforwarded (AbArbiter.mem_confirmedGaps hs)
  · have hdrops := h.not_takes (hmarked d hrun) hseq
    exact (AbArbiter.observe_drops seq.toNat_lt (hmarked d hrun).len_lt hdrops).1

/-- Sequence 2 is a candidate and 3 joins it; 4, delivered inside the window, is skipped. -/
theorem delivered_unstaged_iff_range :
    ∃ d, Arbitration.machine.Run Arbitration.Clears (.rebased (.new 2 2 (by decide) 5) 1) d ∧
      d.forwarded = [1, 4] ∧ 3 ∈ d.arbiter.pendingGapConfirms ∧
      (∀ s ∈ d.forwarded, s ∉ d.arbiter.pendingGapConfirms) ∧
      ¬ d.Clears (.noteMissingRange 1 2 0) ∧
      ¬ ∀ s ∈ d.forwarded, s ∉ d.arbiter.pendingGapConfirms →
        s ∉ (d.next (.noteMissingRange 1 2 0)).arbiter.pendingGapConfirms := by
  have hend : ∃ d ∈ Machine.follow (fun d c ↦ some (Arbitration.next d c))
        (.rebased (.new 2 2 (by decide) 5) 1)
        [.observe 0 1 0, .observe 0 4 0, .noteMissingRange 2 5 0],
      d.forwarded = [1, 4] ∧ 3 ∈ d.arbiter.pendingGapConfirms ∧
        ¬ d.Clears (.noteMissingRange 1 2 0) := by
    decide +kernel
  obtain ⟨d, hd, hforwarded, hpending, hbelow⟩ := hend
  have hrun : Arbitration.machine.Run Arbitration.Clears
      (.rebased (.new 2 2 (by decide) 5) 1) d := .of_follow (by decide +kernel) hd
  obtain ⟨hiff, hclear⟩ := @delivered_unstaged_iff (.new 2 2 (by decide) 5) (by decide) 1
  refine ⟨d, hrun, hforwarded, hpending, (hclear d hrun).1, hbelow, fun hkept ↦ ?_⟩
  exact hbelow ((hiff d (hrun.mono fun _ _ _ ↦ trivial) 1 2 0).mp hkept)

/-- With a window of two, 1 to 3 arrive in order and the window moves past 1.  A range that
holds 1 stages it, though it was delivered: it is confirmed as a gap once the confirm window has
passed, or forwarded a second time if another copy comes first. -/
theorem delivered_staged_below_window :
    ∃ d, Arbitration.machine.Run (fun _ _ ↦ True) (.rebased (.new 2 2 (by decide) 5) 1) d ∧
      d.forwarded = [1, 2, 3] ∧ d.arbiter.windowBase = 2 ∧ 1 ∉ d.arbiter.pendingGapConfirms ∧
      1 ∈ (d.next (.noteMissingRange 1 2 0)).arbiter.pendingGapConfirms ∧
      1 ∈ ((d.next (.noteMissingRange 1 2 0)).next (.confirmedGaps 1000000000)).confirmed ∧
      ((d.next (.noteMissingRange 1 2 0)).next (.observe 1 1 0)).forwarded = [1, 2, 3, 1] := by
  exact Machine.Run.exists_of_follow [.observe 0 1 0, .observe 0 2 0, .observe 0 3 0]
    (by decide +kernel)

end MoldUdp
