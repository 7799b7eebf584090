import PolarisTrade.Lib.Machine
import PolarisTrade.MoldUdp.Ab

/-!
# The arbiter as a set of delivered sequences

What the circular bitmap stands for: the sequences observed since the window was last
rebased.  The arbiter runs next to that set and to the sequences it forwarded and confirmed
so far; along every run the bits inside the window are membership in the set, the verdicts
can be read off it, and what left the window undelivered is still accounted for.
-/

namespace MoldUdp

open Transport Word

/-! ## Verdicts -/

namespace AbArbiter

/-- The three verdicts, by what the window knows of `seq`. -/
theorem verdict_observe {a : AbArbiter} {seq : ℕ} (streamId : UInt8) (now : Instant)
    (hseq : seq < 2 ^ 64) (hlen : a.windowLen < 2 ^ 64) :
    (a.observe streamId seq now).1 =
      if a.Takes seq then .forward
      else if seq < a.windowBase then .outOfWindow else .duplicate := by
  by_cases htakes : a.Takes seq
  · rw [if_pos htakes]
    exact (observe_takes hseq hlen htakes).1
  · rw [if_neg htakes]
    have hdrops := (@observe_drops a seq streamId now hseq hlen htakes).1
    by_cases hlow : seq < a.windowBase
    · rw [if_pos hlow]
      rw [observe_of_lt streamId now hlow] at hdrops ⊢
      split at hdrops
      · exact (hdrops rfl).elim
      · next hpending => rw [if_neg hpending]
    · rw [if_neg hlow]
      rw [observe_of_le streamId now (Nat.le_of_not_lt hlow)] at hdrops ⊢
      split at hdrops
      · next hbit => rw [if_pos hbit]
      · exact (hdrops rfl).elim

section Forwarded

variable {a a' : AbArbiter} {seq : ℕ} {taken : List ℕ} (ha : a.Forwarded a' seq)
  (hseen : ∀ s, a.Seen s ↔ s ∈ taken ∧ a.windowBase ≤ s)
include ha hseen

/-- A forwarded sequence joins those the window stands for. -/
theorem Forwarded.seen_append (s : ℕ) :
    a'.Seen s ↔ s ∈ taken ++ [seq] ∧ a'.windowBase ≤ s := by
  have hpos := a.windowLen_pos
  have hbase := ha.base
  rw [ha.seen, hseen, List.mem_append, List.mem_singleton]
  constructor
  · rintro (⟨⟨hs, -⟩, hle⟩ | ⟨rfl, hle⟩)
    · exact ⟨Or.inl hs, hle⟩
    · exact ⟨Or.inr rfl, by omega⟩
  · rintro ⟨hs | rfl, hle⟩
    · exact Or.inl ⟨⟨hs, by omega⟩, hle⟩
    · exact Or.inr ⟨rfl, by omega⟩

/-- Nothing the window stands for becomes a candidate by sliding past it. -/
theorem Forwarded.unstaged_append (hunstaged : ∀ s ∈ taken, s ∉ a.pendingGapConfirms) :
    ∀ s ∈ taken ++ [seq], s ∉ a'.pendingGapConfirms := by
  intro s hs hmem
  obtain ⟨hpending, hne⟩ := (ha.pending s).mp hmem
  have hs : s ∈ taken := by simpa [hne] using hs
  rcases hpending with hold | ⟨hle, -, hunseen⟩
  · exact hunstaged s hs hold
  · exact hunseen ((hseen s).mpr ⟨hs, hle⟩)

end Forwarded

end AbArbiter

/-! ## The arbiter next to what it stands for -/

/-- One call on the arbiter. -/
inductive ArbiterCall where
  | observe (streamId : UInt8) (seq : UInt64) (now : Instant)
  | noteMissingRange (start endExclusive : UInt64) (now : Instant)
  | confirmedGaps (now : Instant)

/-- The arbiter since it was rebased at `origin`, with the sequences observed, those it
answered with `Forward`, and those returned by `confirmed_gaps`. -/
structure Arbitration where
  arbiter : AbArbiter
  origin : ℕ
  observed : List ℕ
  forwarded : List ℕ
  confirmed : List ℕ

namespace Arbitration

/-- A rebased arbiter; `AbArbiter::new` is one rebased at 0. -/
def rebased (a : AbArbiter) (base : ℕ) : Arbitration where
  arbiter := a.rebase base
  origin := base
  observed := []
  forwarded := []
  confirmed := []

def next (d : Arbitration) : ArbiterCall → Arbitration
  | .observe streamId seq now =>
      let (verdict, arbiter) := d.arbiter.observe streamId seq.toNat now
      { d with
        arbiter := arbiter
        observed := d.observed ++ [seq.toNat]
        forwarded := d.forwarded ++ if verdict = .forward then [seq.toNat] else [] }
  | .noteMissingRange start endExclusive now =>
      { d with arbiter := d.arbiter.noteMissingRange start.toNat endExclusive.toNat now }
  | .confirmedGaps now =>
      let (confirmed, arbiter) := d.arbiter.confirmedGaps now
      { d with arbiter := arbiter, confirmed := d.confirmed ++ confirmed }

/-- The window end fits a word, and a range starts above everything observed. -/
def Allowed (d : Arbitration) : ArbiterCall → Prop
  | .observe .. => d.arbiter.windowBase + d.arbiter.windowLen < 2 ^ 64
  | .noteMissingRange start .. =>
      d.arbiter.windowBase + d.arbiter.windowLen < 2 ^ 64 ∧ ∀ s ∈ d.observed, s < start.toNat
  | .confirmedGaps _ => True

instance (d : Arbitration) : (c : ArbiterCall) → Decidable (d.Allowed c)
  | .observe .. => inferInstanceAs (Decidable (_ < _))
  | .noteMissingRange .. => inferInstanceAs (Decidable (_ ∧ _))
  | .confirmedGaps _ => .isTrue trivial

def machine : Machine Arbitration ArbiterCall := .ofNext fun d c ↦ some (d.next c)

/-- The window stands for the observed sequences. -/
structure Sound (d : Arbitration) : Prop where
  seen : ∀ s, d.arbiter.Seen s ↔ s ∈ d.observed ∧ d.arbiter.windowBase ≤ s
  unstaged : ∀ s ∈ d.observed, s ∉ d.arbiter.pendingGapConfirms
  passed : ∀ s, d.origin ≤ s → s < d.arbiter.windowBase → s ∉ d.observed →
    s ∈ d.arbiter.pendingGapConfirms ∨ s ∈ d.confirmed
  once : d.forwarded.Nodup
  forwarded : ∀ s ∈ d.forwarded, s ∈ d.observed

namespace Sound

variable {d : Arbitration}

theorem rebased (a : AbArbiter) (base : ℕ) : (rebased a base).Sound := by
  refine ⟨fun s ↦ ⟨fun h ↦ (AbArbiter.not_seen_rebase a base s h).elim, fun h ↦ ?_⟩,
    fun s hs ↦ ?_, fun s hlo hhi ↦ ?_, List.nodup_nil, fun s hs ↦ ?_⟩
  · exact (List.not_mem_nil h.1).elim
  · exact (List.not_mem_nil hs).elim
  · exact absurd hhi (Nat.not_lt.mpr hlo)
  · exact (List.not_mem_nil hs).elim

/-- What would be forwarded was not observed before. -/
theorem takes_iff (h : d.Sound) (s : ℕ) :
    d.arbiter.Takes s ↔ s ∉ d.observed ∧
      (s < d.arbiter.windowBase → s ∈ d.arbiter.pendingGapConfirms) := by
  unfold AbArbiter.Takes
  rw [h.seen]
  by_cases hlow : s < d.arbiter.windowBase
  · have hle : ¬ d.arbiter.windowBase ≤ s := Nat.not_le.mpr hlow
    simp only [hlow, hle, true_and, false_and, or_false, forall_const]
    exact ⟨fun hmem ↦ ⟨fun hs ↦ h.unstaged s hs hmem, hmem⟩, And.right⟩
  · have hle := Nat.le_of_not_lt hlow
    simp [hlow, hle]

/-- A forwarded sequence joins the set, and what the window leaves behind is staged. -/
theorem forward (h : d.Sound) {a : AbArbiter} {seq : ℕ} (htakes : d.arbiter.Takes seq)
    (ha : d.arbiter.Forwarded a seq) :
    Sound { d with
      arbiter := a
      observed := d.observed ++ [seq]
      forwarded := d.forwarded ++ [seq] } := by
  have hfirst : seq ∉ d.observed := ((h.takes_iff seq).mp htakes).1
  refine ⟨ha.seen_append h.seen, ha.unstaged_append h.seen h.unstaged, fun s hlo hhi hs ↦ ?_, ?_,
    fun s hs ↦ ?_⟩
  · obtain ⟨hs, hne⟩ : s ∉ d.observed ∧ s ≠ seq := by simpa [not_or] using hs
    change s < a.windowBase at hhi
    by_cases hlow : s < d.arbiter.windowBase
    · refine (h.passed s hlo hlow hs).imp_left fun hold ↦ ?_
      exact (ha.pending s).mpr ⟨Or.inl hold, hne⟩
    · refine Or.inl ((ha.pending s).mpr ⟨Or.inr ⟨Nat.le_of_not_lt hlow, hhi, fun hseen ↦ ?_⟩, hne⟩)
      exact hs ((h.seen s).mp hseen).1
  · refine List.Nodup.append h.once (List.nodup_singleton seq) ?_
    rw [List.disjoint_singleton]
    exact fun hs ↦ hfirst (h.forwarded seq hs)
  · rcases List.mem_append.mp hs with hold | hlast
    · exact List.mem_append_left _ (h.forwarded s hold)
    · exact List.mem_append_right _ hlast

/-- A dropped sequence was observed before, or the window had passed it for good. -/
theorem drop (h : d.Sound) {a : AbArbiter} {seq : ℕ} (hdrops : ¬ d.arbiter.Takes seq)
    (ha : d.arbiter.Unmoved a) :
    Sound { d with arbiter := a, observed := d.observed ++ [seq] } := by
  rw [h.takes_iff, not_and_or, not_not, Classical.not_imp] at hdrops
  refine ⟨fun s ↦ ?_, fun s hs ↦ ?_, fun s hlo hhi hs ↦ ?_, h.once, fun s hs ↦ ?_⟩
  · change a.Seen s ↔ s ∈ d.observed ++ [seq] ∧ a.windowBase ≤ s
    rw [ha.seen, h.seen, ha.base, List.mem_append, List.mem_singleton]
    constructor
    · exact fun ⟨hs, hle⟩ ↦ ⟨Or.inl hs, hle⟩
    · rintro ⟨hs | rfl, hle⟩
      · exact ⟨hs, hle⟩
      · rcases hdrops with hs | ⟨hlow, -⟩
        · exact ⟨hs, hle⟩
        · exact absurd hlow (Nat.not_lt.mpr hle)
  · change s ∉ a.pendingGapConfirms
    rw [ha.pending]
    rcases List.mem_append.mp hs with hs | hs
    · exact h.unstaged s hs
    · obtain rfl := List.mem_singleton.mp hs
      rcases hdrops with hs | ⟨-, hpending⟩
      · exact h.unstaged s hs
      · exact hpending
  · change s < a.windowBase at hhi
    change s ∈ a.pendingGapConfirms ∨ _
    rw [ha.base] at hhi
    rw [ha.pending]
    exact h.passed s hlo hhi fun hold ↦ hs (List.mem_append_left _ hold)
  · exact List.mem_append_left _ (h.forwarded s hs)

theorem next (h : d.Sound) {c : ArbiterCall} (hallowed : d.Allowed c) : (d.next c).Sound := by
  cases c with
  | observe streamId seq now =>
      have hfits : d.arbiter.windowBase + d.arbiter.windowLen < 2 ^ 64 := hallowed
      by_cases htakes : d.arbiter.Takes seq.toNat
      · obtain ⟨hforward, ha⟩ := @AbArbiter.observe_takes d.arbiter seq.toNat streamId now
          seq.toNat_lt (by omega) htakes
        have hnext := h.forward htakes ha
        simpa [Arbitration.next, hforward] using hnext
      · obtain ⟨hforward, ha⟩ := @AbArbiter.observe_drops d.arbiter seq.toNat streamId now
          seq.toNat_lt (by omega) htakes
        have hnext := h.drop htakes ha
        simpa [Arbitration.next, hforward] using hnext
  | noteMissingRange start endExclusive now =>
      obtain ⟨hfits, habove⟩ := hallowed
      have hunseen : ∀ s, start.toNat ≤ s → s < endExclusive.toNat → ¬ d.arbiter.Seen s :=
        fun s hlo _ hseen ↦ absurd (habove s ((h.seen s).mp hseen).1) (Nat.not_lt.mpr hlo)
      obtain ⟨hbase, -, -, hseen, hpending⟩ := @AbArbiter.noteMissingRange_spec d.arbiter now _ _
        hunseen (by omega) (by omega)
      refine ⟨fun s ↦ ?_, fun s hs hmem ↦ ?_, fun s hlo hhi hs ↦ ?_, h.once, h.forwarded⟩
      · refine (hseen s).trans ((h.seen s).trans ?_)
        rw [← hbase]
        rfl
      · rcases (hpending s).mp hmem with hold | ⟨hlo, -⟩
        · exact h.unstaged s hs hold
        · exact absurd (habove s hs) (Nat.not_lt.mpr hlo)
      · refine (h.passed s hlo (hbase ▸ hhi) hs).imp_left fun hold ↦ ?_
        exact (hpending s).mpr (Or.inl hold)
  | confirmedGaps now =>
      refine ⟨h.seen, fun s hs hmem ↦ ?_, fun s hlo hhi hs ↦ ?_, h.once, h.forwarded⟩
      · exact h.unstaged s hs (AbArbiter.mem_pending_confirmedGaps.mp hmem).1
      · by_cases hconfirmed : s ∈ (d.arbiter.confirmedGaps now).1
        · exact Or.inr (List.mem_append_right _ hconfirmed)
        · rcases h.passed s hlo hhi hs with hold | hold
          · exact Or.inl (AbArbiter.mem_pending_confirmedGaps.mpr ⟨hold, hconfirmed⟩)
          · exact Or.inr (List.mem_append_left _ hold)

/-- The next verdict, read off the observed set. -/
theorem verdicts (h : d.Sound) (streamId : UInt8) (seq : UInt64) (now : Instant)
    (hallowed : d.Allowed (.observe streamId seq now)) :
    ((d.arbiter.observe streamId seq.toNat now).1 = .duplicate ↔
      (d.arbiter.observe streamId seq.toNat now).2.windowBase ≤ seq.toNat ∧
        seq.toNat ∈ d.observed) ∧
    ((d.arbiter.observe streamId seq.toNat now).1 = .outOfWindow ↔
      seq.toNat < d.arbiter.windowBase ∧ seq.toNat ∉ d.arbiter.pendingGapConfirms) ∧
    ((d.arbiter.observe streamId seq.toNat now).1 = .forward ↔ seq.toNat ∉ d.observed ∧
      (seq.toNat < d.arbiter.windowBase → seq.toNat ∈ d.arbiter.pendingGapConfirms)) := by
  have hfits : d.arbiter.windowBase + d.arbiter.windowLen < 2 ^ 64 := hallowed
  have hlen : d.arbiter.windowLen < 2 ^ 64 := by omega
  rw [d.arbiter.verdict_observe streamId now seq.toNat_lt hlen, ← h.takes_iff]
  by_cases htakes : d.arbiter.Takes seq.toNat
  · obtain ⟨hfirst, hstaged⟩ := (h.takes_iff _).mp htakes
    rw [if_pos htakes]
    refine ⟨⟨nofun, fun hs ↦ (hfirst hs.2).elim⟩, ⟨nofun, fun hs ↦ (hs.2 (hstaged hs.1)).elim⟩,
      fun _ ↦ htakes, fun _ ↦ rfl⟩
  · have hbase := (@AbArbiter.observe_drops d.arbiter seq.toNat streamId now seq.toNat_lt hlen
      htakes).2.base
    rw [if_neg htakes, hbase]
    have hdrops := htakes
    rw [h.takes_iff, not_and_or, not_not, Classical.not_imp] at hdrops
    by_cases hlow : seq.toNat < d.arbiter.windowBase
    · rw [if_pos hlow]
      refine ⟨⟨nofun, fun hs ↦ absurd hlow (Nat.not_lt.mpr hs.1)⟩, ⟨fun _ ↦ ⟨hlow, ?_⟩,
        fun _ ↦ rfl⟩, ⟨nofun, fun hs ↦ (htakes hs).elim⟩⟩
      rcases hdrops with hs | ⟨-, hpending⟩
      · exact h.unstaged _ hs
      · exact hpending
    · rw [if_neg hlow]
      refine ⟨⟨fun _ ↦ ⟨Nat.le_of_not_lt hlow, ?_⟩, fun _ ↦ rfl⟩,
        ⟨nofun, fun hs ↦ (hlow hs.1).elim⟩, ⟨nofun, fun hs ↦ (htakes hs).elim⟩⟩
      rcases hdrops with hs | ⟨hlt, -⟩
      · exact hs
      · exact (hlow hlt).elim

end Sound

end Arbitration

/-- Along every run since a rebase: a bit of the window says whether its sequence was
observed, the next verdict can be read off the observed set, undelivered sequences the window
passed are candidates or were confirmed, and nothing was forwarded twice. -/
theorem bitmap_refines_set {a : AbArbiter} {base : ℕ} {d : Arbitration}
    (hrun : Arbitration.machine.Run Arbitration.Allowed (.rebased a base) d) :
    (∀ s, d.arbiter.windowBase ≤ s → s < d.arbiter.windowBase + d.arbiter.windowLen →
      (d.arbiter.windowBits (s % d.arbiter.windowLen) = true ↔ s ∈ d.observed)) ∧
    (∀ streamId (seq : UInt64) now, d.Allowed (.observe streamId seq now) →
      ((d.arbiter.observe streamId seq.toNat now).1 = .duplicate ↔
        (d.arbiter.observe streamId seq.toNat now).2.windowBase ≤ seq.toNat ∧
          seq.toNat ∈ d.observed) ∧
      ((d.arbiter.observe streamId seq.toNat now).1 = .outOfWindow ↔
        seq.toNat < d.arbiter.windowBase ∧ seq.toNat ∉ d.arbiter.pendingGapConfirms) ∧
      ((d.arbiter.observe streamId seq.toNat now).1 = .forward ↔ seq.toNat ∉ d.observed ∧
        (seq.toNat < d.arbiter.windowBase → seq.toNat ∈ d.arbiter.pendingGapConfirms))) ∧
    (∀ s, base ≤ s → s < d.arbiter.windowBase → s ∉ d.observed →
      s ∈ d.arbiter.pendingGapConfirms ∨ s ∈ d.confirmed) ∧
    d.forwarded.Nodup := by
  have hsound : d.Sound ∧ d.origin = base := by
    refine hrun.invariant (I := fun d ↦ d.Sound ∧ d.origin = base) ⟨.rebased a base, rfl⟩ ?_
    rintro d c _ ⟨h, horigin⟩ hallowed ⟨⟩
    refine ⟨h.next hallowed, ?_⟩
    cases c <;> exact horigin
  obtain ⟨h, rfl⟩ := hsound
  refine ⟨fun s hlo hhi ↦ ?_, fun streamId seq now hallowed ↦ ?_, h.passed, h.once⟩
  · have hseen := h.seen s
    simp only [AbArbiter.Seen, hlo, hhi, true_and, and_true] at hseen
    exact hseen
  · exact h.verdicts streamId seq now hallowed

/-- The window slides over 1 and 2 while 3 arrives on both streams; a retransmission of 1 is
still forwarded. -/
theorem bitmap_refines_set_slid :
    ∃ d, Arbitration.machine.Run Arbitration.Allowed (.rebased (.new 2 2 (by decide) 5) 1) d ∧
      d.arbiter.windowBase = 3 ∧ d.forwarded = [4, 3, 1] ∧ d.forwarded.Nodup ∧
      d.arbiter.windowBits (3 % 2) = true := by
  have hend : ∃ d ∈ Machine.follow (fun d c ↦ some (Arbitration.next d c))
        (.rebased (.new 2 2 (by decide) 5) 1)
        [.observe 0 4 0, .observe 0 3 0, .observe 1 3 0, .observe 2 1 0],
      d.arbiter.windowBase = 3 ∧ d.arbiter.windowLen = 2 ∧ d.forwarded = [4, 3, 1] ∧
        3 ∈ d.observed := by
    decide +kernel
  obtain ⟨d, hd, hbase, hlen, hforwarded, hobserved⟩ := hend
  have hrun : Arbitration.machine.Run Arbitration.Allowed
      (.rebased (.new 2 2 (by decide) 5) 1) d := .of_follow (by decide +kernel) hd
  obtain ⟨hbits, -, -, hnodup⟩ := bitmap_refines_set hrun
  refine ⟨d, hrun, hbase, hforwarded, hnodup, ?_⟩
  rw [← hlen]
  exact (hbits 3 (by omega) (by omega)).mpr hobserved

end MoldUdp
