import PolarisTrade.MoldUdp.Tracking
import PolarisTrade.MoldUdp.Window

/-!
# Missing-message accounting

Every number below the high-water mark was delivered, is buffered, or is known to be
missing, and never two of these at once.  Inside the block loop there is a fourth case,
the numbers whose turn is still to come.
-/

namespace MoldUdp

open Transport Word

variable {F : Type}

/-- Number `s` is a gap candidate of the arbiter. -/
def Inner.Staged (i : Inner F) (s : ℕ) : Prop := ∃ a ∈ i.arbiter, s ∈ a.pendingGapConfirms

/-- Number `s` is known to be missing: a recorded gap or a candidate for one. -/
def Inner.Missing (i : Inner F) (s : ℕ) : Prop := i.gapHandler.Tracks s ∨ i.Staged s

/-- The receiver has a number or misses it, up to the numbers still to do. -/
structure Inner.Accounts (i : Inner F) (todo : ℕ → Prop) : Prop where
  ring : i.RingOpen
  below : ∀ s, i.Has s → s < i.nextUnseen
  missing : ∀ s, i.Missing s → ¬ i.Has s
  base : ∀ a ∈ i.arbiter, a.windowBase ≤ i.nextUnseen
  seen : ∀ a ∈ i.arbiter, ∀ s, a.windowBase ≤ s → (a.Seen s ↔ i.Has s)
  cover : ∀ s, s < i.nextUnseen → i.Has s ∨ i.Missing s ∨ todo s

namespace Inner.Accounts

variable {i i' : Inner F} {todo todo' : ℕ → Prop}

/-- The receiver gets `seq`, which is then neither missing nor still to do. -/
theorem gets {seq : ℕ} (h : i.Accounts todo) (hring : i'.RingOpen)
    (hhas : ∀ n, i'.Has n ↔ i.Has n ∨ n = seq) (hseq : seq < i.nextUnseen)
    (hunseen : i'.nextUnseen = i.nextUnseen)
    (hmissing : ∀ s, i'.Missing s → s ≠ seq ∧ ¬ i.Has s)
    (hkept : ∀ s, s ≠ seq → i.Missing s → i'.Missing s)
    (hbase : ∀ a ∈ i'.arbiter, a.windowBase ≤ i.nextUnseen)
    (hseen : ∀ a ∈ i'.arbiter, ∀ s, a.windowBase ≤ s → (a.Seen s ↔ i.Has s ∨ s = seq))
    (htodo : ∀ s, s ≠ seq → todo s → todo' s) : i'.Accounts todo' := by
  refine ⟨hring, fun s hs ↦ ?_, fun s hs hhas' ↦ ?_, fun a ha ↦ hunseen ▸ hbase a ha,
    fun a ha s hs ↦ (hseen a ha s hs).trans (hhas s).symm, fun s hs ↦ ?_⟩
  · rw [hunseen]
    rcases (hhas s).mp hs with hold | rfl
    · exact h.below s hold
    · exact hseq
  · obtain ⟨hne, hnot⟩ := hmissing s hs
    rcases (hhas s).mp hhas' with hold | heq
    · exact hnot hold
    · exact hne heq
  · by_cases heq : s = seq
    · exact Or.inl ((hhas s).mpr (Or.inr heq))
    · rw [hunseen] at hs
      rcases h.cover s hs with hold | hmiss | hto
      · exact Or.inl ((hhas s).mpr (Or.inl hold))
      · exact Or.inr (Or.inl (hkept s heq hmiss))
      · exact Or.inr (Or.inr (htodo s heq hto))

/-- The mark moves up, over numbers that are missing now or still to do. -/
theorem extend (h : i.Accounts fun _ ↦ False) (hring : i'.reassembler = i.reassembler)
    (hle : i.nextUnseen ≤ i'.nextUnseen)
    (hmissing : ∀ s, i'.Missing s → i.Missing s ∨ i.nextUnseen ≤ s)
    (hkept : ∀ s, i.Missing s → i'.Missing s)
    (hwindow : ∀ a' ∈ i'.arbiter, ∃ a ∈ i.arbiter, a.SameWindow a')
    (hnew : ∀ s, i.nextUnseen ≤ s → s < i'.nextUnseen → i'.Missing s ∨ todo s) :
    i'.Accounts todo := by
  refine ⟨h.ring.congr hring, fun s hs ↦ ?_, fun s hs hhas ↦ ?_, fun a' ha' ↦ ?_,
    fun a' ha' s hs ↦ ?_, fun s hs ↦ ?_⟩
  · exact (h.below s ((has_congr hring s).mp hs)).trans_le hle
  · have hhas := (has_congr hring s).mp hhas
    rcases hmissing s hs with hold | hbeyond
    · exact h.missing s hold hhas
    · have := h.below s hhas
      omega
  · obtain ⟨a, ha, hsame⟩ := hwindow a' ha'
    rw [hsame.base]
    exact (h.base a ha).trans hle
  · obtain ⟨a, ha, hsame⟩ := hwindow a' ha'
    rw [hsame.seen, has_congr hring]
    exact h.seen a ha s (hsame.base ▸ hs)
  · by_cases hold : s < i.nextUnseen
    · rcases h.cover s hold with hhas | hmiss | hfalse
      · exact Or.inl ((has_congr hring s).mpr hhas)
      · exact Or.inr (Or.inl (hkept s hmiss))
      · exact hfalse.elim
    · exact Or.inr (hnew s (Nat.le_of_not_lt hold) hs)

theorem congr (h : i.Accounts todo) (hring : i'.reassembler = i.reassembler)
    (hgap : i'.gapHandler = i.gapHandler) (hunseen : i'.nextUnseen = i.nextUnseen)
    (harbiter : i'.arbiter = i.arbiter) : i'.Accounts todo := by
  have hmissing : ∀ s, i'.Missing s ↔ i.Missing s := by
    intro s
    unfold Missing Staged
    rw [hgap, harbiter]
  refine ⟨h.ring.congr hring, fun s hs ↦ ?_, fun s hs ↦ ?_, ?_, fun a ha s hs ↦ ?_,
    fun s hs ↦ ?_⟩
  · rw [hunseen]
    exact h.below s ((has_congr hring s).mp hs)
  · rw [has_congr hring]
    exact h.missing s ((hmissing s).mp hs)
  · rw [harbiter, hunseen]
    exact h.base
  · rw [has_congr hring]
    exact h.seen a (harbiter ▸ ha) s hs
  · rw [has_congr hring, hmissing]
    exact h.cover s (hunseen ▸ hs)

end Inner.Accounts

/-! ## The block loop -/

/-- Numbers of blocks still to do that the arbiter would let through. -/
def Inner.Awaits (i : Inner F) (now : Option Instant) (todo : List Block) (s : ℕ) : Prop :=
  i.Takes now s ∧ ∃ b ∈ todo, b.seq = s

namespace Decoding

variable {d : Decoding F}

theorem exists_mem_of_ne {b : Block} {todo : List Block} {s : ℕ} (hne : s ≠ b.seq)
    (h : ∃ b' ∈ b :: todo, b'.seq = s) : ∃ b' ∈ todo, b'.seq = s := by
  obtain ⟨b', hb', rfl⟩ := h
  rcases List.mem_cons.mp hb' with rfl | hmem
  · exact (hne rfl).elim
  · exact ⟨b', hmem, rfl⟩

variable {streamId : UInt8} {now : Option Instant} {b : Block} {todo : List Block}

/-- Without an arbiter a block that is placed is had afterwards. -/
theorem accounts_unarbitrated (h : d.inner.Accounts (d.inner.Awaits now (b :: todo)))
    (htracking : d.inner.Tracking) (hnone : d.inner.arbiter = none)
    (hb : b.seq < d.inner.nextUnseen)
    (hok : ((d.unarbitrated b).place streamId b).1 = .ok ()) :
    ((d.unarbitrated b).place streamId b).2.inner.Accounts
      (((d.unarbitrated b).place streamId b).2.inner.Awaits now todo) := by
  have hsmall := htracking.small
  obtain ⟨-, htracks⟩ := GapRequestHandler.markReceived_spec htracking.gaps b.seq
  rcases place_gets (d := d.unarbitrated b) (b := b) (h.ring.congr rfl) streamId (by omega) with
    ⟨-, hgets⟩ | ⟨-, -, -, hrefused, -⟩
  · have harb : ((d.unarbitrated b).place streamId b).2.inner.arbiter = none :=
      (arbiter_place streamId b).trans hnone
    have hgap : ((d.unarbitrated b).place streamId b).2.inner.gapHandler =
      d.inner.gapHandler.markReceived b.seq := gapHandler_place streamId b
    refine h.gets hgets.ring hgets.has hb (place_frame _ streamId b).nextUnseen ?_ ?_ ?_ ?_ ?_
    · rintro s (htracked | ⟨a, ha, -⟩)
      · rw [hgap] at htracked
        obtain ⟨hold, hne⟩ := (htracks s).mp htracked
        exact ⟨hne, h.missing s (Or.inl hold)⟩
      · rw [harb] at ha
        cases ha
    · rintro s hne (hold | ⟨a, ha, -⟩)
      · left
        rw [hgap]
        exact (htracks s).mpr ⟨hold, hne⟩
      · rw [hnone] at ha
        cases ha
    · rw [harb]
      intro a ha
      cases ha
    · rw [harb]
      intro a ha
      cases ha
    · rintro s hne ⟨-, hto⟩
      refine ⟨?_, exists_mem_of_ne hne hto⟩
      unfold Inner.Takes
      rw [harb]
      trivial
  · rw [hrefused] at hok
    cases hok

/-- So is one the arbiter forwards; the positions its window evicts were not had. -/
theorem accounts_forwarded {a a' : AbArbiter} {t : Instant}
    (h : d.inner.Accounts (d.inner.Awaits (some t) (b :: todo)))
    (htracking : d.inner.Tracking) (harbiter : d.inner.arbiter = some a)
    (hforward : a.Forwarded a' b.seq) (hb : b.seq < d.inner.nextUnseen)
    (hok : ((d.forwarded a' b).place streamId b).1 = .ok ()) :
    ((d.forwarded a' b).place streamId b).2.inner.Accounts
      (((d.forwarded a' b).place streamId b).2.inner.Awaits (some t) todo) := by
  have hsmall := htracking.small
  have hpos := a.windowLen_pos
  have hbase := h.base a harbiter
  have hbase' := hforward.base
  obtain ⟨-, htracks⟩ := GapRequestHandler.markReceived_spec htracking.gaps b.seq
  rcases place_gets (d := d.forwarded a' b) (b := b) (h.ring.congr rfl) streamId (by omega) with
    ⟨-, hgets⟩ | ⟨-, -, -, hrefused, -⟩
  · have harb : ((d.forwarded a' b).place streamId b).2.inner.arbiter = some a' :=
      arbiter_place streamId b
    have hgap : ((d.forwarded a' b).place streamId b).2.inner.gapHandler =
      d.inner.gapHandler.markReceived b.seq := gapHandler_place streamId b
    refine h.gets hgets.ring hgets.has hb (place_frame _ streamId b).nextUnseen ?_ ?_ ?_ ?_ ?_
    · rintro s (htracked | ⟨c, hc, hstaged⟩)
      · rw [hgap] at htracked
        obtain ⟨hold, hne⟩ := (htracks s).mp htracked
        exact ⟨hne, h.missing s (Or.inl hold)⟩
      · rw [harb] at hc
        obtain rfl := Option.some.inj hc
        obtain ⟨hold | ⟨hlo, -, hunseen⟩, hne⟩ := (hforward.pending s).mp hstaged
        · exact ⟨hne, h.missing s (Or.inr ⟨a, harbiter, hold⟩)⟩
        · exact ⟨hne, fun hhas ↦ hunseen ((h.seen a harbiter s hlo).mpr hhas)⟩
    · rintro s hne (hold | ⟨c, hc, hstaged⟩)
      · left
        rw [hgap]
        exact (htracks s).mpr ⟨hold, hne⟩
      · right
        rw [harbiter] at hc
        obtain rfl := Option.some.inj hc
        exact ⟨a', harb, (hforward.pending s).mpr ⟨Or.inl hstaged, hne⟩⟩
    · rw [harb]
      rintro _ ⟨⟩
      omega
    · rw [harb]
      rintro _ ⟨⟩ s hs
      have hle : a.windowBase ≤ s := by omega
      rw [hforward.seen, h.seen a harbiter s hle]
      constructor
      · rintro (⟨hold, -⟩ | ⟨heq, -⟩)
        · exact Or.inl hold
        · exact Or.inr heq
      · rintro (hold | rfl)
        · exact Or.inl ⟨hold, hs⟩
        · exact Or.inr ⟨rfl, hle⟩
    · rintro s hne ⟨htakes, hto⟩
      refine ⟨?_, exists_mem_of_ne hne hto⟩
      unfold Inner.Takes at htakes ⊢
      rw [harb]
      rw [harbiter] at htakes
      exact (hforward.takes_iff (htracking.arbiter a harbiter).apart hne).mpr htakes
  · rw [hrefused] at hok
    cases hok

/-- A dropped block was accounted for without it. -/
theorem accounts_dropped {a a' : AbArbiter} {t : Instant}
    (h : d.inner.Accounts (d.inner.Awaits (some t) (b :: todo)))
    (harbiter : d.inner.arbiter = some a) (hdrops : ¬ a.Takes b.seq) (hunmoved : a.Unmoved a') :
    (d.dropped a').inner.Accounts ((d.dropped a').inner.Awaits (some t) todo) := by
  have hmissing : ∀ s, (d.dropped a').inner.Missing s ↔ d.inner.Missing s := by
    intro s
    refine or_congr_right ⟨?_, ?_⟩
    · rintro ⟨c, hc, hstaged⟩
      obtain rfl := Option.some.inj hc
      exact ⟨a, harbiter, hunmoved.pending ▸ hstaged⟩
    · rintro ⟨c, hc, hstaged⟩
      rw [harbiter] at hc
      obtain rfl := Option.some.inj hc
      exact ⟨a', rfl, hunmoved.pending ▸ hstaged⟩
  refine ⟨h.ring.congr rfl, h.below, fun s hs ↦ h.missing s ((hmissing s).mp hs), ?_, ?_,
    fun s hs ↦ ?_⟩
  · rintro _ ⟨⟩
    exact hunmoved.base.trans_le (h.base a harbiter)
  · rintro _ ⟨⟩ s hs
    rw [hunmoved.seen]
    exact h.seen a harbiter s (hunmoved.base ▸ hs)
  · rcases h.cover s hs with hhas | hmiss | ⟨htakes, hto⟩
    · exact Or.inl hhas
    · exact Or.inr (Or.inl ((hmissing s).mpr hmiss))
    · unfold Inner.Takes at htakes
      rw [harbiter] at htakes
      have hne : s ≠ b.seq := by
        rintro rfl
        exact hdrops htakes
      exact Or.inr (Or.inr ⟨(hunmoved.takes_iff s).mpr htakes, exists_mem_of_ne hne hto⟩)

theorem accounts_decodeBlock (h : d.inner.Accounts (d.inner.Awaits now (b :: todo)))
    (htracking : d.inner.Tracking) (hnow : d.inner.arbiter.isSome → now.isSome)
    (hb : b.seq < d.inner.nextUnseen)
    (hok : (decodeBlock streamId now b d).1 = .ok ()) :
    (decodeBlock streamId now b d).2.inner.Accounts
      ((decodeBlock streamId now b d).2.inner.Awaits now todo) := by
  rcases decodeBlock_cases streamId now b d (hb.trans htracking.small) htracking.lt_len with
    ⟨hnone, hdecode⟩ | ⟨a, a', t, harbiter, rfl, -, hforward, hdecode⟩ |
    ⟨a, a', t, harbiter, rfl, hdrops, hunmoved, hdecode⟩
  · have hnone : d.inner.arbiter = none := by
      rcases hnone with hnone | rfl
      · exact hnone
      · by_contra hsome
        exact absurd (hnow (Option.isSome_iff_ne_none.mpr hsome)) (by simp)
    rw [hdecode] at hok ⊢
    exact accounts_unarbitrated h htracking hnone hb hok
  · rw [hdecode] at hok ⊢
    exact accounts_forwarded h htracking harbiter hforward hb hok
  · rw [hdecode]
    exact accounts_dropped h harbiter hdrops hunmoved

theorem accounts_decodeBlocks (streamId : UInt8) :
    ∀ {d : Decoding F}, d.inner.Accounts (d.inner.Awaits now todo) → d.inner.Tracking →
      d.inner.seqAnchored = true → (d.inner.arbiter.isSome → now.isSome) →
      (∀ b ∈ todo, b.seq < d.inner.nextUnseen) →
      (decodeBlocks streamId now todo d).1 = .ok () →
      (decodeBlocks streamId now todo d).2.inner.Accounts fun _ ↦ False := by
  induction todo with
  | nil =>
      intro d h _ _ _ _ _
      refine ⟨h.ring, h.below, h.missing, h.base, h.seen, fun s hs ↦ ?_⟩
      rcases h.cover s hs with hhas | hmiss | ⟨-, b, hb, -⟩
      · exact Or.inl hhas
      · exact Or.inr (Or.inl hmiss)
      · cases hb
  | cons b todo ih =>
      intro d h htracking hanchored hnow htodo hok
      have hb := htodo b List.mem_cons_self
      have hstep := fun hok ↦ @accounts_decodeBlock _ d streamId now b todo h htracking hnow hb hok
      have htracking₁ := tracking_decodeBlock htracking hanchored streamId now (Or.inl hb)
      have hframe := decodeBlock_frame streamId now b d
      have hsome := isSome_arbiter_decodeBlock streamId now b d
      unfold decodeBlocks at hok ⊢
      generalize decodeBlock streamId now b d = decoded at hok hstep htracking₁ hframe hsome ⊢
      obtain ⟨_ | _, d₁⟩ := decoded
      · cases hok
      · refine ih (hstep rfl) htracking₁ (hframe.seqAnchored.trans hanchored) ?_ ?_ hok
        · intro harbiter
          exact hnow (hsome ▸ harbiter)
        · intro b' hb'
          rw [hframe.nextUnseen]
          exact htodo b' (List.mem_cons_of_mem b hb')

end Decoding

/-! ## One decode step -/

namespace Inner

variable {i i' : Inner F}

theorem Accounts.noteTailGap (h : i.Accounts fun _ ↦ False) (htracking : i.Tracking)
    {nextExpected : ℕ} (hnext : nextExpected < 2 ^ 64) :
    (i.noteTailGap nextExpected).Accounts fun _ ↦ False := by
  unfold Inner.noteTailGap
  split
  · next hlt =>
      obtain ⟨-, hiff⟩ := @GapRequestHandler.recordMissingRange_spec _ htracking.gaps
        i.nextUnseen _ hnext
      refine h.extend rfl hlt.le ?_ ?_ (fun a ha ↦ ⟨a, ha, ⟨rfl, rfl, fun _ ↦ Iff.rfl⟩⟩) ?_
      · rintro s (htracks | hstaged)
        · exact ((hiff s).mp htracks).imp Or.inl And.left
        · exact Or.inl (Or.inr hstaged)
      · rintro s (htracks | hstaged)
        · exact Or.inl ((hiff s).mpr (Or.inl htracks))
        · exact Or.inr hstaged
      · exact fun s hlo hhi ↦ Or.inl (Or.inl ((hiff s).mpr (Or.inr ⟨hlo, hhi⟩)))
  · exact h

/-- Confirming a candidate turns one way of missing a number into the other. -/
theorem drainConfirmedGaps_missing (htracking : i.Tracking) (now : Instant) (s : ℕ) :
    ((i.drainConfirmedGaps now).Missing s ↔ i.Missing s) ∧
      (i.gapHandler.Tracks s → (i.drainConfirmedGaps now).gapHandler.Tracks s) := by
  unfold Inner.drainConfirmedGaps
  split
  · exact ⟨Iff.rfl, id⟩
  · next a harbiter =>
      have hsmall := htracking.small
      obtain ⟨-, hiff⟩ := @GapRequestHandler.foldl_recordGap_spec _ htracking.gaps
        (a.confirmedGaps now).1 fun s hs ↦ by
          have := (htracking.arbiter a harbiter).staged s (AbArbiter.mem_confirmedGaps hs)
          omega
      refine ⟨⟨?_, ?_⟩, fun htracks ↦ (hiff s).mpr (Or.inl htracks)⟩
      · rintro (htracks | ⟨_, ⟨⟩, hstaged⟩)
        · rcases (hiff s).mp htracks with hold | hconfirmed
          · exact Or.inl hold
          · exact Or.inr ⟨a, harbiter, AbArbiter.mem_confirmedGaps hconfirmed⟩
        · exact Or.inr ⟨a, harbiter, (AbArbiter.mem_pending_confirmedGaps.mp hstaged).1⟩
      · rintro (htracks | ⟨c, hc, hstaged⟩)
        · exact Or.inl ((hiff s).mpr (Or.inl htracks))
        · rw [harbiter] at hc
          obtain rfl := Option.some.inj hc
          by_cases hconfirmed : s ∈ (a.confirmedGaps now).1
          · exact Or.inl ((hiff s).mpr (Or.inr hconfirmed))
          · exact Or.inr ⟨_, rfl, AbArbiter.mem_pending_confirmedGaps.mpr ⟨hstaged, hconfirmed⟩⟩

theorem Accounts.drainConfirmedGaps (h : i.Accounts fun _ ↦ False) (htracking : i.Tracking)
    (now : Instant) : (i.drainConfirmedGaps now).Accounts fun _ ↦ False := by
  have hmissing := fun s ↦ (drainConfirmedGaps_missing htracking now s).1
  unfold Inner.drainConfirmedGaps at hmissing ⊢
  split at hmissing
  · exact h
  · next a harbiter =>
      refine h.extend rfl le_rfl (fun s hs ↦ Or.inl ((hmissing s).mp hs))
        (fun s hs ↦ (hmissing s).mpr hs) ?_ ?_
      · rintro _ ⟨⟩
        exact ⟨a, harbiter, ⟨rfl, rfl, fun _ ↦ Iff.rfl⟩⟩
      · intro s hlo hhi
        exact absurd hhi (Nat.not_lt.mpr hlo)

/-- Numbers at the mark or above it are let through. -/
theorem Accounts.takes_of_le {todo : ℕ → Prop} (h : i.Accounts todo) (now : Option Instant)
    {s : ℕ} (hs : i.nextUnseen ≤ s) : i.Takes now s := by
  unfold Inner.Takes
  split
  · next a t harbiter =>
      have hle := (h.base a harbiter).trans hs
      refine Or.inr ⟨hle, fun hseen ↦ ?_⟩
      have := h.below s ((h.seen a harbiter s hle).mp hseen)
      omega
  · trivial

/-- Entering the loop: the jump is missing, the datagram's own numbers are to do. -/
theorem Accounts.enterLoop (h : i.Accounts fun _ ↦ False) (htracking : i.Tracking)
    {header : DownstreamHeader} (datagram : Held F) (now : Option Instant) {blocks : List Block}
    (hsequence : header.sequence < 2 ^ 64)
    (hown : ∀ s, header.sequence ≤ s →
      s < saturatingAdd header.sequence header.messageCount → ∃ b ∈ blocks, b.seq = s) :
    (i.enterLoop header datagram now).inner.Accounts
      ((i.enterLoop header datagram now).inner.Awaits now blocks) := by
  have hown : ∀ s, i.nextUnseen ≤ s → header.sequence ≤ s →
      s < max i.nextUnseen (saturatingAdd header.sequence header.messageCount) →
      ∃ b ∈ blocks, b.seq = s := by
    intro s hlo hseq hhi
    exact hown s hseq (by omega)
  unfold Inner.enterLoop
  rcases i.noteJump_cases header.sequence now with
    ⟨hle, hjump⟩ | ⟨-, a, t, harbiter, rfl, hjump⟩ | ⟨-, hleg, hjump⟩
  · rw [hjump]
    refine h.extend rfl (le_max_left _ _) (fun s hs ↦ Or.inl hs) (fun s hs ↦ hs)
      (fun a ha ↦ ⟨a, ha, ⟨rfl, rfl, fun _ ↦ Iff.rfl⟩⟩) fun s hlo hhi ↦ Or.inr ⟨?_, ?_⟩
    · exact h.takes_of_le now hlo
    · exact hown s hlo (hle.trans hlo) hhi
  · rw [hjump]
    have hwatches := htracking.arbiter a harbiter
    obtain ⟨hbase, -, -, hseen, hpending⟩ := @AbArbiter.noteMissingRange_spec a t i.nextUnseen
      header.sequence (fun s hlo hhi ↦ hwatches.not_seen hlo hhi hsequence) hwatches.base
      hwatches.lt_len
    refine h.extend rfl (le_max_left _ _) ?_ ?_ ?_ fun s hlo hhi ↦ ?_
    · rintro s (htracks | ⟨_, ⟨⟩, hstaged⟩)
      · exact Or.inl (Or.inl htracks)
      · exact ((hpending s).mp hstaged).imp (fun hold ↦ Or.inr ⟨a, harbiter, hold⟩) And.left
    · rintro s (htracks | ⟨c, hc, hstaged⟩)
      · exact Or.inl htracks
      · rw [harbiter] at hc
        obtain rfl := Option.some.inj hc
        exact Or.inr ⟨_, rfl, (hpending s).mpr (Or.inl hstaged)⟩
    · rintro _ ⟨⟩
      exact ⟨a, harbiter, a.sameWindow_noteMissingRange _ _ _⟩
    · by_cases hjumped : s < header.sequence
      · exact Or.inl (Or.inr ⟨_, rfl, (hpending s).mpr (Or.inr ⟨hlo, hjumped⟩)⟩)
      · refine Or.inr ⟨?_, hown s hlo (Nat.le_of_not_lt hjumped) hhi⟩
        have htakes := h.takes_of_le (some t) hlo
        unfold Inner.Takes at htakes
        rw [harbiter] at htakes
        refine Or.inr ⟨hbase.trans_le ((h.base a harbiter).trans hlo), fun hs ↦ ?_⟩
        rcases htakes with ⟨hlt, -⟩ | ⟨-, hunseen⟩
        · have := h.base a harbiter
          omega
        · exact hunseen ((hseen s).mp hs)
  · rw [hjump]
    obtain ⟨-, hiff⟩ := @GapRequestHandler.recordMissingRange_spec _ htracking.gaps
      i.nextUnseen _ hsequence
    refine h.extend rfl (le_max_left _ _) ?_ ?_
      (fun a ha ↦ ⟨a, ha, ⟨rfl, rfl, fun _ ↦ Iff.rfl⟩⟩) fun s hlo hhi ↦ ?_
    · rintro s (htracks | hstaged)
      · exact ((hiff s).mp htracks).imp Or.inl And.left
      · exact Or.inl (Or.inr hstaged)
    · rintro s (htracks | hstaged)
      · exact Or.inl ((hiff s).mpr (Or.inl htracks))
      · exact Or.inr hstaged
    · by_cases hjumped : s < header.sequence
      · exact Or.inl (Or.inl ((hiff s).mpr (Or.inr ⟨hlo, hjumped⟩)))
      · exact Or.inr ⟨h.takes_of_le now hlo, hown s hlo (Nat.le_of_not_lt hjumped) hhi⟩

variable [AsRef F]

theorem Accounts.decodeData (h : i.Accounts fun _ ↦ False) (htracking : i.Tracking)
    (hanchored : i.seqAnchored = true) {streamId : UInt8} {datagram : Held F}
    {header : DownstreamHeader} {now : Option Instant}
    (hnow : i.arbiter.isSome → now.isSome)
    (hparse : parseHeader datagram.asRef = .ok header) (hfits : header.Fits)
    (hfull : ∀ capacity, (i.decodeData streamId datagram header now).1 ≠
      .error (.reassemblyBufferFull capacity)) :
    (i.decodeData streamId datagram header now).2.Accounts fun _ ↦ False := by
  rcases i.decodeData_cases streamId datagram header now with
    ⟨blocks, e, -, hdecode⟩ | ⟨blocks, hnumber, ⟨e, d, hloop, hdecode⟩ | ⟨d, hloop, hdecode⟩⟩
  · rw [hdecode]
    exact h.congr rfl rfl rfl rfl
  · obtain ⟨capacity, rfl⟩ := Decoding.decodeBlocks_error hloop
    rw [hdecode] at hfull
    exact (hfull capacity rfl).elim
  · have hown := fun n ↦ exists_block_iff hparse hfits hnumber n
    have hblocks : ({ i with blocks := blocks } : Inner F).Accounts fun _ ↦ False :=
      h.congr rfl rfl rfl rfl
    have htracking₁ : ({ i with blocks := blocks } : Inner F).Tracking :=
      htracking.congr rfl rfl rfl rfl rfl
    have hsat : saturatingAdd header.sequence header.messageCount =
        header.sequence + header.messageCount := by
      rw [DownstreamHeader.Fits] at hfits
      exact saturatingAdd_of_le (by rw [max64]; omega)
    have henter := hblocks.enterLoop htracking₁ datagram now (parseHeader_sequence_lt hparse)
      fun n hlo hhi ↦ (hown n).mpr ⟨hlo, hsat ▸ hhi⟩
    have htracking₂ := htracking₁.enterLoop datagram now (parseHeader_sequence_lt hparse) hanchored
    have hend := Decoding.accounts_decodeBlocks streamId henter htracking₂
      ((noteJump_frame { i with blocks := blocks } header.sequence now).seqAnchored.trans hanchored)
      (fun hsome ↦ hnow ?_) ?_ (by rw [hloop])
    · rw [hloop] at hend
      rw [hdecode]
      dsimp only at hend ⊢
      unfold Decoding.install
      split
      · exact hend.congr rfl rfl rfl rfl
      · exact hend
    · rw [← isSome_arbiter_noteJump { i with blocks := blocks } header.sequence now]
      exact hsome
    · intro b hb
      have hlt := ((hown b.seq).mp ⟨b, hb, rfl⟩).2
      exact lt_max_of_lt_right (hsat ▸ hlt)

/-- Before the anchor the ring is empty, afterwards every number is accounted for. -/
structure Ledger (i : Inner F) : Prop where
  blank : i.seqAnchored = false →
    i.reassembler.WellPlaced ∧ ∀ n, i.reassembler.lookup n = none
  accounts : i.seqAnchored = true → i.Accounts fun _ ↦ False

omit [AsRef F] in
theorem Ledger.congr (h : i.Ledger) (hring : i'.reassembler = i.reassembler)
    (hgap : i'.gapHandler = i.gapHandler) (hunseen : i'.nextUnseen = i.nextUnseen)
    (harbiter : i'.arbiter = i.arbiter) (hanchored : i'.seqAnchored = i.seqAnchored) :
    i'.Ledger := by
  refine ⟨?_, fun htrue ↦ ?_⟩
  · rw [hring, hanchored]
    exact h.blank
  · exact (h.accounts (hanchored ▸ htrue)).congr hring hgap hunseen harbiter

omit [AsRef F] in
/-- Ring empty, window empty, and all three counters at one number. -/
theorem accounts_empty (hplaced : i.reassembler.WellPlaced)
    (hnone : ∀ n, i.reassembler.lookup n = none)
    (hunseen : i.nextUnseen = i.reassembler.expectedNext) (hmissing : ∀ s, ¬ i.Missing s)
    (harbiter : ∀ a ∈ i.arbiter, a.windowBase = i.nextUnseen ∧ ∀ s, ¬ a.Seen s) :
    i.Accounts fun _ ↦ False := by
  have hempty : ∀ n, ¬ (i.reassembler.lookup n).isSome := by
    intro n
    simp [hnone]
  have hhas : ∀ n, i.Has n ↔ n < i.nextUnseen := by
    intro n
    rw [hunseen]
    exact or_iff_left (hempty n)
  refine ⟨⟨hplaced, fun n hn ↦ (hempty n hn).elim, fun n hn ↦ (hempty n hn).elim⟩,
    fun s ↦ (hhas s).mp, fun s hs ↦ (hmissing s hs).elim, fun a ha ↦ (harbiter a ha).1.le,
    fun a ha s hs ↦ ?_, fun s hs ↦ Or.inl ((hhas s).mpr hs)⟩
  obtain ⟨hbase, hseen⟩ := harbiter a ha
  refine iff_of_false (hseen s) fun hs' ↦ ?_
  have := (hhas s).mp hs'
  omega

omit [AsRef F] in
/-- The first header accepted anchors ring, mark and window at one number. -/
theorem Ledger.accepted (h : i.Ledger) (htracking : i.Tracking) (rest : List (UInt8 × Held F))
    (header : DownstreamHeader) : (i.accepted rest header).Accounts fun _ ↦ False := by
  unfold Inner.accepted anchor
  dsimp only
  split
  · next hanchored => exact (h.accounts hanchored).congr rfl rfl rfl rfl
  · next hblank =>
      have hblank := Bool.eq_false_of_not_eq_true hblank
      obtain ⟨hplaced, hnone⟩ := h.blank hblank
      refine accounts_empty hplaced hnone rfl ?_ ?_
      · rintro s (htracks | ⟨a', ha', hstaged⟩)
        · exact (htracking.blank hblank s).1 htracks
        · obtain ⟨a, -, rfl⟩ := Option.map_eq_some_iff.mp ha'
          simp [AbArbiter.rebase] at hstaged
      · intro a' ha'
        obtain ⟨a, -, rfl⟩ := Option.map_eq_some_iff.mp ha'
        exact ⟨rfl, AbArbiter.not_seen_rebase _ _⟩

theorem Processed.ledger {now : Instant} {r : Except MoldUdpError Unit}
    (h : i.Processed (i.clock now) r i') (hledger : i.Ledger) (htracking : i.Tracking)
    (hfits : ∀ p ∈ i.pendingDatagrams.head?, ∀ header,
      parseHeader p.2.asRef = .ok header → header.kind = .data → header.Fits)
    (hfull : ∀ capacity, r ≠ .error (.reassemblyBufferFull capacity)) : i'.Ledger := by
  have hanchored := fun rest header ↦ (i.accepted_session rest header).2
  have haccepted := hledger.accepted htracking
  have hof : ∀ {i' : Inner F}, i'.Accounts (fun _ ↦ False) → i'.seqAnchored = true → i'.Ledger :=
    fun haccounts htrue ↦ ⟨fun hfalse ↦ (Bool.false_ne_true (hfalse.symm.trans htrue)).elim,
      fun _ ↦ haccounts⟩
  cases h with
  | idle => exact hledger
  | unparsed => exact hledger.congr rfl rfl rfl rfl rfl
  | mismatch => exact hledger.congr rfl rfl rfl rfl rfl
  | @control _ _ rest header ev _ hparse =>
      have hsequence := parseHeader_sequence_lt hparse
      refine hof ?_ ?_
      · exact ((haccepted rest header).noteTailGap (htracking.accepted rest hsequence)
          hsequence).congr rfl rfl rfl rfl
      · refine Eq.trans ?_ (hanchored rest header)
        unfold pushEvent noteTailGap
        dsimp only
        split <;> rfl
  | @data streamId datagram rest header hpop hparse _ hkind =>
      have hsequence := parseHeader_sequence_lt hparse
      have hnow : (i.accepted rest header).arbiter.isSome → (i.clock now).isSome := by
        rw [isSome_clock, isSome_arbiter_accepted]
        exact id
      refine hof ?_ ?_
      · exact (haccepted rest header).decodeData (htracking.accepted rest hsequence)
          (hanchored rest header) hnow hparse
          (hfits (streamId, datagram) (by rw [hpop]; rfl) header hparse hkind) hfull
      · exact (decodeData_kept _ _ _ _ _).2.2.trans (hanchored rest header)

theorem Ledger.decodeNext (h : i.Ledger) (htracking : i.Tracking) {now : Instant}
    (hfits : ∀ p ∈ i.pendingDatagrams.head?, ∀ header,
      parseHeader p.2.asRef = .ok header → header.kind = .data → header.Fits)
    (hfull : ∀ capacity, (i.decodeNext now).1 ≠ .error (.reassemblyBufferFull capacity)) :
    (i.decodeNext now).2.Ledger := by
  have hprocessed := i.processNextPending_processed (i.clock now)
  have htracking₁ := hprocessed.tracking htracking
  unfold Inner.decodeNext at hfull ⊢
  generalize i.processNextPending (i.clock now) = processed at hprocessed htracking₁ hfull ⊢
  obtain ⟨e | _, i₁⟩ := processed
  · exact hprocessed.ledger h htracking hfits hfull
  · have hledger := hprocessed.ledger h htracking hfits fun _ ↦ nofun
    dsimp only at htracking₁ ⊢
    split
    · have hkept : (i₁.drainConfirmedGaps now).seqAnchored = i₁.seqAnchored ∧
          (i₁.drainConfirmedGaps now).reassembler = i₁.reassembler := by
        unfold Inner.drainConfirmedGaps
        split <;> exact ⟨rfl, rfl⟩
      refine ⟨?_, fun htrue ↦ ?_⟩
      · rw [hkept.1, hkept.2]
        exact hledger.blank
      · exact (hledger.accounts (hkept.1 ▸ htrue)).drainConfirmedGaps htracking₁ now
    · exact hledger

end Inner

/-! ## Whole runs -/

section Runs

variable [AsRef F]

/-- Events in which no insert is refused. -/
def Session.Unrefused (s : Session F) : Event F → Prop
  | .decode now =>
      ∀ capacity, (s.inner.decodeNext now).1 ≠ .error (.reassemblyBufferFull capacity)
  | _ => True

instance (s : Session F) : ∀ e, Decidable (s.Unrefused e)
  | .decode now => decidableNeFull (s.inner.decodeNext now).1
  | .retire => .isTrue trivial
  | .land .. => .isTrue trivial
  | .yieldItem => .isTrue trivial
  | .yieldOwned => .isTrue trivial

/-- Events that lose nothing: no datagram carries the last word, no insert is refused. -/
def Session.Accountable (s : Session F) : Event F → Prop
  | .decode now =>
      (∀ p ∈ s.inner.pendingDatagrams.head?, ∀ header,
        parseHeader p.2.asRef = .ok header → header.kind = .data →
        header.sequence + header.messageCount ≤ max64) ∧
      ∀ capacity, (s.inner.decodeNext now).1 ≠ .error (.reassemblyBufferFull capacity)
  | _ => True

instance (s : Session F) : ∀ e, Decidable (s.Accountable e)
  | .decode _ => inferInstanceAs (Decidable (_ ∧ _))
  | .retire => .isTrue trivial
  | .land .. => .isTrue trivial
  | .yieldItem => .isTrue trivial
  | .yieldOwned => .isTrue trivial

omit [AsRef F] in
theorem Inner.ledger_fresh (cfg : MoldUdpReceiverConfig) (legs : List Leg) :
    (Inner.fresh cfg legs : Inner F).Ledger := by
  refine ⟨fun _ ↦ ⟨wellPlaced_fresh cfg legs, lookup_fresh cfg legs⟩, fun hanchored ↦ ?_⟩
  obtain ⟨start, hstart⟩ : ∃ start, cfg.startSequence = some start :=
    Option.isSome_iff_exists.mp hanchored
  refine accounts_empty (wellPlaced_fresh cfg legs) (lookup_fresh cfg legs) rfl ?_ ?_
  · rintro s (htracks | ⟨a, ha, hstaged⟩)
    · exact GapRequestHandler.not_tracks_new s htracks
    · exact (arbiter_fresh cfg legs ha).2.2.2 s hstaged
  · intro a ha
    obtain ⟨-, hbase, hseen, -⟩ := arbiter_fresh cfg legs ha
    refine ⟨?_, hseen⟩
    rw [nextUnseen_fresh, expectedNext_fresh cfg legs hstart, hbase, hstart]
    rfl

theorem ledger_of_run {cfg : MoldUdpReceiverConfig} {legs : List Leg} {inner : Inner F}
    {s : Session F} (hnew : fromLegs cfg legs = .ok inner)
    (hrun : (machine F).Run Session.Accountable (Session.start inner) s) : s.inner.Ledger := by
  refine Machine.Run.invariant_of (I := fun s ↦ s.inner.Ledger)
    (fun t ht ↦ tracking_of_run hnew ht) ?_ ?_ hrun
  · obtain rfl := fromLegs_ok hnew
    exact Inner.ledger_fresh cfg legs
  · intro s e t htracking h hallowed hstep
    have hstep' := Session.step_of_next hstep
    by_cases hdecode : ∀ now, e ≠ .decode now
    · obtain ⟨hsame, -⟩ := hstep'.sameTracking hdecode
      exact h.congr hsame.reassembler hsame.gapHandler hsame.nextUnseen hsame.arbiter
        hsame.seqAnchored
    · cases hstep' with
      | decode now =>
          refine h.decodeNext htracking (fun p hp header hparse hkind ↦ ?_) hallowed.2
          have hle := hallowed.1 p hp header hparse hkind
          rw [max64] at hle
          rw [DownstreamHeader.Fits]
          omega
      | _ => exact (hdecode fun now ↦ by simp).elim

/-- Missing-message accounting.  After the anchor every number from `expected_next` up to
`next_unseen` is buffered, tracked or staged, everything buffered or tracked lies in that
range, and on one leg a number of it is either buffered or tracked, not both. -/
theorem missing_accounted {cfg : MoldUdpReceiverConfig} {legs : List Leg} {inner : Inner F}
    {s : Session F} (hnew : fromLegs cfg legs = .ok inner)
    (hrun : (machine F).Run Session.Accountable (Session.start inner) s)
    (hanchored : s.inner.seqAnchored = true) :
    (∀ n, s.inner.reassembler.expectedNext ≤ n → n < s.inner.nextUnseen →
      s.inner.reassembler.Holds n ∨ s.inner.gapHandler.Tracks n ∨ s.inner.Staged n) ∧
    (∀ n, s.inner.reassembler.Holds n ∨ s.inner.gapHandler.Tracks n →
      s.inner.reassembler.expectedNext ≤ n ∧ n < s.inner.nextUnseen) ∧
    (legs.length = 1 → ∀ n, s.inner.reassembler.expectedNext ≤ n → n < s.inner.nextUnseen →
      Xor (s.inner.reassembler.Holds n) (s.inner.gapHandler.Tracks n)) := by
  have h := (ledger_of_run hnew hrun).accounts hanchored
  have htracking := tracking_of_run hnew hrun
  have hholds : ∀ n, s.inner.reassembler.Holds n ↔ (s.inner.reassembler.lookup n).isSome :=
    fun n ↦ SequenceReassembler.holds_iff h.ring.placed
  have hcover : ∀ n, s.inner.reassembler.expectedNext ≤ n → n < s.inner.nextUnseen →
      s.inner.reassembler.Holds n ∨ s.inner.gapHandler.Tracks n ∨ s.inner.Staged n := by
    intro n hlo hhi
    rcases h.cover n hhi with (hlt | hheld) | hmissing | hfalse
    · omega
    · exact Or.inl ((hholds n).mpr hheld)
    · exact Or.inr hmissing
    · exact hfalse.elim
  refine ⟨hcover, ?_, fun hleg n hlo hhi ↦ ?_⟩
  · rintro n (hheld | htracks)
    · have hheld := (hholds n).mp hheld
      exact ⟨(h.ring.ahead n hheld).le, h.below n (Or.inr hheld)⟩
    · refine ⟨?_, htracking.tracked n htracks⟩
      by_contra hlt
      exact h.missing n (Or.inl htracks) (Or.inl (Nat.lt_of_not_le hlt))
  · have hnone : s.inner.arbiter = none := by
      have hsome := isSome_arbiter_of_run hnew hrun
      rw [hleg] at hsome
      simpa using hsome
    rcases hcover n hlo hhi with hheld | htracks | ⟨a, ha, -⟩
    · refine Or.inl ⟨hheld, fun htracks ↦ ?_⟩
      exact h.missing n (Or.inl htracks) (Or.inr ((hholds n).mp hheld))
    · refine Or.inr ⟨htracks, fun hheld ↦ ?_⟩
      exact h.missing n (Or.inl htracks) (Or.inr ((hholds n).mp hheld))
    · rw [hnone] at ha
      cases ha

end Runs

/-- 3 arrives first: 1 and 2 are recorded as missing, 3 is buffered. -/
def sampleJump : List (Event (List UInt8)) :=
  [.land [(0, .frame (moldPacket sampleSession 3 [3]))] [], .decode 0]

theorem missing_accounted_jump :
    ∃ s : Session (List UInt8),
      Machine.follow Session.next (Session.start sampleOneLeg) sampleJump = some s ∧
      (s.inner.reassembler.expectedNext, s.inner.nextUnseen) = (1, 4) ∧
      ∀ n, 1 ≤ n → n < 4 →
        Xor (s.inner.reassembler.Holds n) (s.inner.gapHandler.Tracks n) := by
  have hend : ∃ s ∈ Machine.follow Session.next (Session.start sampleOneLeg) sampleJump,
      s.inner.seqAnchored = true ∧
      (s.inner.reassembler.expectedNext, s.inner.nextUnseen) = (1, 4) := by decide +kernel
  obtain ⟨s, hs, hanchored, hrange⟩ := hend
  have hallowed : Machine.AllowedAlong Session.next Session.Accountable
      (Session.start sampleOneLeg) sampleJump := by decide +kernel
  obtain ⟨-, -, hone⟩ := @missing_accounted _ _ { startSequence := some 1 }
    [⟨minLegPoolCapacity⟩] _ _ rfl (Machine.Run.of_follow hallowed hs) hanchored
  obtain ⟨hexp, hunseen⟩ := Prod.mk.inj hrange
  rw [hexp, hunseen] at hone
  exact ⟨s, hs, hrange, hone rfl⟩

/-- Receiver of one leg that anchors on the first packet. -/
def sampleUnanchored : Inner (List UInt8) := .fresh {} [⟨minLegPoolCapacity⟩]

/-- One packet carrying the last word: `expected_next` wraps to 0 while `next_unseen`
stops at the last word, and nothing between them is tracked. -/
def sampleLastWord : List (Event (List UInt8)) :=
  [.land [(0, .frame (moldPacket sampleSession max64 [7]))] [], .decode 0]

theorem last_word_unaccounted :
    ∃ s : Session (List UInt8),
      (machine (List UInt8)).Run Session.Unrefused (Session.start sampleUnanchored) s ∧
      s.inner.seqAnchored = true ∧
      ¬ ∀ n, s.inner.reassembler.expectedNext ≤ n → n < s.inner.nextUnseen →
        s.inner.reassembler.Holds n ∨ s.inner.gapHandler.Tracks n ∨ s.inner.Staged n := by
  have hend : ∃ s ∈ Machine.follow Session.next (Session.start sampleUnanchored) sampleLastWord,
      s.inner.seqAnchored = true ∧ s.inner.reassembler.expectedNext = 0 ∧
      0 < s.inner.nextUnseen ∧
      ¬ (s.inner.reassembler.lookup 0).isSome ∧ ¬ s.inner.gapHandler.Tracks 0 ∧
      s.inner.arbiter = none := by
    decide +kernel
  obtain ⟨s, hs, hanchored, hexp, hunseen, hheld, htracks, hnone⟩ := hend
  have hallowed : Machine.AllowedAlong Session.next Session.Unrefused
      (Session.start sampleUnanchored) sampleLastWord := by decide +kernel
  have hrun := Machine.Run.of_follow hallowed hs
  have hplaced := (@tracking_of_run _ _ _ {} [⟨minLegPoolCapacity⟩] _ _ rfl hrun).placed
  refine ⟨s, hrun, hanchored, fun h ↦ ?_⟩
  rcases h 0 hexp.le hunseen with hholds | htracked | ⟨a, ha, -⟩
  · exact hheld ((SequenceReassembler.holds_iff hplaced).mp hholds)
  · exact htracks htracked
  · rw [hnone] at ha
    cases ha

end MoldUdp
