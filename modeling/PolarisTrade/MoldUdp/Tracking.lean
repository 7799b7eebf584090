import PolarisTrade.MoldUdp.Delivery

/-!
# What is known to be missing

Gap handler, arbiter and high-water mark over every run, whatever the datagrams and
whatever failed on the way: everything tracked or staged lies below `next_unseen`, and
nothing the arbiter has seen is tracked or staged.
-/

namespace MoldUdp

open Transport Word

variable {F : Type}

/-- Window and candidates of the arbiter next to the gaps `g` and the mark `unseen`.  The
last word can be seen but never lies below the mark, which stops there. -/
structure AbArbiter.Watches (a : AbArbiter) (g : GapRequestHandler) (unseen : ℕ) : Prop where
  len : a.windowLen = ringCapacity
  base : a.windowBase < 2 ^ 64
  apart : a.Apart
  seen : ∀ s, a.Seen s → s < unseen ∨ s = max64
  untracked : ∀ s, a.Seen s → ¬ g.Tracks s
  staged : ∀ s, s ∈ a.pendingGapConfirms → s < unseen

/-- Number `s` is below the mark, or it is the last word and the mark has reached it. -/
def Below (s unseen : ℕ) : Prop := s < unseen ∨ (s = max64 ∧ unseen = max64)

theorem Below.lt {s unseen : ℕ} (h : Below s unseen) (hsmall : unseen < 2 ^ 64) :
    s < 2 ^ 64 := by
  rcases h with hlt | ⟨heq, hmax⟩
  · exact hlt.trans hsmall
  · rw [heq, ← hmax]
    exact hsmall

namespace AbArbiter.Watches

variable {a a' : AbArbiter} {g g' : GapRequestHandler} {unseen unseen' : ℕ}

theorem lt_len (h : a.Watches g unseen) : a.windowLen < 2 ^ 64 := h.len ▸ ringCapacity_lt

theorem mono (h : a.Watches g unseen) (hle : unseen ≤ unseen') : a.Watches g unseen' :=
  ⟨h.len, h.base, h.apart, fun s hs ↦ (h.seen s hs).imp_left fun hlt ↦ hlt.trans_le hle,
    h.untracked, fun s hs ↦ (h.staged s hs).trans_le hle⟩

/-- Whatever `g'` tracks beyond `g` was not seen. -/
theorem of_tracks (h : a.Watches g unseen)
    (hg : ∀ s, g'.Tracks s → g.Tracks s ∨ ¬ a.Seen s) : a.Watches g' unseen := by
  refine ⟨h.len, h.base, h.apart, h.seen, fun s hs htracks ↦ ?_, h.staged⟩
  rcases hg s htracks with hold | hunseen
  · exact h.untracked s hs hold
  · exact hunseen hs

theorem forwarded {seq : ℕ} (h : a.Watches g unseen) (hforward : a.Forwarded a' seq)
    (hseq : Below seq unseen) (hsmall : unseen < 2 ^ 64)
    (hg : ∀ s, g'.Tracks s → g.Tracks s ∧ s ≠ seq) : a'.Watches g' unseen := by
  have hpos := a.windowLen_pos
  have hbase := h.base
  have hbase' := hforward.base
  refine ⟨hforward.len.trans h.len, ?_, hforward.apart h.apart, fun s hs ↦ ?_,
    fun s hs htracks ↦ ?_, fun s hs ↦ ?_⟩
  · have := hseq.lt hsmall
    omega
  · rcases (hforward.seen s).mp hs with ⟨hold, -⟩ | ⟨rfl, -⟩
    · exact h.seen s hold
    · exact hseq.imp_right And.left
  · rcases (hforward.seen s).mp hs with ⟨hold, -⟩ | ⟨heq, -⟩
    · exact h.untracked s hold (hg s htracks).1
    · exact (hg s htracks).2 heq
  · obtain ⟨hold | ⟨hlo, hhi, -⟩, -⟩ := (hforward.pending s).mp hs
    · exact h.staged s hold
    · -- evicted positions lie a whole window below `seq`
      rcases hseq with hlt | ⟨heq, hmax⟩ <;> omega

theorem unmoved (h : a.Watches g unseen) (hunmoved : a.Unmoved a') : a'.Watches g unseen := by
  refine ⟨hunmoved.len.trans h.len, hunmoved.base.trans_lt h.base, hunmoved.apart h.apart,
    fun s hs ↦ h.seen s ((hunmoved.seen s).mp hs),
    fun s hs ↦ h.untracked s ((hunmoved.seen s).mp hs), fun s hs ↦ ?_⟩
  rw [hunmoved.pending] at hs
  exact h.staged s hs

/-- Numbers from the mark on, short of the last word, were not seen. -/
theorem not_seen (h : a.Watches g unseen) {s stop : ℕ} (hlo : unseen ≤ s) (hhi : s < stop)
    (hstop : stop < 2 ^ 64) : ¬ a.Seen s := by
  intro hs
  rcases h.seen s hs with hlt | heq
  · omega
  · rw [max64] at heq
    omega

/-- Staging the numbers from the mark up to `stop` and moving the mark past them. -/
theorem noteMissingRange (h : a.Watches g unseen) {stop : ℕ} (hstop : stop < 2 ^ 64)
    (hle : unseen ≤ unseen') (hle' : stop ≤ unseen') (now : Instant) :
    (a.noteMissingRange unseen stop now).Watches g unseen' := by
  have hunseen : ∀ s, unseen ≤ s → s < stop → ¬ a.Seen s := fun s hlo hhi ↦
    h.not_seen hlo hhi hstop
  obtain ⟨hbase, hlen, -, hseen, hpending⟩ :=
    @AbArbiter.noteMissingRange_spec a now _ _ hunseen h.base h.lt_len
  refine ⟨hlen.trans h.len, hbase.trans_lt h.base, fun s hs hmem ↦ ?_, fun s hs ↦ ?_,
    fun s hs ↦ ?_, fun s hs ↦ ?_⟩
  · have hs := (hseen s).mp hs
    rcases (hpending s).mp hmem with hold | ⟨hlo, hhi⟩
    · exact h.apart s hs hold
    · exact hunseen s hlo hhi hs
  · exact (h.mono hle).seen s ((hseen s).mp hs)
  · exact h.untracked s ((hseen s).mp hs)
  · rcases (hpending s).mp hs with hold | ⟨-, hhi⟩
    · exact (h.staged s hold).trans_le hle
    · omega

end AbArbiter.Watches

/-- The tracking state of the receiver is sound. -/
structure Inner.Tracking (i : Inner F) : Prop where
  placed : i.reassembler.WellPlaced
  gaps : i.gapHandler.WellFormed
  small : i.nextUnseen < 2 ^ 64
  tracked : ∀ s, i.gapHandler.Tracks s → s < i.nextUnseen
  arbiter : ∀ a ∈ i.arbiter, a.Watches i.gapHandler i.nextUnseen
  blank : i.seqAnchored = false → ∀ s, ¬ i.gapHandler.Tracks s ∧
    ∀ a ∈ i.arbiter, s ∉ a.pendingGapConfirms

namespace Inner.Tracking

variable {i i' : Inner F}

theorem congr (h : i.Tracking) (hring : i'.reassembler = i.reassembler)
    (hgap : i'.gapHandler = i.gapHandler)
    (hunseen : i'.nextUnseen = i.nextUnseen) (harbiter : i'.arbiter = i.arbiter)
    (hanchored : i'.seqAnchored = i.seqAnchored) : i'.Tracking := by
  refine ⟨?_, ?_, ?_, ?_, ?_, ?_⟩
  · exact hring ▸ h.placed
  · exact hgap ▸ h.gaps
  · exact hunseen ▸ h.small
  · rw [hgap, hunseen]
    exact h.tracked
  · rw [hgap, hunseen, harbiter]
    exact h.arbiter
  · rw [hgap, hanchored, harbiter]
    exact h.blank

theorem lt_len (h : i.Tracking) : ∀ a ∈ i.arbiter, a.windowLen < 2 ^ 64 :=
  fun a ha ↦ (h.arbiter a ha).lt_len

/-- Recording the numbers from the mark up to `stop` and moving the mark past them. -/
theorem record (h : i.Tracking) {stop : ℕ} (hstop : stop < 2 ^ 64)
    (hring : i'.reassembler = i.reassembler)
    (hgap : i'.gapHandler = i.gapHandler.recordMissingRange i.nextUnseen stop)
    (hle : i.nextUnseen ≤ i'.nextUnseen) (hle' : stop ≤ i'.nextUnseen)
    (hsmall : i'.nextUnseen < 2 ^ 64) (harbiter : i'.arbiter = i.arbiter)
    (hanchored : i'.seqAnchored = true) : i'.Tracking := by
  obtain ⟨hwf, hiff⟩ := @GapRequestHandler.recordMissingRange_spec _ h.gaps i.nextUnseen _ hstop
  rw [← hgap] at hwf hiff
  refine ⟨hring ▸ h.placed, hwf, hsmall, fun s hs ↦ ?_, fun a ha ↦ ?_, fun hblank ↦ ?_⟩
  · rcases (hiff s).mp hs with hold | ⟨-, hhi⟩
    · exact (h.tracked s hold).trans_le hle
    · omega
  · have hwatches := h.arbiter a (harbiter ▸ ha)
    refine (hwatches.mono hle).of_tracks fun s hs ↦ ((hiff s).mp hs).imp_right ?_
    exact fun ⟨hlo, hhi⟩ ↦ hwatches.not_seen hlo hhi hstop
  · rw [hanchored] at hblank
    cases hblank

theorem raise (h : i.Tracking) {unseen : ℕ} (hle : i.nextUnseen ≤ unseen)
    (hsmall : unseen < 2 ^ 64) : Inner.Tracking { i with nextUnseen := unseen } :=
  ⟨h.placed, h.gaps, hsmall, fun s hs ↦ (h.tracked s hs).trans_le hle,
    fun a ha ↦ (h.arbiter a ha).mono hle, h.blank⟩

theorem noteTailGap (h : i.Tracking) {nextExpected : ℕ} (hnext : nextExpected < 2 ^ 64)
    (hanchored : i.seqAnchored = true) : (i.noteTailGap nextExpected).Tracking := by
  unfold Inner.noteTailGap
  split
  · next hlt => exact h.record hnext rfl rfl hlt.le le_rfl hnext rfl hanchored
  · exact h

/-- Confirmed candidates become gaps; none of them was seen. -/
theorem drainConfirmedGaps (h : i.Tracking) (now : Instant) :
    (i.drainConfirmedGaps now).Tracking := by
  unfold Inner.drainConfirmedGaps
  split
  · exact h
  · next a harbiter =>
      have hwatches := h.arbiter a harbiter
      have hsmall := h.small
      have hstaged : ∀ s ∈ (a.confirmedGaps now).1, s ∈ a.pendingGapConfirms := fun s hs ↦
        AbArbiter.mem_confirmedGaps hs
      have hleft : ∀ s ∈ (a.confirmedGaps now).2.pendingGapConfirms, s ∈ a.pendingGapConfirms :=
        fun s hs ↦ (AbArbiter.mem_pending_confirmedGaps.mp hs).1
      obtain ⟨hwf, hiff⟩ := @GapRequestHandler.foldl_recordGap_spec _ h.gaps
        (a.confirmedGaps now).1 fun s hs ↦ by
          have := hwatches.staged s (hstaged s hs)
          omega
      refine ⟨h.placed, hwf, hsmall, fun s hs ↦ ?_, ?_, fun hblank s ↦ ⟨fun hs ↦ ?_, ?_⟩⟩
      · rcases (hiff s).mp hs with hold | hnew
        · exact h.tracked s hold
        · exact hwatches.staged s (hstaged s hnew)
      · rintro _ ⟨⟩
        refine ⟨hwatches.len, hwatches.base, fun s hs hmem ↦ hwatches.apart s hs (hleft s hmem),
          hwatches.seen, fun s hs htracks ↦ ?_, fun s hs ↦ hwatches.staged s (hleft s hs)⟩
        rcases (hiff s).mp htracks with hold | hnew
        · exact hwatches.untracked s hs hold
        · exact hwatches.apart s hs (hstaged s hnew)
      · obtain ⟨huntracked, hunstaged⟩ := h.blank hblank s
        rcases (hiff s).mp hs with hold | hnew
        · exact huntracked hold
        · exact hunstaged a harbiter (hstaged s hnew)
      · rintro _ ⟨⟩ hs
        exact (h.blank hblank s).2 a harbiter (hleft s hs)

theorem accepted (h : i.Tracking) (rest : List (UInt8 × Held F)) {header : DownstreamHeader}
    (hsequence : header.sequence < 2 ^ 64) : (i.accepted rest header).Tracking := by
  unfold Inner.accepted anchor
  dsimp only
  split
  · exact h.congr rfl rfl rfl rfl rfl
  · next hblank =>
      have hnone := h.blank (Bool.eq_false_of_not_eq_true hblank)
      refine ⟨h.placed, h.gaps, hsequence, fun s hs ↦ ((hnone s).1 hs).elim, ?_,
        fun hfalse ↦ nomatch hfalse⟩
      intro a' ha'
      obtain ⟨a, ha, rfl⟩ := Option.map_eq_some_iff.mp ha'
      refine ⟨(h.arbiter a ha).len, hsequence, fun s hs ↦ ?_, fun s hs ↦ ?_, fun s hs ↦ ?_,
        fun s hs ↦ ?_⟩
      · exact (AbArbiter.not_seen_rebase _ _ _ hs).elim
      · exact (AbArbiter.not_seen_rebase _ _ _ hs).elim
      · exact (AbArbiter.not_seen_rebase _ _ _ hs).elim
      · simp [AbArbiter.rebase] at hs

end Inner.Tracking

/-! ## The block loop -/

namespace Decoding

variable {d : Decoding F}

theorem gapHandler_place (streamId : UInt8) (b : Block) :
    (d.place streamId b).2.inner.gapHandler = d.inner.gapHandler := by
  unfold Decoding.place
  split
  · rfl
  · unfold Decoding.buffer
    split <;> rfl
  · rfl

theorem isSome_arbiter_decodeBlock (streamId : UInt8) (now : Option Instant) (b : Block)
    (d : Decoding F) :
    (decodeBlock streamId now b d).2.inner.arbiter.isSome = d.inner.arbiter.isSome := by
  have hobserve : (d.inner.observe streamId b.seq now).2.arbiter.isSome =
      d.inner.arbiter.isSome := by
    unfold Inner.observe
    split
    · next harbiter => rw [harbiter]; rfl
    · rfl
  unfold decodeBlock
  generalize d.inner.observe streamId b.seq now = observed at hobserve ⊢
  obtain ⟨verdict, inner⟩ := observed
  cases verdict with
  | duplicate => exact hobserve
  | outOfWindow => exact hobserve
  | forward => exact (congrArg Option.isSome (arbiter_place streamId b)).trans hobserve

theorem isSome_arbiter_decodeBlocks (streamId : UInt8) (now : Option Instant)
    (todo : List Block) (d : Decoding F) :
    (decodeBlocks streamId now todo d).2.inner.arbiter.isSome = d.inner.arbiter.isSome := by
  induction todo generalizing d with
  | nil => rfl
  | cons b todo ih =>
      have hstep := isSome_arbiter_decodeBlock streamId now b d
      unfold decodeBlocks
      generalize decodeBlock streamId now b d = decoded at hstep ⊢
      obtain ⟨_ | _, d'⟩ := decoded
      · exact hstep
      · exact (ih d').trans hstep

theorem wellPlaced_place (h : d.inner.reassembler.WellPlaced) (streamId : UInt8) (b : Block) :
    (d.place streamId b).2.inner.reassembler.WellPlaced := by
  unfold Decoding.place
  split
  · exact SequenceReassembler.wellPlaced_drain
      (r := d.inner.reassembler.advanceExpected 1) h
  · unfold Decoding.buffer
    rcases d.inner.reassembler.insert_cases b.seq ⟨d.backing.share.2, b.offset, b.len⟩ with
      ⟨-, hinsert⟩ | ⟨-, -, hinsert⟩ | ⟨-, -, -, -, hinsert⟩ | ⟨-, -, -, hinsert⟩
    · rw [hinsert]
      exact h
    · rw [hinsert]
      exact h
    · rw [hinsert]
      exact h
    · have hstore := SequenceReassembler.wellPlaced_store h b.seq
        ⟨d.backing.share.2, b.offset, b.len⟩
      rw [hinsert]
      cases decide (b.seq = d.inner.reassembler.expectedNext) with
      | false => exact hstore
      | true => exact SequenceReassembler.wellPlaced_drain hstore
  · exact h

theorem tracking_place (h : d.inner.Tracking) (streamId : UInt8) (b : Block) :
    (d.place streamId b).2.inner.Tracking := by
  have hframe := place_frame d streamId b
  have hgap := gapHandler_place (d := d) streamId b
  have harbiter := arbiter_place (d := d) streamId b
  refine ⟨wellPlaced_place h.placed streamId b, ?_, ?_, ?_, ?_, ?_⟩
  · exact hgap ▸ h.gaps
  · exact hframe.nextUnseen ▸ h.small
  · rw [hgap, hframe.nextUnseen]
    exact h.tracked
  · rw [hgap, hframe.nextUnseen, harbiter]
    exact h.arbiter
  · rw [hgap, hframe.seqAnchored, harbiter]
    exact h.blank

/-- A block forwarded without the arbiter or by it is marked received; a dropped one
changes the arbiter's counters at most. -/
theorem tracking_decodeBlock (h : d.inner.Tracking) (hanchored : d.inner.seqAnchored = true)
    (streamId : UInt8) (now : Option Instant) {b : Block}
    (hb : Below b.seq d.inner.nextUnseen) :
    (decodeBlock streamId now b d).2.inner.Tracking := by
  have hblank : ∀ {P : Prop}, d.inner.seqAnchored = false → P := fun hfalse ↦ by
    rw [hanchored] at hfalse
    cases hfalse
  have hsmall := h.small
  have hseq := hb.lt hsmall
  obtain ⟨hwf, hiff⟩ := GapRequestHandler.markReceived_spec h.gaps b.seq
  have htracked : ∀ s, (d.inner.gapHandler.markReceived b.seq).Tracks s →
      s < d.inner.nextUnseen := fun s hs ↦ h.tracked s ((hiff s).mp hs).1
  rcases decodeBlock_cases streamId now b d hseq h.lt_len with
    ⟨-, hdecode⟩ | ⟨a, a', t, harbiter, -, -, hforward, hdecode⟩ |
    ⟨a, a', t, harbiter, -, -, hunmoved, hdecode⟩
  · rw [hdecode]
    refine tracking_place (d := d.unarbitrated b) ?_ streamId b
    refine ⟨h.placed, hwf, hsmall, htracked, fun a ha ↦ ?_, fun hfalse ↦ hblank hfalse⟩
    exact (h.arbiter a ha).of_tracks fun s hs ↦ Or.inl ((hiff s).mp hs).1
  · rw [hdecode]
    refine tracking_place (d := d.forwarded a' b) ?_ streamId b
    refine ⟨h.placed, hwf, hsmall, htracked, ?_, fun hfalse ↦ hblank hfalse⟩
    rintro _ ⟨⟩
    exact (h.arbiter a harbiter).forwarded hforward hb hsmall fun s ↦ (hiff s).mp
  · rw [hdecode]
    refine ⟨h.placed, h.gaps, hsmall, h.tracked, ?_, fun hfalse ↦ hblank hfalse⟩
    rintro _ ⟨⟩
    exact (h.arbiter a harbiter).unmoved hunmoved

theorem tracking_decodeBlocks (streamId : UInt8) (now : Option Instant) {todo : List Block} :
    ∀ {d : Decoding F}, d.inner.Tracking → d.inner.seqAnchored = true →
      (∀ b ∈ todo, Below b.seq d.inner.nextUnseen) →
      (decodeBlocks streamId now todo d).2.inner.Tracking := by
  induction todo with
  | nil => exact fun h _ _ ↦ h
  | cons b todo ih =>
      intro d h hanchored htodo
      have hstep := tracking_decodeBlock h hanchored streamId now (htodo b List.mem_cons_self)
      have hframe := decodeBlock_frame streamId now b d
      unfold decodeBlocks
      generalize decodeBlock streamId now b d = decoded at hstep hframe ⊢
      obtain ⟨_ | _, d'⟩ := decoded
      · exact hstep
      · refine ih hstep (hframe.seqAnchored.trans hanchored) fun b' hb' ↦ ?_
        rw [hframe.nextUnseen]
        exact htodo b' (List.mem_cons_of_mem b hb')

end Decoding

/-! ## One decode step -/

/-- The mark is raised past every number of the datagram, as far as it can go. -/
theorem below_of_mem_blocks {header : DownstreamHeader} {datagram : List UInt8}
    {blocks : List Block} {unseen : ℕ} (hparse : parseHeader datagram = .ok header)
    (h : numberBlocks header.sequence (header.blocks datagram) = (blocks, .ok ()))
    (hsmall : unseen < 2 ^ 64) {b : Block} (hb : b ∈ blocks) :
    Below b.seq (max unseen (saturatingAdd header.sequence header.messageCount)) := by
  obtain ⟨hlen, hget⟩ := numberBlocks_blocks hparse h
  obtain ⟨k, hk⟩ := List.mem_iff_getElem?.mp hb
  have hlt : k < blocks.length := (List.getElem?_eq_some_iff.mp hk).1
  have hseq := (hget k b hk).1
  have hsequence := parseHeader_sequence_lt hparse
  have hcount := parseHeader_messageCount_lt hparse
  rw [wrappingAdd] at hseq
  unfold Below saturatingAdd
  rw [max64]
  omega

namespace Inner

variable {i i' : Inner F}

theorem Tracking.enterLoop (h : i.Tracking) {header : DownstreamHeader} (datagram : Held F)
    (now : Option Instant) (hsequence : header.sequence < 2 ^ 64)
    (hanchored : i.seqAnchored = true) : (i.enterLoop header datagram now).inner.Tracking := by
  have hsmall := h.small
  have hsat : header.sequence ≤ saturatingAdd header.sequence header.messageCount := by
    unfold saturatingAdd
    rw [max64]
    omega
  have hraised : max i.nextUnseen (saturatingAdd header.sequence header.messageCount) < 2 ^ 64 := by
    have := saturatingAdd_le header.sequence header.messageCount
    rw [max64] at this
    omega
  have hle' := hsat.trans (le_max_right i.nextUnseen _)
  unfold Inner.enterLoop
  rcases i.noteJump_cases header.sequence now with
    ⟨-, hjump⟩ | ⟨-, a, t, harbiter, -, hjump⟩ | ⟨-, -, hjump⟩
  · rw [hjump]
    exact h.raise (le_max_left _ _) hraised
  · rw [hjump]
    refine ⟨h.placed, h.gaps, hraised, fun s hs ↦ (h.tracked s hs).trans_le (le_max_left _ _), ?_,
      fun hfalse ↦ ?_⟩
    · rintro _ ⟨⟩
      exact (h.arbiter a harbiter).noteMissingRange hsequence (le_max_left _ _) hle' t
    · change i.seqAnchored = false at hfalse
      rw [hanchored] at hfalse
      cases hfalse
  · rw [hjump]
    exact h.record hsequence rfl rfl (le_max_left _ _) hle' hraised rfl hanchored

variable [AsRef F]

theorem Tracking.decodeData (h : i.Tracking) (streamId : UInt8) {datagram : Held F}
    {header : DownstreamHeader} (now : Option Instant)
    (hparse : parseHeader datagram.asRef = .ok header) (hanchored : i.seqAnchored = true) :
    (i.decodeData streamId datagram header now).2.Tracking := by
  rcases i.decodeData_cases streamId datagram header now with
    ⟨blocks, e, -, hdecode⟩ | ⟨blocks, hnumber, hloop⟩
  · rw [hdecode]
    exact h.congr rfl rfl rfl rfl rfl
  have hblocks : ({ i with blocks := blocks } : Inner F).Tracking := h.congr rfl rfl rfl rfl rfl
  have hend := Decoding.tracking_decodeBlocks streamId now
    (hblocks.enterLoop datagram now (parseHeader_sequence_lt hparse) hanchored)
    ((noteJump_frame { i with blocks := blocks } header.sequence now).seqAnchored.trans hanchored)
    fun b hb ↦ below_of_mem_blocks hparse hnumber h.small hb
  rcases hloop with ⟨e, d, hloop, hdecode⟩ | ⟨d, hloop, hdecode⟩
  · rw [hloop] at hend
    rw [hdecode]
    exact hend
  · rw [hloop] at hend
    rw [hdecode]
    dsimp only at hend ⊢
    unfold Decoding.install
    split
    · exact hend.congr rfl rfl rfl rfl rfl
    · exact hend

theorem Processed.tracking {now : Option Instant} {r : Except MoldUdpError Unit}
    (h : i.Processed now r i') (htracking : i.Tracking) : i'.Tracking := by
  cases h with
  | idle => exact htracking
  | unparsed => exact htracking.congr rfl rfl rfl rfl rfl
  | mismatch => exact htracking.congr rfl rfl rfl rfl rfl
  | @control _ _ rest header ev _ hparse =>
      have hsequence := parseHeader_sequence_lt hparse
      exact ((htracking.accepted rest hsequence).noteTailGap hsequence
        (i.accepted_session rest header).2).congr rfl rfl rfl rfl rfl
  | @data streamId _ rest header _ hparse =>
      exact (htracking.accepted rest (parseHeader_sequence_lt hparse)).decodeData streamId now
        hparse (i.accepted_session rest header).2

theorem Tracking.decodeNext (h : i.Tracking) (now : Instant) : (i.decodeNext now).2.Tracking := by
  have htracking := (i.processNextPending_processed (i.clock now)).tracking h
  unfold Inner.decodeNext
  generalize i.processNextPending (i.clock now) = processed at htracking ⊢
  obtain ⟨_ | _, i₁⟩ := processed
  · exact htracking
  · dsimp only
    split
    · exact htracking.drainConfirmedGaps now
    · exact htracking

end Inner

namespace Inner

variable [AsRef F]

theorem isSome_arbiter_decodeData (i : Inner F) (streamId : UInt8) (datagram : Held F)
    (header : DownstreamHeader) (now : Option Instant) :
    (i.decodeData streamId datagram header now).2.arbiter.isSome = i.arbiter.isSome := by
  rcases i.decodeData_cases streamId datagram header now with
    ⟨blocks, e, -, hdecode⟩ | ⟨blocks, -, ⟨e, d, hloop, hdecode⟩ | ⟨d, hloop, hdecode⟩⟩
  · rw [hdecode]
  all_goals
    have hend := Decoding.isSome_arbiter_decodeBlocks streamId now blocks
      (enterLoop { i with blocks := blocks } header datagram now)
    have henter : (enterLoop { i with blocks := blocks } header datagram now).inner.arbiter.isSome =
      i.arbiter.isSome := isSome_arbiter_noteJump { i with blocks := blocks } header.sequence now
    rw [hloop] at hend
    rw [hdecode]
  · exact hend.trans henter
  · refine Eq.trans ?_ (hend.trans henter)
    unfold Decoding.install
    dsimp only
    split <;> rfl

theorem Processed.isSome_arbiter {i i' : Inner F} {now : Option Instant}
    {r : Except MoldUdpError Unit} (h : i.Processed now r i') :
    i'.arbiter.isSome = i.arbiter.isSome := by
  have haccepted := i.isSome_arbiter_accepted
  cases h with
  | idle => rfl
  | unparsed => rfl
  | mismatch => rfl
  | @control _ _ rest header =>
      refine Eq.trans ?_ (haccepted rest header)
      unfold pushEvent noteTailGap
      dsimp only
      split <;> rfl
  | @data streamId datagram rest header =>
      exact (isSome_arbiter_decodeData _ streamId datagram header _).trans (haccepted rest header)

/-- Whether there is an arbiter never changes. -/
theorem isSome_arbiter_decodeNext (i : Inner F) (now : Instant) :
    (i.decodeNext now).2.arbiter.isSome = i.arbiter.isSome := by
  have hprocessed := (i.processNextPending_processed (i.clock now)).isSome_arbiter
  unfold decodeNext
  generalize i.processNextPending (i.clock now) = processed at hprocessed ⊢
  obtain ⟨_ | _, i₁⟩ := processed
  · exact hprocessed
  · dsimp only at hprocessed ⊢
    split
    · refine Eq.trans ?_ hprocessed
      unfold drainConfirmedGaps
      split
      · rfl
      · next harbiter => rw [harbiter]; rfl
    · exact hprocessed

end Inner

/-! ## Whole runs -/

theorem Inner.tracking_fresh (cfg : MoldUdpReceiverConfig) (legs : List Leg) :
    (Inner.fresh cfg legs : Inner F).Tracking := by
  have hnone : ∀ s, ¬ (Inner.fresh cfg legs : Inner F).gapHandler.Tracks s :=
    GapRequestHandler.not_tracks_new
  have hbase : ((cfg.startSequence.map UInt64.toNat).getD 0) < 2 ^ 64 := by
    cases cfg.startSequence with
    | none => norm_num
    | some start => exact start.toNat_lt
  refine ⟨wellPlaced_fresh cfg legs, GapRequestHandler.wellFormed_new,
    expectedNext_fresh_lt cfg legs, fun s hs ↦ (hnone s hs).elim, fun a ha ↦ ?_,
    fun _ s ↦ ⟨hnone s, fun a ha ↦ (arbiter_fresh cfg legs ha).2.2.2 s⟩⟩
  obtain ⟨hlen, hstart, hseen, hpending⟩ := arbiter_fresh cfg legs ha
  exact ⟨hlen, hstart ▸ hbase, fun s hs ↦ (hseen s hs).elim, fun s hs ↦ (hseen s hs).elim,
    fun s hs ↦ (hseen s hs).elim, fun s hs ↦ (hpending s hs).elim⟩

variable [AsRef F]

theorem Inner.Tracking.next {s t : Session F} {e : Event F} (h : s.inner.Tracking)
    (hstep : s.next e = some t) : t.inner.Tracking := by
  have hstep' := Session.step_of_next hstep
  by_cases hdecode : ∀ now, e ≠ .decode now
  · obtain ⟨hsame, -⟩ := hstep'.sameTracking hdecode
    exact h.congr hsame.reassembler hsame.gapHandler hsame.nextUnseen hsame.arbiter
      hsame.seqAnchored
  · cases hstep' with
    | decode now => exact h.decodeNext now
    | _ => exact (hdecode fun now ↦ by simp).elim

/-- There is an arbiter exactly with several legs. -/
theorem isSome_arbiter_of_run {allowed : Session F → Event F → Prop}
    {cfg : MoldUdpReceiverConfig} {legs : List Leg} {inner : Inner F} {s : Session F}
    (hnew : fromLegs cfg legs = .ok inner)
    (hrun : (machine F).Run allowed (Session.start inner) s) :
    s.inner.arbiter.isSome = decide (1 < legs.length) := by
  obtain rfl := fromLegs_ok hnew
  refine hrun.invariant (I := fun s ↦ s.inner.arbiter.isSome = decide (1 < legs.length)) ?_ ?_
  · unfold Session.start Inner.fresh
    cases cfg.startSequence <;> by_cases hlegs : 1 < legs.length <;> simp [hlegs]
  · intro s e t h _ hstep
    have hstep' := Session.step_of_next hstep
    by_cases hdecode : ∀ now, e ≠ .decode now
    · rw [(hstep'.sameTracking hdecode).1.arbiter]
      exact h
    · cases hstep' with
      | decode now => exact (s.inner.isSome_arbiter_decodeNext now).trans h
      | _ => exact (hdecode fun now ↦ by simp).elim

/-- The tracking state is sound in every reachable state. -/
theorem tracking_of_run {allowed : Session F → Event F → Prop} {cfg : MoldUdpReceiverConfig}
    {legs : List Leg} {inner : Inner F} {s : Session F} (hnew : fromLegs cfg legs = .ok inner)
    (hrun : (machine F).Run allowed (Session.start inner) s) : s.inner.Tracking := by
  obtain rfl := fromLegs_ok hnew
  exact hrun.invariant (I := fun s ↦ s.inner.Tracking) (Inner.tracking_fresh cfg legs)
    fun _ _ _ h _ hstep ↦ h.next hstep

end MoldUdp
