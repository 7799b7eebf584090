import PolarisTrade.MoldUdp.Accounting

/-!
# Losing and recovering messages

A block is marked received before it is placed, so an insert that is then refused leaves
its number neither held nor missing.  And a gap is filled by a retransmission only while
the arbiter lets that number through.
-/

namespace MoldUdp

open Transport Word

variable {F : Type}

/-- From `expected_next` up to `next_unseen` every number is held, tracked or staged. -/
def Inner.NothingLost (i : Inner F) : Prop :=
  ∀ n, i.reassembler.expectedNext ≤ n → n < i.nextUnseen →
    i.reassembler.Holds n ∨ i.gapHandler.Tracks n ∨ i.Staged n

theorem Inner.Accounts.nothingLost {i : Inner F} (h : i.Accounts fun _ ↦ False) :
    i.NothingLost := by
  intro n hlo hhi
  rcases h.cover n hhi with (hlt | hheld) | hmissing | hfalse
  · omega
  · exact Or.inl ((SequenceReassembler.holds_iff h.ring.placed).mpr hheld)
  · exact Or.inr hmissing
  · exact hfalse.elim

/-! ## A refused insert -/

namespace Decoding

variable {d d' : Decoding F} {streamId : UInt8} {now : Option Instant} {b : Block}
  {e : MoldUdpError}

/-- What a refused insert leaves: the ring as it was, without the number, which was marked
received; other missing numbers are still missing. -/
theorem decodeBlock_refused (h : decodeBlock streamId now b d = (.error e, d'))
    (htracking : d.inner.Tracking) (hseq : b.seq < 2 ^ 64)
    (hnow : d.inner.arbiter.isSome → now.isSome) :
    d'.inner.reassembler = d.inner.reassembler ∧ d'.inner.nextUnseen = d.inner.nextUnseen ∧
      d.inner.reassembler.expectedNext < b.seq ∧ d.inner.reassembler.lookup b.seq = none ∧
      ¬ d'.inner.Missing b.seq ∧ ∀ s, s ≠ b.seq → d.inner.Missing s → d'.inner.Missing s := by
  obtain ⟨-, htracks⟩ := GapRequestHandler.markReceived_spec htracking.gaps b.seq
  rcases decodeBlock_cases streamId now b d hseq htracking.lt_len with
    ⟨hnone, hdecode⟩ | ⟨a, a', t, harbiter, -, -, hforward, hdecode⟩ |
    ⟨a, a', t, -, -, -, -, hdecode⟩
  · have hnone : d.inner.arbiter = none := by
      rcases hnone with hnone | rfl
      · exact hnone
      · by_contra hsome
        exact absurd (hnow (Option.isSome_iff_ne_none.mpr hsome)) (by simp)
    rw [hdecode] at h
    obtain ⟨hlt, -, -, hinner, hheld⟩ := place_error h
    rw [hinner]
    refine ⟨rfl, rfl, hlt, hheld, ?_, ?_⟩
    · rintro (htracked | ⟨a, ha, -⟩)
      · exact ((htracks _).mp htracked).2 rfl
      · exact absurd ha (by simp [unarbitrated, Inner.markReceived, hnone])
    · rintro s hne (htracked | ⟨a, ha, -⟩)
      · exact Or.inl ((htracks s).mpr ⟨htracked, hne⟩)
      · exact absurd ha (by simp [hnone])
  · rw [hdecode] at h
    obtain ⟨hlt, -, -, hinner, hheld⟩ := place_error h
    rw [hinner]
    refine ⟨rfl, rfl, hlt, hheld, ?_, ?_⟩
    · rintro (htracked | ⟨c, hc, hstaged⟩)
      · exact ((htracks _).mp htracked).2 rfl
      · obtain rfl := Option.some.inj hc
        exact ((hforward.pending _).mp hstaged).2 rfl
    · rintro s hne (htracked | ⟨c, hc, hstaged⟩)
      · exact Or.inl ((htracks s).mpr ⟨htracked, hne⟩)
      · rw [harbiter] at hc
        obtain rfl := Option.some.inj hc
        exact Or.inr ⟨a', rfl, (hforward.pending s).mpr ⟨Or.inl hstaged, hne⟩⟩
  · rw [hdecode] at h
    cases h

end Decoding

section Refused

variable [AsRef F]

/-- Decoding the next datagram stops at its block number `n`, whose insert is refused. -/
def Inner.Refuses (i : Inner F) (now : Instant) (n : ℕ) : Prop :=
  ∃ streamId datagram rest header before b after d d' e,
    i.pendingDatagrams = (streamId, datagram) :: rest ∧
    parseHeader datagram.asRef = .ok header ∧
    numberBlocks header.sequence (header.blocks datagram.asRef) = (before ++ b :: after, .ok ()) ∧
    Decoding.decodeBlocks streamId (i.clock now) before
      (Inner.enterLoop { i.accepted rest header with blocks := before ++ b :: after } header
        datagram (i.clock now)) = (.ok (), d) ∧
    Decoding.decodeBlock streamId (i.clock now) b d = (.error e, d') ∧
    (i.decodeNext now).2 = d'.inner ∧ b.seq = n

/-- A full buffer is always reported for one number of the datagram being decoded. -/
theorem Inner.exists_refuses {i : Inner F} {now : Instant} {capacity : ℕ}
    (hfull : (i.decodeNext now).1 = .error (.reassemblyBufferFull capacity)) :
    ∃ n, i.Refuses now n := by
  have hprocessed := i.processNextPending_processed (i.clock now)
  have herror : (i.processNextPending (i.clock now)).1 = .error (.reassemblyBufferFull capacity) ∧
      (i.decodeNext now).2 = (i.processNextPending (i.clock now)).2 := by
    unfold Inner.decodeNext at hfull ⊢
    generalize i.processNextPending (i.clock now) = processed at hfull ⊢
    obtain ⟨e | _, i'⟩ := processed
    · exact ⟨hfull, rfl⟩
    · cases hfull
  obtain ⟨hresult, hstate⟩ := herror
  unfold Inner.Refuses
  rw [hstate]
  generalize (i.processNextPending (i.clock now)).1 = r at hprocessed hresult
  generalize (i.processNextPending (i.clock now)).2 = i' at hprocessed
  cases hprocessed with
  | idle => cases hresult
  | unparsed e _ hparse =>
      obtain rfl := Except.error.inj hresult
      rcases parseHeader_error hparse with h | h <;> cases h
  | mismatch => cases hresult
  | control => cases hresult
  | @data streamId datagram rest header hpop hparse =>
      rcases (i.accepted rest header).decodeData_cases streamId datagram header (i.clock now) with
        ⟨blocks, e, hnumber, hdecode⟩ |
        ⟨blocks, hnumber, ⟨e, d', hloop, hdecode⟩ | ⟨d', hloop, hdecode⟩⟩
      · rw [hdecode] at hresult
        obtain rfl := Except.error.inj hresult
        cases MessageBlockIter.error_mem_items (numberBlocks_error hnumber)
      · obtain ⟨before, b, after, d, rfl, hbefore, hstop⟩ :=
          Decoding.decodeBlocks_error_split hloop
        rw [hdecode]
        exact ⟨b.seq, streamId, datagram, rest, header, before, b, after, d, d', e, hpop, hparse,
          hnumber, hbefore, hstop, rfl, rfl⟩
      · rw [hdecode] at hresult
        cases hresult

/-- The state in which the refused block is decoded. -/
theorem Inner.Tracking.loop {i : Inner F} {now : Instant} (h : i.Tracking) {streamId : UInt8}
    {datagram : Held F} {header : DownstreamHeader} (rest : List (UInt8 × Held F))
    {blocks before : List Block} {d : Decoding F}
    (hparse : parseHeader datagram.asRef = .ok header)
    (hnumber : numberBlocks header.sequence (header.blocks datagram.asRef) = (blocks, .ok ()))
    (hsub : ∀ b ∈ before, b ∈ blocks)
    (hbefore : Decoding.decodeBlocks streamId (i.clock now) before
      (Inner.enterLoop { i.accepted rest header with blocks := blocks } header datagram
        (i.clock now)) = (.ok (), d)) :
    d.inner.Tracking ∧ (d.inner.arbiter.isSome → (i.clock now).isSome) ∧
      d.inner.nextUnseen = max (i.accepted rest header).nextUnseen
        (saturatingAdd header.sequence header.messageCount) := by
  have hsequence := parseHeader_sequence_lt hparse
  have hanchored := (i.accepted_session rest header).2
  have haccepted := h.accepted rest hsequence
  have hblocks : ({ i.accepted rest header with blocks := blocks } : Inner F).Tracking :=
    haccepted.congr rfl rfl rfl rfl rfl
  have hjump := Inner.noteJump_frame { i.accepted rest header with blocks := blocks }
    header.sequence (i.clock now)
  have htracking := Decoding.tracking_decodeBlocks streamId (i.clock now)
    (hblocks.enterLoop datagram (i.clock now) hsequence hanchored)
    (hjump.seqAnchored.trans hanchored)
    fun b hb ↦ below_of_mem_blocks hparse hnumber haccepted.small (hsub b hb)
  have hframe := Decoding.decodeBlocks_frame streamId (i.clock now) before
    (Inner.enterLoop { i.accepted rest header with blocks := blocks } header datagram
      (i.clock now))
  have hsome := Decoding.isSome_arbiter_decodeBlocks streamId (i.clock now) before
    (Inner.enterLoop { i.accepted rest header with blocks := blocks } header datagram
      (i.clock now))
  rw [hbefore] at htracking hframe hsome
  refine ⟨htracking, fun harbiter ↦ ?_, hframe.nextUnseen⟩
  have henter := Inner.isSome_arbiter_noteJump { i.accepted rest header with blocks := blocks }
    header.sequence (i.clock now)
  rw [Inner.isSome_clock, ← i.isSome_arbiter_accepted rest header]
  exact henter.symm.trans (hsome.symm.trans harbiter)

/-- The refused number is neither held nor known to be missing. -/
theorem Inner.Tracking.refuses {i : Inner F} {now : Instant} {n : ℕ} (h : i.Tracking)
    (hrefuses : i.Refuses now n) :
    (i.decodeNext now).2.reassembler.expectedNext < n ∧
      ¬ (i.decodeNext now).2.reassembler.Holds n ∧ ¬ (i.decodeNext now).2.Missing n ∧
      (n ≠ max64 → n < (i.decodeNext now).2.nextUnseen) := by
  obtain ⟨streamId, datagram, rest, header, before, b, after, d, d', e, hpop, hparse, hnumber,
    hbefore, hstop, hstate, rfl⟩ := hrefuses
  obtain ⟨htracking, hnow, hunseen⟩ := h.loop rest hparse hnumber
    (fun b' hb' ↦ List.mem_append_left _ hb') hbefore
  have hbelow := below_of_mem_blocks hparse hnumber
    (h.accepted rest (parseHeader_sequence_lt hparse)).small
    (List.mem_append_right before List.mem_cons_self)
  rw [← hunseen] at hbelow
  obtain ⟨hring, hmark, hlt, hnone, hmissing, -⟩ :=
    Decoding.decodeBlock_refused hstop htracking (hbelow.lt htracking.small) hnow
  rw [hstate, hring, hmark, SequenceReassembler.holds_iff htracking.placed, hnone]
  refine ⟨hlt, by simp, hmissing, fun hne ↦ ?_⟩
  rcases hbelow with hlt | ⟨heq, -⟩
  · exact hlt
  · exact (hne heq).elim

/-- The blocks before the last word are numbered without wrapping. -/
theorem seq_of_before_last {header : DownstreamHeader} {datagram : List UInt8}
    {before after : List Block} {b : Block} (hparse : parseHeader datagram = .ok header)
    (hnumber : numberBlocks header.sequence (header.blocks datagram) =
      (before ++ b :: after, .ok ())) (hlast : b.seq = max64) :
    header.sequence + before.length = max64 ∧ before.length < header.messageCount ∧
      ∀ k b', before[k]? = some b' → b'.seq = header.sequence + k := by
  obtain ⟨hlen, hget⟩ := numberBlocks_blocks hparse hnumber
  have hsequence := parseHeader_sequence_lt hparse
  have hcount := parseHeader_messageCount_lt hparse
  rw [List.length_append, List.length_cons] at hlen
  have hb := (hget before.length b (by simp)).1
  rw [hlast, wrappingAdd, max64] at hb
  rw [max64]
  refine ⟨by omega, by omega, fun k b' hk ↦ ?_⟩
  have hlt : k < before.length := (List.getElem?_eq_some_iff.mp hk).1
  have hseq := (hget k b' (by rw [List.getElem?_append_left hlt]; exact hk)).1
  rw [hseq, wrappingAdd_of_lt (by omega)]

/-- If the last word is refused, everything below it is still accounted for. -/
theorem Inner.Ledger.refuses_last {i : Inner F} {now : Instant} (h : i.Ledger)
    (htracking : i.Tracking) (hrefuses : i.Refuses now max64) :
    (i.decodeNext now).2.NothingLost := by
  obtain ⟨streamId, datagram, rest, header, before, b, after, d, d', e, hpop, hparse, hnumber,
    hbefore, hstop, hstate, hlast⟩ := hrefuses
  have hsequence := parseHeader_sequence_lt hparse
  have hanchored := (i.accepted_session rest header).2
  have haccepted := htracking.accepted rest hsequence
  obtain ⟨hend, hcount, hseq⟩ := seq_of_before_last hparse hnumber hlast
  obtain ⟨htracking₁, hnow, hunseen⟩ := htracking.loop rest hparse hnumber
    (fun b' hb' ↦ List.mem_append_left _ hb') hbefore
  set i₁ : Inner F := { i.accepted rest header with blocks := before ++ b :: after } with hi₁
  have hsat : saturatingAdd header.sequence header.messageCount = max64 := by
    unfold saturatingAdd
    omega
  have hjump := Inner.noteJump_frame i₁ header.sequence (i.clock now)
  have hown : ∀ n, header.sequence ≤ n →
      n < saturatingAdd header.sequence header.messageCount → ∃ b' ∈ before, b'.seq = n := by
    intro n hlo hhi
    rw [hsat] at hhi
    have hlt : n - header.sequence < before.length := by omega
    refine ⟨_, List.getElem_mem hlt, ?_⟩
    rw [hseq _ _ (List.getElem?_eq_getElem hlt)]
    omega
  have htracking₀ : i₁.Tracking := haccepted.congr rfl rfl rfl rfl rfl
  have haccounts₀ : i₁.Accounts fun _ ↦ False :=
    (h.accepted htracking rest header).congr rfl rfl rfl rfl
  have haccounts := Decoding.accounts_decodeBlocks streamId
    (haccounts₀.enterLoop htracking₀ datagram (i.clock now) hsequence hown)
    (htracking₀.enterLoop datagram (i.clock now) hsequence hanchored)
    (hjump.seqAnchored.trans hanchored) ?_ ?_ (by rw [hbefore])
  · rw [hbefore] at haccounts
    obtain ⟨hring, hmark, -, -, -, hkept⟩ := Decoding.decodeBlock_refused hstop htracking₁
      (by rw [hlast, max64]; norm_num) hnow
    have hsmall := htracking₁.small
    rw [hstate]
    intro n hlo hhi
    rw [hring] at hlo ⊢
    rw [hmark] at hhi
    have hne : n ≠ b.seq := by
      rw [hlast, max64]
      omega
    rcases haccounts.nothingLost n hlo hhi with hheld | hmissing
    · exact Or.inl hheld
    · exact Or.inr (hkept n hne hmissing)
  · intro hsome
    rw [Inner.isSome_clock, ← i.isSome_arbiter_accepted rest header]
    exact (Inner.isSome_arbiter_noteJump i₁ header.sequence (i.clock now)).symm.trans hsome
  · intro b' hb'
    obtain ⟨k, hk⟩ := List.mem_iff_getElem?.mp hb'
    have hlt : k < before.length := (List.getElem?_eq_some_iff.mp hk).1
    have := hseq k b' hk
    refine lt_max_of_lt_right ?_
    rw [hsat]
    omega

/-- A refused message is lost.  Whenever decoding reports a full buffer, the number it
stopped at lies between `expected_next` and `next_unseen` and is neither held, tracked nor
staged; only the last word, which `next_unseen` never passes, escapes this. -/
theorem refused_message_lost {cfg : MoldUdpReceiverConfig} {legs : List Leg} {inner : Inner F}
    {s : Session F} {now : Instant} {capacity : ℕ} (hnew : fromLegs cfg legs = .ok inner)
    (hrun : Session.Reaches (Session.start inner) s)
    (hfull : (s.inner.decodeNext now).1 = .error (.reassemblyBufferFull capacity)) :
    ∃ n, s.inner.Refuses now n ∧
      ((s.inner.decodeNext now).2.NothingLost → n = max64) ∧
      ((machine F).Run Session.Accountable (Session.start inner) s →
        ((s.inner.decodeNext now).2.NothingLost ↔ n = max64)) := by
  obtain ⟨n, hrefuses⟩ := Inner.exists_refuses hfull
  have htracking := tracking_of_run hnew hrun
  obtain ⟨hlt, hheld, hmissing, hbelow⟩ := htracking.refuses hrefuses
  have hlost : (s.inner.decodeNext now).2.NothingLost → n = max64 := by
    intro hnothing
    by_contra hne
    rcases hnothing n hlt.le (hbelow hne) with h | h
    · exact hheld h
    · exact hmissing h
  refine ⟨n, hrefuses, hlost, fun haccountable ↦ ⟨hlost, ?_⟩⟩
  rintro rfl
  exact (ledger_of_run hnew haccountable).refuses_last htracking hrefuses

/-- 4098 is buffered in slot 2 of the ring, then 2 arrives and finds its slot taken. -/
def sampleRefused : List (Event (List UInt8)) :=
  [.land [(0, .frame (moldPacket sampleSession 4098 [7])),
      (0, .frame (moldPacket sampleSession 2 [2]))] [],
    .decode 0, .yieldItem, .retire]

theorem refused_message_lost_two :
    ∃ s : Session (List UInt8),
      Machine.follow Session.next (Session.start sampleOneLeg) sampleRefused = some s ∧
      ∃ n, s.inner.Refuses 0 n ∧ ((s.inner.decodeNext 0).2.NothingLost ↔ n = max64) := by
  have hend : ∃ s ∈ Machine.follow Session.next (Session.start sampleOneLeg) sampleRefused,
      (s.inner.decodeNext 0).1 = .error (.reassemblyBufferFull 4096) := by decide +kernel
  obtain ⟨s, hs, hfull⟩ := hend
  have hallowed : Machine.AllowedAlong Session.next Session.Accountable
      (Session.start sampleOneLeg) sampleRefused := by decide +kernel
  have hrun := Machine.Run.of_follow hallowed hs
  obtain ⟨n, hrefuses, -, hiff⟩ := @refused_message_lost _ _ { startSequence := some 1 }
    [⟨minLegPoolCapacity⟩] _ _ _ _ rfl (hrun.mono fun _ _ _ ↦ trivial) hfull
  exact ⟨s, hs, n, hrefuses, hiff hrun⟩

/-- After the error 2 is neither held nor requested, while 1 is still expected. -/
theorem refused_two_not_accounted :
    ∃ s : Session (List UInt8), Session.Reaches (Session.start sampleOneLeg) s ∧
      (s.inner.decodeNext 0).1 = .error (.reassemblyBufferFull 4096) ∧
      ¬ (s.inner.decodeNext 0).2.NothingLost := by
  have hend : ∃ s ∈ Machine.follow Session.next (Session.start sampleOneLeg) sampleRefused,
      (s.inner.decodeNext 0).1 = .error (.reassemblyBufferFull 4096) ∧
      (s.inner.decodeNext 0).2.reassembler.expectedNext = 1 ∧
      (s.inner.decodeNext 0).2.nextUnseen = 4099 ∧
      ¬ ((s.inner.decodeNext 0).2.reassembler.lookup 2).isSome ∧
      ¬ (s.inner.decodeNext 0).2.gapHandler.Tracks 2 ∧
      (s.inner.decodeNext 0).2.arbiter = none := by decide +kernel
  obtain ⟨s, hs, hfull, hexp, hunseen, hheld, htracks, hnone⟩ := hend
  have hrun : Session.Reaches (Session.start sampleOneLeg) s :=
    Machine.Run.of_follow (Machine.allowedAlong_of_forall (fun _ _ ↦ trivial) _ _) hs
  have htracking := @tracking_of_run _ _ _ { startSequence := some 1 } [⟨minLegPoolCapacity⟩] _ _
    rfl hrun
  refine ⟨s, hrun, hfull, fun h ↦ ?_⟩
  rcases h 2 (by omega) (by omega) with hholds | htracked | ⟨a, ha, -⟩
  · exact hheld ((SequenceReassembler.holds_iff (htracking.decodeNext 0).placed).mp hholds)
  · exact htracks htracked
  · rw [hnone] at ha
    cases ha

end Refused

/-! ## Filling a gap -/

namespace Decoding

variable {d : Decoding F} {streamId : UInt8} {t : Instant} {b : Block} {a : AbArbiter}

/-- A block at `expected_next` that is tracked as missing: queued and no longer missing if
the arbiter takes it, still tracked otherwise. -/
theorem decodeBlock_tracked (htracking : d.inner.Tracking) (harbiter : d.inner.arbiter = some a)
    (hb : b.seq = d.inner.reassembler.expectedNext) (htracks : d.inner.gapHandler.Tracks b.seq) :
    ∃ d', decodeBlock streamId (some t) b d = (.ok (), d') ∧
      ((a.Takes b.seq ∧ ¬ d'.inner.Missing b.seq ∧ b.seq ∈ numbers d'.inner.ready) ∨
        (¬ a.Takes b.seq ∧ d'.inner.gapHandler.Tracks b.seq)) := by
  have hseq : b.seq < 2 ^ 64 := (htracking.tracked _ htracks).trans htracking.small
  rcases decodeBlock_cases streamId (some t) b d hseq htracking.lt_len with
    ⟨hnone | hnone, -⟩ | ⟨c, a', -, hc, -, htakes, hforward, hdecode⟩ |
    ⟨c, a', -, hc, -, hdrops, -, hdecode⟩
  · rw [harbiter] at hnone
    cases hnone
  · cases hnone
  · rw [harbiter] at hc
    obtain rfl := Option.some.inj hc
    have hplace : (d.forwarded a' b).place streamId b =
        (.ok (), (d.forwarded a' b).deliver streamId b) := by
      have heq : compare b.seq (d.forwarded a' b).inner.reassembler.expectedNext = .eq :=
        compare_eq_iff_eq.mpr hb
      unfold place
      rw [heq]
    refine ⟨_, hdecode.trans hplace, Or.inl ⟨htakes, ?_, ?_⟩⟩
    · rintro (htracked | ⟨_, ⟨⟩, hstaged⟩)
      · obtain ⟨-, hiff⟩ := GapRequestHandler.markReceived_spec htracking.gaps b.seq
        exact ((hiff _).mp htracked).2 rfl
      · exact ((hforward.pending _).mp hstaged).2 rfl
    · simp [deliver]
  · rw [harbiter] at hc
    obtain rfl := Option.some.inj hc
    exact ⟨_, hdecode, Or.inr ⟨hdrops, htracks⟩⟩

end Decoding

theorem Inner.Tracking.anchored {i : Inner F} {n : ℕ} (h : i.Tracking)
    (htracks : i.gapHandler.Tracks n) : i.seqAnchored = true := by
  by_contra hblank
  exact (h.blank (Bool.eq_false_of_not_eq_true hblank) n).1 htracks

/-- A tracked number is taken exactly while the window has not passed it or it is staged. -/
theorem AbArbiter.Watches.takes_iff {a : AbArbiter} {g : GapRequestHandler} {unseen n : ℕ}
    (h : a.Watches g unseen) (htracks : g.Tracks n) :
    a.Takes n ↔ a.windowBase ≤ n ∨ n ∈ a.pendingGapConfirms := by
  have hunseen : ¬ a.Seen n := fun hseen ↦ h.untracked n hseen htracks
  unfold AbArbiter.Takes
  constructor
  · rintro (⟨-, hstaged⟩ | ⟨hle, -⟩)
    · exact Or.inr hstaged
    · exact Or.inl hle
  · intro hor
    by_cases hle : a.windowBase ≤ n
    · exact Or.inr ⟨hle, hunseen⟩
    · exact Or.inl ⟨Nat.lt_of_not_le hle, hor.resolve_left hle⟩

section Fillable

variable [AsRef F]

/-- The datagram to be decoded next is a well-formed one of the locked session whose only
message is number `n`. -/
def Inner.Retransmits (i : Inner F) (n : ℕ) : Prop :=
  ∃ p ∈ i.pendingDatagrams.head?, ∃ header, parseHeader p.2.asRef = .ok header ∧
    i.session = some header.session ∧ header.sequence = n ∧ header.messageCount = 1 ∧
    ∀ block ∈ header.blocks p.2.asRef, block.isOk = true

instance (i : Inner F) (n : ℕ) : Decidable (i.Retransmits n) :=
  inferInstanceAs (Decidable (∃ p ∈ i.pendingDatagrams.head?, _))

/-- The block loop over the only block of a retransmitted datagram. -/
theorem Inner.Tracking.decodeData_retransmits {i : Inner F} {a : AbArbiter} {t : Instant}
    {datagram : Held F} {header : DownstreamHeader} (streamId : UInt8) (h : i.Tracking)
    (harbiter : i.arbiter = some a) (hparse : parseHeader datagram.asRef = .ok header)
    (hsequence : header.sequence = i.reassembler.expectedNext)
    (htracks : i.gapHandler.Tracks header.sequence) (hcount : header.messageCount = 1)
    (hwhole : ∀ block ∈ header.blocks datagram.asRef, block.isOk = true) :
    ∃ i', i.decodeData streamId datagram header (some t) = (.ok (), i') ∧
      ((a.Takes header.sequence ∧ ¬ i'.Missing header.sequence ∧
          header.sequence ∈ numbers i'.ready) ∨
        (¬ a.Takes header.sequence ∧ i'.gapHandler.Tracks header.sequence)) := by
  have hlt := parseHeader_sequence_lt hparse
  have hanchored := h.anchored htracks
  rcases i.decodeData_cases streamId datagram header (some t) with
    ⟨blocks, e, hnumber, -⟩ | ⟨blocks, hnumber, hloop⟩
  · cases hwhole _ (numberBlocks_error hnumber)
  obtain ⟨hlen, hget⟩ := numberBlocks_blocks hparse hnumber
  obtain ⟨b, rfl⟩ := List.length_eq_one_iff.mp (hlen.trans hcount)
  have hseq : b.seq = header.sequence := (hget 0 b rfl).1.trans (wrappingAdd_of_lt hlt)
  set i₁ : Inner F := { i with blocks := [b] }
  -- a tracked number is below the mark, so the datagram is no jump
  have hjump : i₁.noteJump header.sequence (some t) = i₁ :=
    if_neg (Nat.not_lt.mpr (h.tracked _ htracks).le)
  have henter : (i₁.enterLoop header datagram (some t)).inner.Tracking :=
    (h.congr rfl rfl rfl rfl rfl : i₁.Tracking).enterLoop datagram (some t) hlt hanchored
  obtain ⟨d, hdecode, hend⟩ := @Decoding.decodeBlock_tracked _ _ streamId t b a henter
    (by rw [Inner.enterLoop, hjump]; exact harbiter)
    (by rw [Inner.enterLoop, hjump, hseq]; exact hsequence)
    (by rw [Inner.enterLoop, hjump, hseq]; exact htracks)
  have hblocks : Decoding.decodeBlocks streamId (some t) [b]
      (i₁.enterLoop header datagram (some t)) = (.ok (), d) := by
    simp only [Decoding.decodeBlocks, hdecode]
  rw [hseq] at hend
  rcases hloop with ⟨e, d', hfail, -⟩ | ⟨d', hok, hdata⟩
  · rw [hblocks] at hfail
    cases hfail
  · rw [hblocks] at hok
    cases hok
    refine ⟨_, hdata, ?_⟩
    unfold Decoding.install
    split <;> exact hend

/-- Decoding a retransmission of a number that is tracked as missing at `expected_next`. -/
theorem Inner.Tracking.decodeNext_retransmits {i : Inner F} {a : AbArbiter} {n : ℕ}
    (h : i.Tracking) (harbiter : i.arbiter = some a) (hn : n = i.reassembler.expectedNext)
    (htracks : i.gapHandler.Tracks n) (hretransmits : i.Retransmits n) (now : Instant) :
    (a.Takes n ∧ ¬ (i.decodeNext now).2.Missing n ∧ n ∈ numbers (i.decodeNext now).2.ready) ∨
      (¬ a.Takes n ∧ (i.decodeNext now).2.gapHandler.Tracks n) := by
  obtain ⟨⟨streamId, datagram⟩, hhead, header, hparse, hsession, rfl, hcount, hwhole⟩ :=
    hretransmits
  obtain ⟨rest, hpop⟩ := List.head?_eq_some_iff.mp hhead
  have hclock : i.clock now = some now := by
    rw [Inner.clock, harbiter]
    rfl
  have hkind : header.kind = .data := by
    rw [DownstreamHeader.kind, hcount]
    rfl
  have haccepted : (i.accepted rest header).Tracking :=
    h.accepted rest (parseHeader_sequence_lt hparse)
  obtain ⟨i', hdata, hend⟩ := @Inner.Tracking.decodeData_retransmits _ _
    (i.accepted rest header) a now datagram header streamId haccepted
    (by rw [i.accepted_of_anchored (h.anchored htracks)]; exact harbiter) hparse
    (by rw [i.accepted_of_anchored (h.anchored htracks)]; exact hn)
    (by rw [i.accepted_of_anchored (h.anchored htracks)]; exact htracks) hcount hwhole
  have htracking : i'.Tracking := by
    have := haccepted.decodeData streamId (some now) hparse (i.accepted_session rest header).2
    rw [hdata] at this
    exact this
  have hprocess : i.processNextPending (some now) = (.ok (), i') :=
    (Inner.processNextPending_data (some now) hpop hparse hsession hkind).trans hdata
  have hdecode : (i.decodeNext now).2 = i'.drainConfirmedGaps now := by
    simp only [Inner.decodeNext, hclock, hprocess, Option.isSome_some, if_true]
  obtain ⟨hmissing, hkept⟩ := Inner.drainConfirmedGaps_missing htracking now header.sequence
  rw [hdecode]
  rcases hend with ⟨htakes, hfound, hready⟩ | ⟨hdrops, hstill⟩
  · refine Or.inl ⟨htakes, mt hmissing.mp hfound, ?_⟩
    unfold Inner.drainConfirmedGaps
    split
    · exact hready
    · simp only [numbers_append]
      exact List.mem_append_left _ hready
  · exact Or.inr ⟨hdrops, hkept hstill⟩

/-- A gap at `expected_next` is filled by a retransmission, from whatever stream and at
whatever time, exactly while the arbiter's window has not passed it or it is still a
candidate there. -/
theorem gap_filled_iff {cfg : MoldUdpReceiverConfig} {legs : List Leg} {inner : Inner F}
    {s : Session F} {n : ℕ} (hnew : fromLegs cfg legs = .ok inner)
    (hrun : Session.Reaches (Session.start inner) s) (hlegs : 2 ≤ legs.length)
    (hn : n = s.inner.reassembler.expectedNext) (htracks : s.inner.gapHandler.Tracks n)
    (hretransmits : s.inner.Retransmits n) (now : Instant) :
    (¬ (s.inner.decodeNext now).2.gapHandler.Tracks n ∧
        n ∈ numbers (s.inner.decodeNext now).2.ready) ↔
      ∀ a ∈ s.inner.arbiter, a.windowBase ≤ n ∨ n ∈ a.pendingGapConfirms := by
  have htracking := tracking_of_run hnew hrun
  have hsome : s.inner.arbiter.isSome = true :=
    (isSome_arbiter_of_run hnew hrun).trans (decide_eq_true hlegs)
  obtain ⟨a, harbiter⟩ := Option.isSome_iff_exists.mp hsome
  have htakes := (htracking.arbiter a harbiter).takes_iff htracks
  have hall : (∀ a ∈ s.inner.arbiter, a.windowBase ≤ n ∨ n ∈ a.pendingGapConfirms) ↔
      a.Takes n := by
    rw [htakes, harbiter]
    exact ⟨fun h ↦ h a rfl, fun h c hc ↦ Option.some.inj hc ▸ h⟩
  rw [hall]
  rcases htracking.decodeNext_retransmits harbiter hn htracks hretransmits now with
    ⟨htaken, hfound, hready⟩ | ⟨hdropped, hstill⟩
  · exact ⟨fun _ ↦ htaken, fun _ ↦ ⟨fun hstill ↦ hfound (Or.inl hstill), hready⟩⟩
  · exact ⟨fun hfilled ↦ (hfilled.1 hstill).elim, fun htaken ↦ (hdropped htaken).elim⟩

end Fillable

/-- A heartbeat records 1 to 4097 as missing and 4097 arrives, which moves the window past
1 and stages it; a retransmission of 1 is waiting. -/
def sampleStaged : List (Event (List UInt8)) :=
  [.land [(0, .frame (moldHeartbeat sampleSession 4098)),
      (1, .frame (moldPacket sampleSession 4097 [7])),
      (2, .copied (moldPacket sampleSession 1 [1]))] [],
    .decode 0, .yieldItem, .retire, .yieldItem, .retire, .decode 0]

theorem gap_filled_while_staged :
    ∃ s : Session (List UInt8),
      Machine.follow Session.next (Session.start sampleTwoLegs) sampleStaged = some s ∧
      s.inner.gapHandler.Tracks 1 ∧ ¬ (s.inner.decodeNext 0).2.gapHandler.Tracks 1 ∧
      1 ∈ numbers (s.inner.decodeNext 0).2.ready := by
  have hend : ∃ s ∈ Machine.follow Session.next (Session.start sampleTwoLegs) sampleStaged,
      1 = s.inner.reassembler.expectedNext ∧ s.inner.gapHandler.Tracks 1 ∧
      s.inner.Retransmits 1 ∧
      ∀ a ∈ s.inner.arbiter, a.windowBase ≤ 1 ∨ 1 ∈ a.pendingGapConfirms := by decide +kernel
  obtain ⟨s, hs, hn, htracks, hretransmits, hopen⟩ := hend
  have hrun : Session.Reaches (Session.start sampleTwoLegs) s :=
    Machine.Run.of_follow (Machine.allowedAlong_of_forall (fun _ _ ↦ trivial) _ _) hs
  have hiff := @gap_filled_iff _ _ { startSequence := some 1 }
    [⟨minLegPoolCapacity⟩, ⟨minLegPoolCapacity⟩] _ _ _ rfl hrun (by decide) hn htracks
    hretransmits 0
  exact ⟨s, hs, htracks, hiff.mpr hopen⟩

/-- As before, but the candidate is confirmed at a later heartbeat before 1 arrives. -/
def sampleConfirmed : List (Event (List UInt8)) :=
  [.land [(0, .frame (moldHeartbeat sampleSession 4098)),
      (1, .frame (moldPacket sampleSession 4097 [7])),
      (0, .frame (moldHeartbeat sampleSession 4098)),
      (2, .copied (moldPacket sampleSession 1 [1]))] [],
    .decode 0, .yieldItem, .retire, .yieldItem, .retire, .decode 0,
    .decode 10000000, .yieldItem, .retire, .yieldItem, .retire]

/-- Once confirmed, 1 is dropped at every arrival and stays tracked. -/
theorem confirmed_gap_not_filled :
    ∃ s : Session (List UInt8), Session.Reaches (Session.start sampleTwoLegs) s ∧
      s.inner.reassembler.expectedNext = 1 ∧ s.inner.gapHandler.Tracks 1 ∧
      s.inner.Retransmits 1 ∧ s.inner.ready = [] ∧ s.inner.current = none ∧
      (s.inner.decodeNext 10000000).2.gapHandler.Tracks 1 ∧
      1 ∉ numbers (s.inner.decodeNext 10000000).2.ready := by
  exact Machine.Run.exists_of_follow sampleConfirmed (by decide +kernel)

end MoldUdp
