import PolarisTrade.MoldUdp.Calls
import PolarisTrade.MoldUdp.Refusals

/-!
# The confirm window

With several legs a missing number is staged first and becomes a gap once it has waited out
the confirm window.  A candidate keeps the instant it was staged at, and a number whose
message was decoded is settled: it is no candidate and does not become one.  So a promoted
number was noticed a whole window ago and has not been decoded since.  Control packets ahead
of the mark do not go this way.
-/

namespace MoldUdp

open Transport Word

variable {F : Type}

/-! ## Settled numbers -/

namespace AbArbiter

variable {a a' : AbArbiter} {ns : Set ℕ} {s seq : ℕ} {now : Instant}

/-- No candidate, and observing the numbers `ns` will not make it one: the window has passed
it or seen it, or none of them moves the window past it. -/
def Settled (ns : Set ℕ) (a : AbArbiter) (s : ℕ) : Prop :=
  s ∉ a.pendingGapConfirms ∧
    (s < a.windowBase ∨ a.Seen s ∨ ∀ n ∈ ns, n < s + a.windowLen)

theorem Forwarded.settled (h : a.Forwarded a' seq) (hseq : seq ∈ ns) (hs : a.Settled ns s) :
    a'.Settled ns s := by
  have hbase : a.windowBase ≤ a'.windowBase := h.base ▸ le_max_left _ _
  obtain ⟨hpending, hplace⟩ := hs
  constructor
  · intro hmem
    obtain ⟨hold | ⟨hlo, hhi, hunseen⟩, -⟩ := (h.pending s).mp hmem
    · exact hpending hold
    · rcases hplace with hlow | hseen | hshort
      · omega
      · exact hunseen hseen
      · have hlt := hshort seq hseq
        rw [h.base] at hhi
        omega
  · by_cases hlow : s < a'.windowBase
    · exact Or.inl hlow
    · rcases hplace with hlt | hseen | hshort
      · omega
      · exact Or.inr (Or.inl ((h.seen s).mpr (Or.inl ⟨hseen, Nat.le_of_not_lt hlow⟩)))
      · exact Or.inr (Or.inr (h.len ▸ hshort))

/-- A forwarded number is settled. -/
theorem Forwarded.settled_self (h : a.Forwarded a' seq) : a'.Settled ns seq := by
  have hbase : a.windowBase ≤ a'.windowBase := h.base ▸ le_max_left _ _
  refine ⟨fun hmem ↦ ((h.pending seq).mp hmem).2 rfl, ?_⟩
  by_cases hlow : seq < a.windowBase
  · exact Or.inl (hlow.trans_le hbase)
  · exact Or.inr (Or.inl ((h.seen seq).mpr (Or.inr ⟨rfl, Nat.le_of_not_lt hlow⟩)))

theorem Unmoved.settled (h : a.Unmoved a') (hs : a.Settled ns s) : a'.Settled ns s := by
  unfold Settled
  rw [h.pending, h.base, h.seen, h.len]
  exact hs

/-- A number the arbiter drops is settled already. -/
theorem settled_of_not_takes (ha : a.Apart) (h : ¬ a.Takes seq) : a.Settled ns seq := by
  by_cases hlow : seq < a.windowBase
  · exact ⟨fun hmem ↦ h (Or.inl ⟨hlow, hmem⟩), Or.inl hlow⟩
  · have hseen : a.Seen seq := by
      by_contra hunseen
      exact h (Or.inr ⟨Nat.le_of_not_lt hlow, hunseen⟩)
    exact ⟨ha seq hseen, Or.inr (Or.inl hseen)⟩

theorem Settled.confirmedGaps (hs : a.Settled ns s) (now : Instant) :
    (a.confirmedGaps now).2.Settled ns s :=
  ⟨fun hmem ↦ hs.1 (mem_pending_confirmedGaps.mp hmem).1, hs.2⟩

/-! ## Candidates keep their instant -/

/-- `a'` comes after `a` by observing numbers of `ns`: its candidates are candidates of `a` or
were staged at `now`, and numbers below `bound` stay settled. -/
structure Follows (ns : Set ℕ) (a a' : AbArbiter) (now : Instant) (bound : ℕ) : Prop where
  stamped : ∀ p ∈ a'.pendingGapConfirms.entries, p ∈ a.pendingGapConfirms.entries ∨ p.2 = now
  settled : ∀ s < bound, a.Settled ns s → a'.Settled ns s
  windowMs : a'.gapConfirmWindowMs = a.gapConfirmWindowMs

namespace Follows

variable {a'' : AbArbiter} {bound : ℕ}

theorem refl (a : AbArbiter) (now : Instant) (bound : ℕ) : a.Follows ns a now bound :=
  ⟨fun _ hp ↦ Or.inl hp, fun _ _ hs ↦ hs, rfl⟩

theorem mono {bound' : ℕ} (h : a.Follows ns a' now bound) (hle : bound' ≤ bound) :
    a.Follows ns a' now bound' :=
  ⟨h.stamped, fun s hs ↦ h.settled s (hs.trans_le hle), h.windowMs⟩

theorem trans (h : a.Follows ns a' now bound) (h' : a'.Follows ns a'' now bound) :
    a.Follows ns a'' now bound where
  stamped p hp := by
    rcases h'.stamped p hp with hold | hnow
    · exact h.stamped p hold
    · exact Or.inr hnow
  settled s hs hsettled := h'.settled s hs (h.settled s hs hsettled)
  windowMs := h'.windowMs.trans h.windowMs

end Follows

section Stamped

variable {p : ℕ × Instant}

theorem stamped_noteMissing (h : p ∈ (a.noteMissing now seq).pendingGapConfirms.entries) :
    p ∈ a.pendingGapConfirms.entries ∨ p.2 = now := by
  unfold noteMissing at h
  split at h
  · exact Or.inl h
  · exact (SortedMap.mem_entries_of_orInsert h).imp_right (congrArg Prod.snd)

theorem stamped_noteMissingRange {start stop : ℕ}
    (h : p ∈ (a.noteMissingRange start stop now).pendingGapConfirms.entries) :
    p ∈ a.pendingGapConfirms.entries ∨ p.2 = now := by
  unfold noteMissingRange at h
  generalize List.range' start (stop - start) = seqs at h
  induction seqs generalizing a with
  | nil => exact Or.inl h
  | cons seq seqs ih =>
      rcases ih h with hold | hnow
      · exact stamped_noteMissing hold
      · exact Or.inr hnow

theorem stamped_evict (h : p ∈ (a.evict now).pendingGapConfirms.entries) :
    p ∈ a.pendingGapConfirms.entries ∨ p.2 = now := by
  unfold evict at h
  dsimp only at h
  split at h
  · exact Or.inl h
  · exact (SortedMap.mem_entries_of_orInsert h).imp_right (congrArg Prod.snd)

theorem stamped_evict_iterate {n : ℕ}
    (h : p ∈ ((evict now)^[n] a).pendingGapConfirms.entries) :
    p ∈ a.pendingGapConfirms.entries ∨ p.2 = now := by
  induction n generalizing a with
  | zero => exact Or.inl h
  | succ n ih =>
      rcases ih h with hold | hnow
      · exact stamped_evict hold
      · exact Or.inr hnow

theorem stamped_slide (h : p ∈ (a.slide seq now).pendingGapConfirms.entries) :
    p ∈ a.pendingGapConfirms.entries ∨ p.2 = now := by
  unfold slide slideTo at h
  split at h
  · exact stamped_evict_iterate h
  · exact Or.inl h

theorem stamped_observe {streamId : UInt8}
    (h : p ∈ (a.observe streamId seq now).2.pendingGapConfirms.entries) :
    p ∈ a.pendingGapConfirms.entries ∨ p.2 = now := by
  by_cases hlow : seq < a.windowBase
  · rw [observe_of_lt streamId now hlow] at h
    split at h
    · rw [pending_recordDelivery] at h
      exact Or.inl (SortedMap.mem_entries_erase.mp h).1
    · exact Or.inl h
  · rw [observe_of_le streamId now (Nat.le_of_not_lt hlow)] at h
    split at h
    · rw [pending_recordDelivery] at h
      exact stamped_slide h
    · rw [pending_recordDelivery] at h
      exact stamped_slide (SortedMap.mem_entries_erase.mp h).1

end Stamped

/-- Observing a number settles it and unsettles none. -/
theorem observe_follows (ha : a.Apart) (hns : seq ∈ ns) (hseq : seq < 2 ^ 64)
    (hlen : a.windowLen < 2 ^ 64) (streamId : UInt8) (now : Instant) (bound : ℕ) :
    a.Follows ns (a.observe streamId seq now).2 now bound ∧
      (a.observe streamId seq now).2.Settled ns seq := by
  by_cases htakes : a.Takes seq
  · obtain ⟨-, hforward⟩ := @observe_takes a seq streamId now hseq hlen htakes
    exact ⟨⟨fun _ ↦ stamped_observe, fun _ _ ↦ hforward.settled hns, hforward.windowMs⟩,
      hforward.settled_self⟩
  · obtain ⟨-, hunmoved⟩ := @observe_drops a seq streamId now hseq hlen htakes
    exact ⟨⟨fun _ ↦ stamped_observe, fun _ _ ↦ hunmoved.settled, hunmoved.windowMs⟩,
      hunmoved.settled (settled_of_not_takes ha htakes)⟩

/-- Staging the numbers from the mark on unsettles none below it. -/
theorem Watches.noteMissingRange_follows {g : GapRequestHandler} {unseen stop : ℕ}
    (h : a.Watches g unseen) (hstop : stop < 2 ^ 64) (now : Instant) :
    a.Follows ns (a.noteMissingRange unseen stop now) now unseen := by
  obtain ⟨hbase, hlen, hms, hseen, hpending⟩ := @noteMissingRange_spec a now unseen stop
    (fun s hlo hhi ↦ h.not_seen hlo hhi hstop) h.base h.lt_len
  refine ⟨fun _ ↦ stamped_noteMissingRange, fun s hs hsettled ↦ ⟨fun hmem ↦ ?_, ?_⟩, hms⟩
  · rcases (hpending s).mp hmem with hold | ⟨hlo, -⟩
    · exact hsettled.1 hold
    · omega
  · rw [hbase, hlen, hseen]
    exact hsettled.2

end AbArbiter

/-! ## The block loop -/

namespace Decoding

variable {d : Decoding F} {a : AbArbiter} {t : Instant}

theorem arbiter_decodeBlock (streamId : UInt8) (b : Block) (ha : d.inner.arbiter = some a) :
    (decodeBlock streamId (some t) b d).2.inner.arbiter =
      some (a.observe streamId b.seq t).2 := by
  unfold decodeBlock Inner.observe
  rw [ha]
  dsimp only
  rcases a.observe streamId b.seq t with ⟨verdict, a'⟩
  cases verdict with
  | duplicate => rfl
  | outOfWindow => rfl
  | forward => exact arbiter_place streamId b

/-- After the loop every number it reached is settled. -/
theorem decodeBlocks_follows (streamId : UInt8) {ns : Set ℕ} {todo : List Block}
    (hns : ∀ b ∈ todo, b.seq ∈ ns) :
    ∀ {d : Decoding F} {a : AbArbiter}, d.inner.Tracking → d.inner.seqAnchored = true →
      (∀ b ∈ todo, Below b.seq d.inner.nextUnseen) → d.inner.arbiter = some a →
      ∃ a', (decodeBlocks streamId (some t) todo d).2.inner.arbiter = some a' ∧
        (∀ bound, a.Follows ns a' t bound) ∧
        ∀ b ∈ todo, b.seq ∉ (cutOff streamId (some t) todo d).map Block.seq →
          a'.Settled ns b.seq := by
  induction todo with
  | nil => exact fun _ _ _ ha ↦ ⟨_, ha, .refl _ t, fun b hb ↦ (List.not_mem_nil hb).elim⟩
  | cons b todo ih =>
      intro d a htracking hanchored hbelow ha
      obtain ⟨hmem, hrest⟩ := List.forall_mem_cons.mp hns
      have hwatches := htracking.arbiter a ha
      have hb := hbelow b List.mem_cons_self
      have hstep := tracking_decodeBlock htracking hanchored streamId (some t) hb
      have hframe := decodeBlock_frame streamId (some t) b d
      have harbiter := @arbiter_decodeBlock _ d a t streamId b ha
      have hobserve := AbArbiter.observe_follows hwatches.apart hmem (hb.lt htracking.small)
        hwatches.lt_len streamId t
      unfold decodeBlocks cutOff
      generalize decodeBlock streamId (some t) b d = decoded at hstep hframe harbiter ⊢
      obtain ⟨_ | _, d'⟩ := decoded
      · -- the insert was refused: only this block was reached
        refine ⟨_, harbiter, fun bound ↦ (hobserve bound).1, fun b' hb' hnot ↦ ?_⟩
        rcases List.mem_cons.mp hb' with rfl | hcut
        · exact (hobserve 0).2
        · exact (hnot (List.mem_map_of_mem hcut)).elim
      · have hbelow' : ∀ b' ∈ todo, Below b'.seq d'.inner.nextUnseen := fun b' hb' ↦ by
          rw [hframe.nextUnseen]
          exact hbelow b' (List.mem_cons_of_mem b hb')
        obtain ⟨a', ha', hfollows, hsettled⟩ := ih hrest hstep
          (hframe.seqAnchored.trans hanchored) hbelow' harbiter
        refine ⟨a', ha', fun bound ↦ (hobserve bound).1.trans (hfollows bound),
          fun b' hb' hnot ↦ ?_⟩
        rcases List.mem_cons.mp hb' with rfl | hb'
        · exact (hfollows (b'.seq + 1)).settled _ (Nat.lt_succ_self _) (hobserve 0).2
        · exact hsettled b' hb' hnot

end Decoding

/-! ## One decode -/

theorem Inner.Tracking.enterLoop_follows {i : Inner F} (h : i.Tracking) (ns : Set ℕ)
    {a : AbArbiter}
    (ha : i.arbiter = some a) {header : DownstreamHeader} (hsequence : header.sequence < 2 ^ 64)
    (datagram : Held F) (t : Instant) :
    ∃ a', (i.enterLoop header datagram (some t)).inner.arbiter = some a' ∧
      a.Follows ns a' t i.nextUnseen := by
  rcases i.noteJump_cases header.sequence (some t) with
    ⟨-, hjump⟩ | ⟨-, a', t', ha', ht, hjump⟩ | ⟨-, hnone | hnone, -⟩
  · exact ⟨a, (congrArg Inner.arbiter hjump).trans ha, .refl a t _⟩
  · obtain rfl : a = a' := Option.some.inj (ha.symm.trans ha')
    obtain rfl : t = t' := Option.some.inj ht
    exact ⟨_, congrArg Inner.arbiter hjump,
      (h.arbiter a ha).noteMissingRange_follows hsequence t⟩
  · rw [ha] at hnone
    cases hnone
  · cases hnone

/-- Processing at `t` on several legs: candidates keep their instants or are staged now,
settled numbers below the mark stay settled, and carried numbers are settled unless cut
off. -/
theorem Inner.Decodes.follows [AsRef F] {i i' : Inner F} {t : Instant} {carried cutOff : List ℕ}
    {opened : List (ℕ × ℕ)} (h : i.Decodes (some t) carried cutOff opened i')
    (htracking : i.Tracking) {ns : Set ℕ} (hns : ∀ s ∈ carried, s ∈ ns) {a : AbArbiter}
    (ha : i.arbiter = some a) :
    ∃ a', i'.arbiter = some a' ∧
      a.Follows ns a' t (if i.seqAnchored then i.nextUnseen else 0) ∧
      ∀ s ∈ carried, s ∉ cutOff → a'.Settled ns s := by
  -- accepting the header clears the window of a receiver that is not anchored
  have haccepted : ∀ rest header, ∃ a', (i.accepted rest header).arbiter = some a' ∧
      a.Follows ns a' t (if i.seqAnchored then i.nextUnseen else 0) := by
    intro rest header
    unfold accepted anchor
    dsimp only
    split
    · exact ⟨a, ha, .refl a t _⟩
    · exact ⟨a.rebase header.sequence, by rw [ha]; rfl, fun _ hp ↦ (List.not_mem_nil hp).elim,
        fun _ hs ↦ (Nat.not_lt_zero _ hs).elim, rfl⟩
  cases h with
  | kept hsame =>
      exact ⟨a, hsame.arbiter.trans ha, .refl a t _, fun s hs ↦ (List.not_mem_nil hs).elim⟩
  | tail _ hsame =>
      obtain ⟨a', ha', hfollows⟩ := haccepted _ _
      refine ⟨a', ?_, hfollows, fun s hs ↦ (List.not_mem_nil hs).elim⟩
      rw [hsame.arbiter, arbiter_noteTailGap]
      exact ha'
  | truncated _ hsame =>
      obtain ⟨a', ha', hfollows⟩ := haccepted _ _
      exact ⟨a', hsame.arbiter.trans ha', hfollows, fun s hs ↦ (List.not_mem_nil hs).elim⟩
  | @loop streamId datagram rest header blocks _ hparse hnumber hsame =>
      have hsequence := parseHeader_sequence_lt hparse
      obtain ⟨a₀, ha₀, hfollows₀⟩ := haccepted rest header
      have haccept : ({ i.accepted rest header with blocks := blocks } : Inner F).Tracking :=
        (htracking.accepted rest hsequence).congr rfl rfl rfl rfl rfl
      have hanchored := (i.accepted_session rest header).2
      have hmark : (if i.seqAnchored then i.nextUnseen else 0) ≤
          (i.accepted rest header).nextUnseen := by
        rw [nextUnseen_accepted]
        split
        · exact le_rfl
        · exact Nat.zero_le _
      obtain ⟨a₁, ha₁, hfollows₁⟩ := haccept.enterLoop_follows ns ha₀ hsequence datagram t
      obtain ⟨a', ha', hfollows', hsettled⟩ := Decoding.decodeBlocks_follows streamId
        (fun b hb ↦ hns _ (List.mem_map_of_mem hb))
        (haccept.enterLoop datagram (some t) hsequence hanchored)
        ((noteJump_frame { i.accepted rest header with blocks := blocks } header.sequence
          (some t)).seqAnchored.trans hanchored)
        (fun b hb ↦ below_of_mem_blocks hparse hnumber haccept.small hb) ha₁
      refine ⟨a', hsame.arbiter.trans ha',
        (hfollows₀.trans (hfollows₁.mono hmark)).trans (hfollows' _), fun s hs hnot ↦ ?_⟩
      obtain ⟨b, hb, rfl⟩ := List.mem_map.mp hs
      exact hsettled b hb hnot

/-! ## Every candidate has its notice -/

/-- The candidates of `i` next to the history `log`: each was staged in a record of its
instant, and a number decoded at or after a notice is settled. -/
structure Waits (ms : ℕ) (i : Inner F) (log : List Record) : Prop where
  tracking : i.Tracking
  windowMs : ∀ a ∈ i.arbiter, a.gapConfirmWindowMs = ms
  stamped : ∀ p ∈ i.candidates, ∃ r ∈ log, r.time = p.2 ∧ p.1 ∈ r.staged
  below : ∀ r ∈ log, ∀ s ∈ r.staged, i.seqAnchored = true ∧ s < i.nextUnseen
  own : ∀ r ∈ log, ∀ s ∈ r.staged, s ∉ r.carried
  later : log.Pairwise fun r r' ↦ r.time ≤ r'.time ∧
    ∀ s ∈ r.staged, s ∈ r'.carried → ∀ a ∈ i.arbiter, a.Settled Set.univ s

namespace Waits

variable {ms : ℕ} {i i' : Inner F} {log : List Record}

theorem congr (h : Waits ms i log) (hsame : i.SameTracking i') : Waits ms i' log where
  tracking := h.tracking.congr hsame.reassembler hsame.gapHandler hsame.nextUnseen hsame.arbiter
    hsame.seqAnchored
  windowMs := hsame.arbiter ▸ h.windowMs
  stamped := Inner.candidates_congr hsame.arbiter ▸ h.stamped
  below := by
    rw [hsame.seqAnchored, hsame.nextUnseen]
    exact h.below
  own := h.own
  later := hsame.arbiter ▸ h.later

theorem promoted {now : Instant} {confirmed : List ℕ} (h : Waits ms i log)
    (hpromoted : i.Promoted i' now confirmed) (htracking : i'.Tracking) : Waits ms i' log where
  tracking := htracking
  windowMs a' ha' := by
    rcases hpromoted.arbiter a' ha' with hold | ⟨a, ha, rfl⟩
    · exact h.windowMs a' hold
    · exact h.windowMs a ha
  stamped p hp := h.stamped p (hpromoted.left p hp).1
  below := by
    rw [hpromoted.seqAnchored, hpromoted.nextUnseen]
    exact h.below
  own := h.own
  later := by
    refine h.later.imp fun hpair ↦ ⟨hpair.1, fun s hs hcarried a' ha' ↦ ?_⟩
    rcases hpromoted.arbiter a' ha' with hold | ⟨a, ha, rfl⟩
    · exact hpair.2 s hs hcarried a' hold
    · exact (hpair.2 s hs hcarried a ha).confirmedGaps now

variable [AsRef F]

theorem process (h : Waits ms i log) (hlegs : i.arbiter.isSome = true) {now : Instant}
    (htime : ∀ r ∈ log, r.time ≤ now) (hcut : i.cutOff (i.clock now) = []) :
    Waits ms (i.processNextPending (i.clock now)).2 (log ++ [i.record now]) := by
  obtain ⟨a, ha⟩ := Option.isSome_iff_exists.mp hlegs
  have hclock : i.clock now = some now := if_pos hlegs
  have hdecodes := i.processNextPending_decodes (i.clock now)
  have htracking := (i.processNextPending_processed (i.clock now)).tracking h.tracking
  have hstaged : ∀ s ∈ (i.record now).staged,
      ∃ t, (s, t) ∈ (i.processNextPending (i.clock now)).2.candidates := by
    intro s hs
    obtain ⟨p, hp, rfl⟩ := List.mem_map.mp hs
    exact ⟨p.2, (List.mem_filter.mp hp).1⟩
  have hnew := fun p hp ↦ i.mem_staged_or_mem (i.clock now) (p := p) hp
  obtain ⟨a', ha', hfollows, hsettled⟩ : ∃ a',
      (i.processNextPending (i.clock now)).2.arbiter = some a' ∧
        a.Follows Set.univ a' now (if i.seqAnchored then i.nextUnseen else 0) ∧
        ∀ s ∈ i.carried, s ∉ i.cutOff (i.clock now) → a'.Settled Set.univ s := by
    rw [hclock] at hdecodes ⊢
    exact hdecodes.follows h.tracking (fun s _ ↦ Set.mem_univ s) ha
  generalize (i.processNextPending (i.clock now)).2 = i' at hdecodes htracking hstaged hnew ha' ⊢
  -- the loop reaches every number carried
  have hcarried : ∀ s ∈ i.carried, a'.Settled Set.univ s := fun s hs ↦
    hsettled s hs (hcut ▸ List.not_mem_nil)
  have hmem : ∀ b ∈ i'.arbiter, b = a' := fun b hb ↦ Option.some.inj (hb.symm.trans ha')
  refine ⟨htracking, fun b hb ↦ ?_, fun p hp ↦ ?_, fun r hr s hs ↦ ?_, fun r hr s hs ↦ ?_, ?_⟩
  · rw [hmem b hb, hfollows.windowMs]
    exact h.windowMs a ha
  · by_cases hold : p ∈ i.candidates
    · obtain ⟨r, hr, hr'⟩ := h.stamped p hold
      exact ⟨r, List.mem_append_left _ hr, hr'⟩
    · refine ⟨_, List.mem_append_right _ List.mem_cons_self, ?_, (hnew p hp).resolve_left hold⟩
      rw [Inner.candidates_of_some ha'] at hp
      rw [Inner.candidates_of_some ha] at hold
      exact ((hfollows.stamped p hp).resolve_left hold).symm
  · rcases List.mem_append.mp hr with hold | hlast
    · obtain ⟨hanchored, hlt⟩ := h.below r hold s hs
      obtain ⟨hanchored', hle⟩ := hdecodes.nextUnseen_le hanchored
      exact ⟨hanchored', hlt.trans_le hle⟩
    · obtain rfl := List.mem_singleton.mp hlast
      obtain ⟨t, ht⟩ := hstaged s hs
      exact ⟨htracking.anchored_of_candidate ht, htracking.candidate_lt ht⟩
  · rcases List.mem_append.mp hr with hold | hlast
    · exact h.own r hold s hs
    · intro hs'
      have hsettled := hcarried s
      obtain rfl := List.mem_singleton.mp hlast
      obtain ⟨t, ht⟩ := hstaged s hs
      rw [Inner.candidates_of_some ha'] at ht
      exact (hsettled hs').1 ⟨t, ht⟩
  · refine List.pairwise_append.mpr ⟨?_, List.pairwise_singleton _ _, fun r hr r' hr' ↦ ?_⟩
    · refine h.later.imp_of_mem fun hr _ hpair ↦ ⟨hpair.1, fun s hs hcarried b hb ↦ ?_⟩
      obtain ⟨hanchored, hlt⟩ := h.below _ hr s hs
      rw [hmem b hb]
      exact hfollows.settled s (by rwa [if_pos hanchored]) (hpair.2 s hs hcarried a ha)
    · obtain rfl := List.mem_singleton.mp hr'
      refine ⟨htime r hr, fun s hs hs' b hb ↦ ?_⟩
      rw [hmem b hb]
      exact hcarried s hs'

end Waits

/-! ## Whole runs -/

/-- The window in whole milliseconds, as far as they fit a word. -/
theorem windowMs_fresh (cfg : MoldUdpReceiverConfig) (legs : List Leg) {a : AbArbiter}
    (ha : a ∈ (Inner.fresh cfg legs : Inner F).arbiter) :
    a.gapConfirmWindowMs = min (cfg.gapConfirmWindow / 1000000) max64 := by
  unfold Inner.fresh at ha
  by_cases hlegs : 1 < legs.length
  · cases hstart : cfg.startSequence with
    | none =>
        simp only [hstart, if_pos hlegs] at ha
        cases ha
        rfl
    | some start =>
        simp only [hstart, if_pos hlegs] at ha
        cases ha
        rfl
  · cases hstart : cfg.startSequence <;> simp [hstart, hlegs] at ha

/-- The first record in which `s` is noticed. -/
theorem exists_first_notice {log : List Record} {r : Record} {s : ℕ} (hr : r ∈ log)
    (hs : s ∈ r.staged) :
    ∃ earlier notice later, log = earlier ++ notice :: later ∧ s ∈ notice.staged ∧
      (∀ r ∈ earlier, s ∉ r.staged) ∧ r ∈ notice :: later := by
  induction log with
  | nil => cases hr
  | cons r₀ log ih =>
      by_cases hfirst : s ∈ r₀.staged
      · exact ⟨[], r₀, log, rfl, hfirst, fun _ hr ↦ (List.not_mem_nil hr).elim, hr⟩
      · have hrest : r ∈ log := by
          rcases List.mem_cons.mp hr with rfl | hrest
          · exact (hfirst hs).elim
          · exact hrest
        obtain ⟨earlier, notice, later, rfl, hnotice, hnone, hmem⟩ := ih hrest
        refine ⟨r₀ :: earlier, notice, later, rfl, hnotice, fun r hr ↦ ?_, hmem⟩
        rcases List.mem_cons.mp hr with rfl | hr
        · exact hfirst
        · exact hnone r hr

/-- A candidate was first noticed at or before its instant, and nothing decoded since
carries it. -/
theorem Waits.first_notice {ms : ℕ} {i : Inner F} {log : List Record} (h : Waits ms i log)
    {p : ℕ × Instant} (hp : p ∈ i.candidates) :
    ∃ earlier notice later, log = earlier ++ notice :: later ∧ p.1 ∈ notice.staged ∧
      (∀ r ∈ earlier, p.1 ∉ r.staged) ∧ notice.time ≤ p.2 ∧
      ∀ r ∈ notice :: later, p.1 ∉ r.carried := by
  obtain ⟨r, hr, htime, hs⟩ := h.stamped p hp
  obtain ⟨earlier, notice, later, hlog, hnotice, hnone, hmem⟩ := exists_first_notice hr hs
  have hpair := h.later
  rw [hlog] at hpair
  have hlater := (List.pairwise_cons.mp (List.pairwise_append.mp hpair).2.1).1
  have hown := h.own notice (hlog ▸ List.mem_append_right _ List.mem_cons_self) p.1 hnotice
  refine ⟨earlier, notice, later, hlog, hnotice, hnone, ?_, fun r' hr' ↦ ?_⟩
  · rw [← htime]
    rcases List.mem_cons.mp hmem with rfl | hmem
    · exact le_rfl
    · exact (hlater r hmem).1
  · rcases List.mem_cons.mp hr' with rfl | hr'
    · exact hown
    · intro hcarried
      unfold Inner.candidates at hp
      split at hp
      · cases hp
      · next a ha => exact ((hlater r' hr').2 p.1 hnotice hcarried a ha).1 ⟨p.2, hp⟩

namespace Inner

variable [AsRef F]

/-- A control packet up next is not ahead of the mark. -/
def TailKnown (i : Inner F) : Prop :=
  ∀ header ∈ i.nextHeader, header.kind ≠ .data → i.seqAnchored = true →
    header.sequence ≤ i.nextUnseen

instance (i : Inner F) : Decidable i.TailKnown :=
  inferInstanceAs (Decidable (∀ header ∈ i.nextHeader, _ → _ → _))

/-- Numbers of the messages in the datagrams behind the one up next. -/
def waiting (i : Inner F) : List ℕ := i.pendingDatagrams.tail.flatMap fun p ↦ i.numbersIn p.2

/-- No number in a datagram behind the one up next is a candidate that has waited out the
window at `now`, and a candidate staged at `now` has to wait. -/
def NoneDue (i : Inner F) (now : Instant) : Prop :=
  ∀ a ∈ i.arbiter, ∀ s ∈ i.waiting, 0 < a.gapConfirmWindowMs ∧
    ∀ p ∈ i.candidates, p.1 = s → a.graceElapsed now p.2 = false

instance (i : Inner F) (now : Instant) : Decidable (i.NoneDue now) :=
  inferInstanceAs (Decidable (∀ a ∈ i.arbiter, ∀ s ∈ i.waiting, _ ∧ _))

/-- With several legs only a control packet ahead of the mark records a range at once. -/
theorem TailKnown.opened {i : Inner F} (h : i.TailKnown) (hlegs : i.arbiter.isSome = true)
    (t : Instant) : i.opened (some t) = [] := by
  unfold Inner.opened
  cases hpop : i.pendingDatagrams with
  | nil => rfl
  | cons p rest =>
      obtain ⟨streamId, datagram⟩ := p
      dsimp only
      cases hheader : i.headerOf datagram with
      | none => rfl
      | some header =>
          have hcontrol : header.kind ≠ .data →
              (i.accepted rest header).tailGap header.sequence = [] := fun hkind ↦ by
            refine if_neg ?_
            rw [nextUnseen_accepted]
            split
            · next hanchored =>
                exact Nat.not_lt.mpr (h header (by rw [nextHeader, hpop]; exact hheader) hkind
                  hanchored)
            · exact lt_irrefl _
          dsimp only
          cases hkind : header.kind with
          | heartbeat => exact hcontrol (by simp [hkind])
          | endOfSession => exact hcontrol (by simp [hkind])
          | data =>
              cases wholeBlocks datagram header with
              | none => rfl
              | some blocks =>
                  rcases (i.accepted rest header).jumpGap_cases header.sequence (some t) with
                    hempty | ⟨-, hnone | hnone, -⟩
                  · exact hempty
                  · rw [(i.arbiter_accepted_eq_none rest header).mp hnone] at hlegs
                    cases hlegs
                  · cases hnone

/-- A number that enters the gaps was promoted: processing alone records nothing. -/
theorem TailKnown.confirmed {i : Inner F} (h : i.TailKnown) (hlegs : i.arbiter.isSome = true)
    {now : Instant} {s : ℕ} (htracking : i.Tracking)
    (hprocessed : (i.processNextPending (i.clock now)).2.Tracking)
    (hbefore : ¬ i.gapHandler.Tracks s) (hafter : (i.decodeNext now).2.gapHandler.Tracks s) :
    s ∈ i.confirmed now := by
  have hpromoted := i.decodeNext_promoted now
  have hfits : ∀ s ∈ i.confirmed now, s + 1 < 2 ^ 64 := fun s hs ↦ by
    obtain ⟨t, ht, -⟩ := hpromoted.waited s hs
    exact Nat.lt_of_le_of_lt (hprocessed.candidate_lt ht) hprocessed.small
  rw [hpromoted.gapHandler] at hafter
  rcases ((GapRequestHandler.foldl_recordGap_spec hprocessed.gaps hfits).2 s).mp hafter
    with hold | hconfirmed
  · have hdecodes := i.processNextPending_decodes (i.clock now)
    rcases hdecodes.tracks htracking.gaps hold with hold | ⟨g, hg, -⟩
    · exact (hbefore hold).elim
    · rw [show i.clock now = some now from if_pos hlegs, h.opened hlegs now] at hg
      cases hg
  · exact hconfirmed

/-- Locking the session narrows what the receiver accepts. -/
theorem numbersIn_subset {i i' : Inner F} (h : i.session = none ∨ i'.session = i.session)
    {datagram : Held F} {s : ℕ} (hs : s ∈ i'.numbersIn datagram) : s ∈ i.numbersIn datagram := by
  unfold numbersIn at hs ⊢
  cases hheader : i'.headerOf datagram with
  | none =>
      rw [hheader] at hs
      cases hs
  | some header =>
      obtain ⟨hparse, hsession⟩ := headerOf_eq_some hheader
      rw [hheader] at hs
      rw [headerOf_eq hparse (h.elim Or.inl fun hsame ↦ hsame ▸ hsession)]
      exact hs

/-- What is queued after a decode was waiting behind the datagram up next. -/
theorem queued_decodeNext {i : Inner F} (hready : i.ready = []) (hfits : i.RingFits)
    (hnext : i.NextFits) {now : Instant} {s : ℕ} (hs : s ∈ (i.decodeNext now).2.queued) :
    s ∈ i.waiting := by
  have hsession : i.session = none ∨ (i.decodeNext now).2.session = i.session := by
    rcases i.decodeNext_ordered (P := fun _ _ ↦ True) now hready hfits (fun _ _ _ ↦ trivial)
        (hnext.range) (fun _ _ _ _ _ _ _ _ _ _ _ _ ↦ trivial) with
      ⟨-, -, -, hsame, -⟩ | ⟨_, _, rest, header, -, -, hsession, -, hqueues⟩
    · exact Or.inr hsame
    · refine hsession.imp_right fun hlocked ↦ ?_
      rw [hqueues.session, (i.accepted_session rest header).1, hlocked]
  obtain ⟨p, hp, hs⟩ := List.mem_flatMap.mp hs
  rw [(i.decodeNext_sameSources now).2] at hp
  exact List.mem_flatMap.mpr ⟨p, hp, numbersIn_subset hsession hs⟩

end Inner

namespace Watched

variable [AsRef F]

/-- The clock does not run backwards. -/
def Timely (w : Watched F) : Event F → Prop
  | .decode now => ∀ r ∈ w.log, r.time ≤ now
  | _ => True

instance (w : Watched F) : (e : Event F) → Decidable (w.Timely e)
  | .decode now => inferInstanceAs (Decidable (∀ r ∈ w.log, r.time ≤ now))
  | .retire => .isTrue trivial
  | .land .. => .isTrue trivial
  | .yieldItem => .isTrue trivial
  | .yieldOwned => .isTrue trivial

/-- A decode that neither records a range at once, nor leaves a block of its datagram
unobserved, nor promotes a number that a datagram behind it carries. -/
def Unhurried (w : Watched F) : Event F → Prop
  | .decode now =>
      w.session.inner.NextFits ∧ w.session.inner.Clear ∧ w.session.inner.TailKnown ∧
        w.session.inner.NoneDue now
  | _ => True

instance (w : Watched F) : (e : Event F) → Decidable (w.Unhurried e)
  | .decode _ => inferInstanceAs (Decidable (_ ∧ _ ∧ _ ∧ _))
  | .retire => .isTrue trivial
  | .land .. => .isTrue trivial
  | .yieldItem => .isTrue trivial
  | .yieldOwned => .isTrue trivial

theorem ringFits_of_run {cfg : MoldUdpReceiverConfig} {legs : List Leg} {inner : Inner F}
    {w : Watched F} (hnew : fromLegs cfg legs = .ok inner)
    (hrun : (machine F).Run (fun w e ↦ w.Timely e ∧ w.Unhurried e) (start inner) w) :
    w.session.inner.RingFits := by
  refine hrun.invariant (I := fun w ↦ w.session.inner.RingFits)
    (Session.inOrder_start hnew).fits fun w e w' h hallowed hstep ↦ ?_
  refine Session.ringFits_next h ?_ (next_cases hstep).1
  rintro now rfl
  exact hallowed.2.1

/-- A decode event comes with an empty queue. -/
theorem ready_of_next {w w' : Watched F} {now : Instant} (h : w.next (.decode now) = some w') :
    w.session.inner.ready = [] := by
  have hstep := Session.step_of_next (next_cases h).1
  generalize w'.session = t at hstep
  cases hstep with
  | decode _ hready => exact hready

theorem waits_of_run {cfg : MoldUdpReceiverConfig} {legs : List Leg} {inner : Inner F}
    {w : Watched F} (hnew : fromLegs cfg legs = .ok inner) (hlegs : 2 ≤ legs.length)
    (hrun : (machine F).Run (fun w e ↦ w.Timely e ∧ w.Unhurried e) (start inner) w) :
    Waits (min (cfg.gapConfirmWindow / 1000000) max64) w.session.inner w.log := by
  have hsome : ∀ w, (machine F).Run (fun w e ↦ w.Timely e ∧ w.Unhurried e) (start inner) w →
      w.session.inner.arbiter.isSome = true ∧ w.session.inner.RingFits := fun w hrun ↦
    ⟨(isSome_arbiter_of_run hnew (session_run hrun)).trans (decide_eq_true hlegs),
      ringFits_of_run hnew hrun⟩
  refine hrun.invariant_of (I := fun w ↦ Waits _ w.session.inner w.log) hsome ?_ ?_
  · obtain rfl := fromLegs_ok hnew
    refine ⟨Inner.tracking_fresh cfg legs, fun a ↦ windowMs_fresh cfg legs, fun p hp ↦ ?_, ?_, ?_,
      List.Pairwise.nil⟩
    · obtain ⟨a, ha⟩ := Option.isSome_iff_exists.mp (hsome _ .refl).1
      rw [Inner.candidates_of_some ha] at hp
      exact ((arbiter_fresh cfg legs ha).2.2.2 p.1 ⟨p.2, hp⟩).elim
    · exact fun r hr ↦ (List.not_mem_nil hr).elim
    · exact fun r hr ↦ (List.not_mem_nil hr).elim
  · intro w e w' ⟨hsome, hfits⟩ h ⟨htimely, hunhurried⟩ hstep
    obtain ⟨hsession, ⟨hsame, hlog⟩ | ⟨now, rfl, hinner, hlog⟩⟩ := next_cases hstep
    · rw [hlog]
      exact h.congr hsame
    · have htracking := h.tracking.next hsession
      rw [hinner] at htracking ⊢
      rw [hlog]
      have hcut := hunhurried.2.1.cutOff (ready_of_next hstep) hfits hunhurried.1
        (w.session.inner.clock now)
      exact (h.process hsome htimely hcut).promoted
        (w.session.inner.decodeNext_promoted now) htracking

end Watched

/-- A number that enters the gaps at `now` was first noticed a whole confirm window before,
and neither a datagram decoded since nor one still waiting carries it. -/
theorem gap_waits_confirm_window [AsRef F] {cfg : MoldUdpReceiverConfig} {legs : List Leg}
    {inner : Inner F} {w w' : Watched F} {now : Instant} {s : ℕ}
    (hnew : fromLegs cfg legs = .ok inner) (hlegs : 2 ≤ legs.length)
    (hwhole : 1000000 ∣ cfg.gapConfirmWindow) (hmax : cfg.gapConfirmWindow ≤ max64 * 1000000)
    (hrun : (Watched.machine F).Run (fun w e ↦ w.Timely e ∧ w.Unhurried e)
      (Watched.start inner) w)
    (htimely : w.Timely (.decode now)) (hunhurried : w.Unhurried (.decode now))
    (hnext : w.next (.decode now) = some w')
    (hbefore : ¬ w.session.inner.gapHandler.Tracks s)
    (hafter : w'.session.inner.gapHandler.Tracks s) :
    ∃ earlier notice later, w'.log = earlier ++ notice :: later ∧
      s ∈ notice.staged ∧ (∀ r ∈ earlier, s ∉ r.staged) ∧
      cfg.gapConfirmWindow ≤ now - notice.time ∧
      (∀ r ∈ notice :: later, s ∉ r.carried) ∧ s ∉ w'.session.inner.queued := by
  have hwaits := Watched.waits_of_run hnew hlegs hrun
  have hsome := (isSome_arbiter_of_run hnew (Watched.session_run hrun)).trans
    (decide_eq_true hlegs)
  have hfits := Watched.ringFits_of_run hnew hrun
  have hready := Watched.ready_of_next hnext
  have hclock : w.session.inner.clock now = some now := if_pos hsome
  obtain ⟨hrange, hclear, htail, hdue⟩ := hunhurried
  have hprocess := hwaits.process hsome htimely (hclear.cutOff hready hfits hrange _)
  have hdecodes := w.session.inner.processNextPending_decodes (w.session.inner.clock now)
  have hpromoted := w.session.inner.decodeNext_promoted now
  obtain ⟨-, ⟨hsame, -⟩ | ⟨now', heq, hinner, hlog⟩⟩ := Watched.next_cases hnext
  · rw [hsame.gapHandler] at hafter
    exact (hbefore hafter).elim
  cases heq
  rw [hinner] at hafter
  have hconfirmed := htail.confirmed hsome hwaits.tracking hprocess.tracking hbefore hafter
  obtain ⟨t, ht, hgrace⟩ := hpromoted.waited s hconfirmed
  obtain ⟨earlier, notice, later, hsplit, hnotice, hnone, htime, hcarried⟩ :=
    hprocess.first_notice ht
  obtain ⟨a, ha⟩ := Option.isSome_iff_exists.mp hsome
  obtain ⟨a', ha', hfollows, -⟩ := (hclock ▸ hdecodes).follows hwaits.tracking
    (fun s _ ↦ Set.mem_univ s) ha
  have helapsed : a'.gapConfirmWindowMs * 1000000 ≤ now - t :=
    of_decide_eq_true (hgrace a' (hclock ▸ ha'))
  refine ⟨earlier, notice, later, hlog.trans hsplit, hnotice, hnone, ?_, hcarried, ?_⟩
  · rw [hprocess.windowMs a' (hclock ▸ ha')] at helapsed
    obtain ⟨ms, hms⟩ := hwhole
    have hle : ms ≤ max64 := by omega
    rw [hms, Nat.mul_div_cancel_left ms (by norm_num), min_eq_left hle] at helapsed
    calc cfg.gapConfirmWindow = ms * 1000000 := by rw [hms, Nat.mul_comm]
      _ ≤ now - t := helapsed
      _ ≤ now - notice.time := Nat.sub_le_sub_left htime now
  · -- a candidate that a waiting datagram carries is not due yet
    rw [hinner]
    intro hqueued
    obtain ⟨hpos, hnone⟩ := hdue a ha s (Inner.queued_decodeNext hready hfits hrange hqueued)
    rw [hfollows.windowMs] at helapsed
    rw [Inner.candidates_of_some (hclock ▸ ha')] at ht
    rcases hfollows.stamped _ ht with hold | rfl
    · have hfalse := hnone (s, t) (Inner.candidates_of_some ha ▸ hold) rfl
      exact of_decide_eq_false hfalse helapsed
    · omega

/-- 3 arrives first, which stages 1 and 2; a heartbeat at the mark is waiting. -/
def sampleNoticed : List (Event (List UInt8)) :=
  [.land [(0, .frame (moldPacket sampleSession 3 [3])),
      (1, .frame (moldHeartbeat sampleSession 4))] [],
    .decode 0]

theorem gap_waits_confirm_window_two_legs :
    ∃ w w' : Watched (List UInt8),
      Machine.follow Watched.next (Watched.start sampleTwoLegs) sampleNoticed = some w ∧
      w.next (.decode 5000000) = some w' ∧ w'.session.inner.gapHandler.Tracks 1 ∧
      ∃ earlier notice later, w'.log = earlier ++ notice :: later ∧ 1 ∈ notice.staged ∧
        (∀ r ∈ earlier, 1 ∉ r.staged) ∧ 5000000 ≤ 5000000 - notice.time ∧
        (∀ r ∈ notice :: later, 1 ∉ r.carried) ∧ 1 ∉ w'.session.inner.queued := by
  have hend : ∃ w ∈ Machine.follow Watched.next (Watched.start sampleTwoLegs) sampleNoticed,
      w.Timely (.decode 5000000) ∧ w.Unhurried (.decode 5000000) ∧
      ¬ w.session.inner.gapHandler.Tracks 1 ∧
      ∃ w' ∈ w.next (.decode 5000000), w'.session.inner.gapHandler.Tracks 1 := by
    decide +kernel
  obtain ⟨w, hw, htimely, hunhurried, hbefore, w', hnext, hafter⟩ := hend
  have hrun : (Watched.machine (List UInt8)).Run (fun w e ↦ w.Timely e ∧ w.Unhurried e)
      (Watched.start sampleTwoLegs) w := .of_follow (by decide +kernel) hw
  exact ⟨w, w', hw, hnext, hafter, @gap_waits_confirm_window _ _ { startSequence := some 1 }
    [⟨minLegPoolCapacity⟩, ⟨minLegPoolCapacity⟩] _ _ _ _ _ rfl le_rfl (by decide) (by decide)
    hrun htimely hunhurried hnext hbefore hafter⟩

/-- A heartbeat of one leg ahead of the mark enters 1 at the very first decode. -/
theorem tail_gap_skips_confirm_window :
    ∃ w w' : Watched (List UInt8),
      (Watched.machine (List UInt8)).Run (fun w e ↦ w.Timely e) (Watched.start sampleTwoLegs) w ∧
      w.next (.decode 0) = some w' ∧ ¬ w.session.inner.gapHandler.Tracks 1 ∧
      w'.session.inner.gapHandler.Tracks 1 ∧ ∀ r ∈ w'.log, 0 - r.time < 5000000 := by
  have hend : ∃ w ∈ Machine.follow Watched.next (Watched.start sampleTwoLegs)
        [.land [(0, .frame (moldHeartbeat sampleSession 2))] []],
      ¬ w.session.inner.gapHandler.Tracks 1 ∧
      ∃ w' ∈ w.next (.decode 0), w'.session.inner.gapHandler.Tracks 1 ∧
        ∀ r ∈ w'.log, 0 - r.time < 5000000 := by
    decide +kernel
  obtain ⟨w, hw, hbefore, w', hnext, hafter, htime⟩ := hend
  exact ⟨w, w', .of_follow (by decide +kernel) hw, hnext, hbefore, hafter, htime⟩

end MoldUdp
