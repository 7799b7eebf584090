import PolarisTrade.MoldUdp.Confirm

/-!
# How often a missing number is reported

Ranges recorded at once start at the high-water mark, which then passes them, and a
candidate is dropped when it is promoted.  What remains is the window: it stages every
position it leaves unset, whether or not that number was reported before.  A run in which
this never happens reports each number at most once, whatever the number of legs; one in
which it does can report a number twice.
-/

namespace MoldUdp

open Transport

variable {F : Type} [AsRef F]

/-- The positions the window leaves behind when it slides on to take in `n`. -/
def AbArbiter.passed (a : AbArbiter) (n : ℕ) : List ℕ :=
  List.range' a.windowBase (n + 1 - a.windowLen - a.windowBase)

namespace Watched

/-- No number of the datagram up next moves the window past an unset position whose number
was reported before. -/
def Fresh (w : Watched F) : Event F → Prop
  | .decode _ => ∀ a ∈ w.session.inner.arbiter, ∀ n ∈ w.session.inner.carried,
      ∀ s ∈ a.passed n, a.Seen s ∨ w.reports s = 0
  | _ => True

instance (w : Watched F) : (e : Event F) → Decidable (w.Fresh e)
  | .decode _ => inferInstanceAs (Decidable (∀ a ∈ w.session.inner.arbiter,
      ∀ n ∈ w.session.inner.carried, ∀ s ∈ a.passed n, _ ∨ _))
  | .retire => .isTrue trivial
  | .land .. => .isTrue trivial
  | .yieldItem => .isTrue trivial
  | .yieldOwned => .isTrue trivial

/-- What is reported lies below the mark, is no candidate any more, and was reported once. -/
structure Once (w : Watched F) : Prop where
  tracking : w.session.inner.Tracking
  once : ∀ s, w.reports s ≤ 1
  below : ∀ s, w.reports s ≠ 0 → s < w.session.inner.nextUnseen
  unreported : ∀ p ∈ w.session.inner.candidates, w.reports p.1 = 0
  blank : w.session.inner.seqAnchored = false → ∀ s, w.reports s = 0

namespace Once

variable {w : Watched F} {now : Instant}

/-- A number reported before is settled as far as the datagram up next goes. -/
theorem settled_of_reported (h : w.Once) (hfresh : w.Fresh (.decode now)) {a : AbArbiter}
    (ha : w.session.inner.arbiter = some a) {s : ℕ} (hs : w.reports s ≠ 0) :
    a.Settled {n | n ∈ w.session.inner.carried} s := by
  refine ⟨?_, ?_⟩
  · rintro ⟨t, ht⟩
    exact hs (h.unreported (s, t) (Inner.candidates_of_some ha ▸ ht))
  · by_cases hlow : s < a.windowBase
    · exact Or.inl hlow
    · refine Or.inr (or_iff_not_imp_left.mpr fun hunseen n hn ↦ ?_)
      by_contra hpast
      have hpassed : s ∈ a.passed n := List.mem_range'_1.mpr ⟨by omega, by omega⟩
      exact (hfresh a ha n hn s hpassed).elim hunseen hs

/-- With nothing staged again, no candidate was ever reported. -/
theorem candidate_unreported (h : w.Once) (hfresh : w.Fresh (.decode now)) {p : ℕ × Instant}
    (hp : p ∈ (w.session.inner.processNextPending (w.session.inner.clock now)).2.candidates) :
    w.reports p.1 = 0 := by
  by_contra hreported
  have hanchored : w.session.inner.seqAnchored = true := by
    by_contra hblank
    exact hreported (h.blank (Bool.eq_false_of_not_eq_true hblank) p.1)
  have hdecodes := w.session.inner.processNextPending_decodes (w.session.inner.clock now)
  have hsome := (w.session.inner.processNextPending_processed
    (w.session.inner.clock now)).isSome_arbiter
  cases ha : w.session.inner.arbiter with
  | none =>
      rw [Inner.candidates_of_none (Option.isNone_iff_eq_none.mp (by simpa [ha] using hsome))] at hp
      cases hp
  | some a =>
      rw [show w.session.inner.clock now = some now by simp [Inner.clock, ha]] at hdecodes hp
      obtain ⟨a', ha', hfollows, -⟩ := hdecodes.follows h.tracking (fun _ hn ↦ hn) ha
      have hsettled := hfollows.settled p.1 (by rw [if_pos hanchored]; exact h.below _ hreported)
        (h.settled_of_reported hfresh ha hreported)
      rw [Inner.candidates_of_some ha'] at hp
      exact hsettled.1 ⟨p.2, hp⟩

/-- A decode reports a number not at all; or once, a number not reported before that now
lies below the mark and is no candidate. -/
theorem record_reports (h : w.Once) (hfresh : w.Fresh (.decode now)) (s : ℕ) :
    (w.session.inner.record now).reports s = 0 ∨
      ((w.session.inner.record now).reports s = 1 ∧ w.reports s = 0 ∧
        s < (w.session.inner.decodeNext now).2.nextUnseen ∧
        (w.session.inner.decodeNext now).2.seqAnchored = true ∧
        ∀ p ∈ (w.session.inner.decodeNext now).2.candidates, p.1 ≠ s) := by
  have hdecodes := w.session.inner.processNextPending_decodes (w.session.inner.clock now)
  have hpromoted := w.session.inner.decodeNext_promoted now
  have htracking := (w.session.inner.processNextPending_processed
    (w.session.inner.clock now)).tracking h.tracking
  rw [hpromoted.nextUnseen, hpromoted.seqAnchored]
  unfold Record.reports
  rcases hdecodes.countP_opened (w.session.inner.isSome_clock now) s with
    hopened | ⟨hopened, hanchored, hlo, hhi, hcandidates⟩
  · by_cases hs : s ∈ w.session.inner.confirmed now
    · -- a promoted candidate
      obtain ⟨t, ht, -⟩ := hpromoted.waited s hs
      have hcount : (w.session.inner.confirmed now).count s = 1 :=
        List.count_eq_one_of_mem hpromoted.nodup hs
      refine Or.inr ⟨?_, h.candidate_unreported hfresh ht, htracking.candidate_lt ht,
        htracking.anchored_of_candidate ht, ?_⟩
      · exact (congrArg₂ (· + ·) hopened hcount :)
      · rintro p hp rfl
        exact (hpromoted.left p hp).2 hs
    · exact Or.inl (congrArg₂ (· + ·) hopened (List.count_eq_zero_of_not_mem hs) :)
  · -- a range recorded at once lies above every report and every candidate so far
    have hold : ∀ p ∈ w.session.inner.candidates, p.1 ≠ s := fun p hp ↦
      ((h.tracking.candidate_lt hp).trans_le hlo).ne
    have hs : s ∉ w.session.inner.confirmed now := fun hs ↦ by
      obtain ⟨t, ht, -⟩ := hpromoted.waited s hs
      exact hold _ (hcandidates ▸ ht) rfl
    refine Or.inr ⟨?_, ?_, hhi, (hdecodes.nextUnseen_le hanchored).1, fun p hp ↦ ?_⟩
    · exact (congrArg₂ (· + ·) hopened (List.count_eq_zero_of_not_mem hs) :)
    · by_contra hreported
      exact absurd (h.below s hreported) (Nat.not_lt.mpr hlo)
    · exact hold p (hcandidates ▸ (hpromoted.left p hp).1)

omit [AsRef F] in
/-- The receiver before a run has reported nothing. -/
theorem start {inner : Inner F} (h : inner.Tracking) : (Watched.start inner).Once :=
  ⟨h, fun _ ↦ Nat.zero_le 1, fun _ hs ↦ (hs rfl).elim, fun _ _ ↦ rfl, fun _ _ ↦ rfl⟩

theorem next {w' : Watched F} {e : Event F} (h : w.Once) (hfresh : w.Fresh e)
    (hnext : w.next e = some w') : w'.Once := by
  obtain ⟨hsession, ⟨hsame, hlog⟩ | ⟨now, rfl, hinner, hlog⟩⟩ := next_cases hnext
  · -- nothing is decoded
    have hreports : ∀ s, w'.reports s = w.reports s := fun s ↦ by
      unfold reports
      rw [hlog]
    refine ⟨h.tracking.next hsession, fun s ↦ ?_, fun s hs ↦ ?_, fun p hp ↦ ?_, fun hblank s ↦ ?_⟩
    · rw [hreports]
      exact h.once s
    · rw [hsame.nextUnseen]
      exact h.below s (hreports s ▸ hs)
    · rw [hreports]
      exact h.unreported p (Inner.candidates_congr hsame.arbiter ▸ hp)
    · rw [hreports]
      exact h.blank (hsame.seqAnchored ▸ hblank) s
  · have hrecord := h.record_reports hfresh
    have hdecodes := w.session.inner.processNextPending_decodes (w.session.inner.clock now)
    have hpromoted := w.session.inner.decodeNext_promoted now
    rw [← hinner] at hrecord hpromoted
    have hreports := reports_append hlog
    refine ⟨h.tracking.next hsession, fun s ↦ ?_, fun s hs ↦ ?_, fun p hp ↦ ?_, fun hblank s ↦ ?_⟩
    · have honce := h.once s
      rw [hreports]
      rcases hrecord s with hzero | ⟨hone, hfirst, -⟩ <;> omega
    · rw [hreports] at hs
      rcases hrecord s with hzero | ⟨-, -, hlt, -⟩
      · have hold : w.reports s ≠ 0 := by omega
        have hanchored : w.session.inner.seqAnchored = true := by
          by_contra hblank
          exact hold (h.blank (Bool.eq_false_of_not_eq_true hblank) s)
        rw [hpromoted.nextUnseen]
        exact (h.below s hold).trans_le (hdecodes.nextUnseen_le hanchored).2
      · exact hlt
    · have hold := h.candidate_unreported hfresh (hpromoted.left p hp).1
      rw [hreports, hold]
      rcases hrecord p.1 with hzero | ⟨-, -, -, -, hne⟩
      · omega
      · exact (hne p hp rfl).elim
    · have hsame := hdecodes.sameTracking_of_blank (hpromoted.seqAnchored ▸ hblank)
      have hold := h.blank (hsame.seqAnchored ▸ hpromoted.seqAnchored ▸ hblank) s
      rw [hreports, hold]
      rcases hrecord s with hzero | ⟨-, -, -, hanchored, -⟩
      · omega
      · rw [hanchored] at hblank
        cases hblank

end Once

/-- On one leg there is no window. -/
theorem fresh_of_one_leg {w : Watched F} (h : w.session.inner.arbiter = none) (e : Event F) :
    w.Fresh e := by
  cases e with
  | decode now =>
      intro a ha
      rw [h] at ha
      cases ha
  | _ => exact trivial

/-- With one leg every run reports each number at most once. -/
theorem one_leg_reports {cfg : MoldUdpReceiverConfig} {leg : Leg} {inner : Inner F}
    {w : Watched F} (hnew : fromLegs cfg [leg] = .ok inner)
    (hrun : (machine F).Run (fun _ _ ↦ True) (start inner) w) (s : ℕ) : w.reports s ≤ 1 := by
  have hnone : ∀ w, (machine F).Run (fun _ _ ↦ True) (start inner) w →
      w.session.inner.arbiter = none := fun w hrun ↦
    Option.isNone_iff_eq_none.mp (by simpa using isSome_arbiter_of_run hnew (session_run hrun))
  have hstart : (start inner).Once := .start (fromLegs_ok hnew ▸ Inner.tracking_fresh cfg [leg])
  exact (hrun.invariant_of (I := Once) hnone hstart
    fun w e w' hone h _ hstep ↦ h.next (fresh_of_one_leg hone e) hstep).once s

end Watched

/-- A run in which the window never passes an unset position whose number was reported before
reports each number at most once, on any number of legs. -/
theorem missing_reported_once {cfg : MoldUdpReceiverConfig} {legs : List Leg} {inner : Inner F}
    {w : Watched F} (hnew : fromLegs cfg legs = .ok inner)
    (hrun : (Watched.machine F).Run Watched.Fresh (Watched.start inner) w) (s : ℕ) :
    w.reports s ≤ 1 := by
  have hstart : (Watched.start inner).Once :=
    .start (fromLegs_ok hnew ▸ Inner.tracking_fresh cfg legs)
  exact (hrun.invariant (I := Watched.Once) hstart
    fun _ _ _ h hfresh hstep ↦ h.next hfresh hstep).once s

/-- A heartbeat reports 1 and 2; a data packet stages 3 and 4, which a later heartbeat finds
confirmed. -/
def sampleReports : List (Event (List UInt8)) :=
  [.land [(0, .frame (moldHeartbeat sampleSession 3)),
      (1, .frame (moldPacket sampleSession 5 [5])),
      (0, .frame (moldHeartbeat sampleSession 6))] [],
    .decode 0, .yieldItem, .retire, .yieldItem, .retire, .decode 0, .decode 10000000]

theorem missing_reported_once_two_legs :
    ∃ w : Watched (List UInt8),
      Machine.follow Watched.next (Watched.start sampleTwoLegs) sampleReports = some w ∧
      w.reports 1 = 1 ∧ w.reports 3 = 1 ∧ ∀ s, w.reports s ≤ 1 := by
  have hend : ∃ w ∈ Machine.follow Watched.next (Watched.start sampleTwoLegs) sampleReports,
      w.reports 1 = 1 ∧ w.reports 3 = 1 := by decide +kernel
  obtain ⟨w, hw, hone, hthree⟩ := hend
  have hrun : (Watched.machine (List UInt8)).Run Watched.Fresh (Watched.start sampleTwoLegs) w :=
    .of_follow (by decide +kernel) hw
  exact ⟨w, hw, hone, hthree, @missing_reported_once _ _ { startSequence := some 1 }
    [⟨minLegPoolCapacity⟩, ⟨minLegPoolCapacity⟩] _ _ rfl hrun⟩

/-- A heartbeat reports 1 to 4096; 4097 arrives and pushes the unset position of 1 out of
the window, which stages it; a later heartbeat finds it confirmed. -/
def sampleEvicted : List (Event (List UInt8)) :=
  [.land [(0, .frame (moldHeartbeat sampleSession 4097)),
      (1, .frame (moldPacket sampleSession 4097 [7])),
      (0, .frame (moldHeartbeat sampleSession 4098))] [],
    .decode 0, .yieldItem, .retire, .yieldItem, .retire, .decode 0, .decode 10000000]

theorem missing_reported_twice :
    ∃ w : Watched (List UInt8),
      (Watched.machine (List UInt8)).Run (fun _ _ ↦ True) (Watched.start sampleTwoLegs) w ∧
      w.reports 1 = 2 := by
  exact Machine.Run.exists_of_follow sampleEvicted (by decide +kernel)

end MoldUdp
