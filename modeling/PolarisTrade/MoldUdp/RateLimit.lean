import PolarisTrade.MoldUdp.Emitter

/-!
# What limits re-requests, and what it costs

Every attempt of the last interval lies in one remembered range, stamped no earlier.  A gap
inside the attempts of the last interval is therefore inside one remembered range and not
requested again.  The other direction needs more: a range that touches a remembered one is
merged with it under the newer time, and what was requested earlier then passes for requested
just now.
-/

namespace MoldUdp

open Transport Word

/-! ## The remembered ranges -/

/-- The remembered ranges are apart, and each attempt of the last interval lies in one of
them that is stamped no earlier. -/
structure Remembers (now : Instant) (e : GapRequestEmitter) (log : List (Span ℕ Instant)) :
    Prop where
  apart : e.requested.Pairwise Span.Apart
  ordered : ∀ r ∈ e.requested, r.lo ≤ r.hi
  past : ∀ b ∈ log, b.tag ≤ now
  kept : ∀ b ∈ log, now - b.tag < e.interval →
    ∃ r ∈ e.requested, r.lo ≤ b.lo ∧ b.hi ≤ r.hi ∧ b.tag ≤ r.tag

variable {now : Instant} {e : GapRequestEmitter} {log : List (Span ℕ Instant)}

theorem Remembers.prune {t : Instant} (h : Remembers t e log) (hnow : t ≤ now) :
    Remembers now (e.prune now) log where
  apart := h.apart.sublist List.filter_sublist
  ordered r hr := h.ordered r (List.mem_of_mem_filter hr)
  past b hb := (h.past b hb).trans hnow
  kept b hb hfresh := by
    obtain ⟨r, hr, hlo, hhi, htag⟩ := h.kept b hb
      ((Nat.sub_le_sub_right hnow b.tag).trans_lt hfresh)
    refine ⟨r, List.mem_filter.mpr ⟨hr, decide_eq_true ?_⟩, hlo, hhi, htag⟩
    exact (Nat.sub_le_sub_left htag now).trans_lt hfresh

theorem Remembers.mark (h : Remembers now e log) {start stop : ℕ} (hle : start ≤ stop) :
    Remembers now (e.markRequested start stop now) (log ++ [⟨start, stop, now⟩]) := by
  have hwidens := Span.absorb_widens e.requested start stop
  have hnew : ⟨(Span.absorb e.requested start stop).2.1, (Span.absorb e.requested start stop).2.2,
      now⟩ ∈ (e.markRequested start stop now).requested :=
    List.mem_append_right _ List.mem_cons_self
  refine ⟨?_, ?_, ?_, ?_⟩
  · refine List.pairwise_append.mpr
      ⟨h.apart.sublist (Span.absorb_sublist _ _ _), List.pairwise_singleton _ _, ?_⟩
    intro p hp q hq
    rw [List.mem_singleton.mp hq]
    exact (Span.absorb_kept h.apart h.ordered hp).symm
  · intro r hr
    rcases List.mem_append.mp hr with hr | hr
    · exact h.ordered r ((Span.absorb_sublist _ _ _).subset hr)
    · rw [List.mem_singleton.mp hr]
      exact hwidens.1.trans (hle.trans hwidens.2)
  · intro b hb
    rcases List.mem_append.mp hb with hb | hb
    · exact h.past b hb
    · exact (congrArg Span.tag (List.mem_singleton.mp hb)).le
  · intro b hb hfresh
    rcases List.mem_append.mp hb with hb | hb
    · obtain ⟨r, hr, hlo, hhi, htag⟩ := h.kept b hb hfresh
      rcases Span.absorb_removed hr start stop with hkept | ⟨hlo', hhi'⟩
      · exact ⟨r, List.mem_append_left _ hkept, hlo, hhi, htag⟩
      · exact ⟨_, hnew, hlo'.trans hlo, hhi.trans hhi', h.past b hb⟩
    · rw [List.mem_singleton.mp hb]
      exact ⟨_, hnew, hwidens.1, hwidens.2, le_rfl⟩

/-- What no single remembered range covers, the attempts of the last interval do not cover
together. -/
theorem Remembers.uncovered (h : Remembers now e log) {start stop : ℕ} (hlt : start < stop)
    (huncovered : e.covers start stop = false) :
    ¬ ∀ s, start ≤ s → s < stop → ∃ b ∈ log, b.Has s ∧ now - b.tag < e.interval := by
  intro hcover
  obtain ⟨r, hr, hlo, hhi⟩ := Span.exists_covering h.apart hlt fun s hs hs' ↦ by
    obtain ⟨b, hb, ⟨hblo, hbhi⟩, hfresh⟩ := hcover s hs hs'
    obtain ⟨r, hr, hlo, hhi, -⟩ := h.kept b hb hfresh
    exact ⟨r, hr, hlo.trans hblo, hbhi.trans_le hhi⟩
  have hcovers : e.covers start stop = true :=
    List.any_eq_true.mpr ⟨r, hr, by simp [hlo, hhi]⟩
  rw [hcovers] at huncovered
  cases huncovered

/-- No attempt lies inside the attempts made before it within an interval. -/
def Limited (interval : ℕ) (log : List (Span ℕ Instant)) : Prop :=
  ∀ before a after, log = before ++ a :: after →
    ¬ ∀ s, a.Has s → ∃ b ∈ before, b.Has s ∧ a.tag - b.tag < interval

theorem Limited.append {interval : ℕ} (h : Limited interval log) {a : Span ℕ Instant}
    (ha : ¬ ∀ s, a.Has s → ∃ b ∈ log, b.Has s ∧ a.tag - b.tag < interval) :
    Limited interval (log ++ [a]) := by
  intro before c after hlog
  rcases List.eq_nil_or_concat after with rfl | ⟨after, d, rfl⟩
  · obtain ⟨rfl, hlast⟩ := List.append_inj' hlog rfl
    obtain rfl := List.singleton_inj.mp hlast
    exact ha
  · rw [List.concat_eq_append, ← List.cons_append, ← List.append_assoc] at hlog
    exact h before c after (List.append_inj' hlog rfl).1

/-! ## One emission -/

/-- The attempts among some calls. -/
def attempted (now : Instant) (calls : List SendTo) : List (Span ℕ Instant) :=
  calls.filterMap (SendTo.attempt now)

theorem attempted_cons {session : SessionId} {gap : GapRequest} {dest : SocketAddr}
    {result : Except TransportError ℕ} (hresult : result ≠ .error (.io .wouldBlock))
    (calls : List SendTo) :
    attempted now (⟨encodeRequestPacket session gap, dest, result⟩ :: calls) =
      gap.range now :: attempted now calls := by
  have hblocked : SendTo.blocked ⟨encodeRequestPacket session gap, dest, result⟩ = false := by
    unfold SendTo.blocked
    split
    · next h => exact (hresult h).elim
    · rfl
  refine List.filterMap_cons_some ?_
  rw [SendTo.attempt, hblocked, requestedRange_encode]
  rfl

@[simp] theorem attempted_blocked {buf : List UInt8} {dest : SocketAddr} :
    attempted now [⟨buf, dest, .error (.io .wouldBlock)⟩] = [] := rfl

@[simp] theorem attempted_nil : attempted now [] = [] := rfl

variable {session : SessionId} {gaps : List GapRequest} {calls : List SendTo} {ending : Ending}
  {e' : GapRequestEmitter}

theorem Emitted.interval_eq (h : Emitted session now gaps e calls ending e') :
    e'.interval = e.interval := by
  induction h with
  | done => rfl
  | covered _ _ ih => exact ih
  | blocked => rfl
  | failed => rfl
  | sent _ _ _ ih => exact ih

theorem Emitted.remembers (h : Emitted session now gaps e calls ending e')
    (hfits : ∀ gap ∈ gaps, gap.Fits) (hremembers : Remembers now e log) :
    Remembers now e' (log ++ attempted now calls) := by
  induction h generalizing log with
  | done => simpa using hremembers
  | covered _ _ ih => exact ih (List.forall_mem_cons.mp hfits).2 hremembers
  | blocked => simpa using hremembers
  | @failed gap _ e error herror _ =>
      have hgap := (List.forall_mem_cons.mp hfits).1
      rw [attempted_cons (by simpa using herror), attempted_nil, hgap.stop_eq]
      exact hremembers.mark (Nat.le_add_right _ _)
  | @sent gap _ e _ _ _ n _ _ ih =>
      obtain ⟨hgap, hgaps⟩ := List.forall_mem_cons.mp hfits
      rw [attempted_cons (by simp), List.append_cons]
      refine ih hgaps ?_
      rw [hgap.stop_eq]
      exact hremembers.mark (Nat.le_add_right _ _)

theorem Emitted.limited (h : Emitted session now gaps e calls ending e')
    (hfits : ∀ gap ∈ gaps, gap.Fits) (hcount : ∀ gap ∈ gaps, 0 < gap.count.toNat)
    (hremembers : Remembers now e log) (hlimited : Limited e.interval log) :
    Limited e.interval (log ++ attempted now calls) := by
  -- an attempt is made only where no remembered range covers the gap
  have hattempt : ∀ {gap : GapRequest} {e : GapRequestEmitter} {log : List (Span ℕ Instant)},
      gap.Fits → 0 < gap.count.toNat → Remembers now e log →
      e.covers gap.startSeq.toNat (wrappingAdd gap.startSeq.toNat gap.count.toNat) = false →
      Limited e.interval log → Limited e.interval (log ++ [gap.range now]) := by
    intro gap e log hgap hpos hremembers huncovered hlimited
    rw [hgap.stop_eq] at huncovered
    refine hlimited.append fun hcover ↦ ?_
    exact hremembers.uncovered (by omega) huncovered fun s hs hs' ↦ hcover s ⟨hs, hs'⟩
  induction h generalizing log with
  | done => simpa using hlimited
  | covered _ _ ih =>
      exact ih (List.forall_mem_cons.mp hfits).2 (List.forall_mem_cons.mp hcount).2 hremembers
        hlimited
  | blocked => simpa using hlimited
  | @failed gap _ e error herror huncovered =>
      rw [attempted_cons (by simpa using herror), attempted_nil]
      exact hattempt (List.forall_mem_cons.mp hfits).1 (List.forall_mem_cons.mp hcount).1
        hremembers huncovered hlimited
  | @sent gap _ e _ _ _ n huncovered _ ih =>
      obtain ⟨hgap, hgaps⟩ := List.forall_mem_cons.mp hfits
      obtain ⟨hpos, hcounts⟩ := List.forall_mem_cons.mp hcount
      have hmark : Remembers now (e.markRequested gap.startSeq.toNat
          (wrappingAdd gap.startSeq.toNat gap.count.toNat) now) (log ++ [gap.range now]) := by
        rw [hgap.stop_eq]
        exact hremembers.mark (Nat.le_add_right _ _)
      rw [attempted_cons (by simp), List.append_cons]
      have hlimited' : Limited e.interval (log ++ [gap.range now]) :=
        hattempt hgap hpos hremembers huncovered hlimited
      exact ih hgaps hcounts hmark hlimited'

/-- Every attempt is for a gap of the call. -/
theorem Emitted.mem_attempted (h : Emitted session now gaps e calls ending e')
    {a : Span ℕ Instant} (ha : a ∈ attempted now calls) : ∃ gap ∈ gaps, a = gap.range now := by
  induction h with
  | done => cases ha
  | covered _ _ ih =>
      obtain ⟨gap, hgap, rfl⟩ := ih ha
      exact ⟨gap, List.mem_cons_of_mem _ hgap, rfl⟩
  | blocked => cases ha
  | failed error herror _ =>
      rw [attempted_cons (by simpa using herror)] at ha
      exact ⟨_, List.mem_cons_self, List.mem_singleton.mp ha⟩
  | sent n _ _ ih =>
      rw [attempted_cons (by simp)] at ha
      rcases List.mem_cons.mp ha with rfl | ha
      · exact ⟨_, List.mem_cons_self, rfl⟩
      · obtain ⟨gap, hgap, rfl⟩ := ih ha
        exact ⟨gap, List.mem_cons_of_mem _ hgap, rfl⟩

theorem Emitted.exists_blocked (h : Emitted session now gaps e calls ending e')
    (hending : ending = .blocked) : ∃ call ∈ calls, call.blocked = true := by
  induction h with
  | done => cases hending
  | covered _ _ ih => exact ih hending
  | blocked => exact ⟨_, List.mem_cons_self, rfl⟩
  | failed => cases hending
  | sent _ _ _ ih =>
      obtain ⟨call, hcall, hblocked⟩ := ih hending
      exact ⟨call, List.mem_cons_of_mem _ hcall, hblocked⟩

/-! ## The emitter under its caller -/

/-- One call of `emit`, with the answers of the socket to it. -/
structure Emission where
  gaps : List GapRequest
  session : SessionId
  answers : List (Except TransportError ℕ)
  now : Instant

/-- An emitter, every packet it has tried and the time of its last call. -/
structure Requesting where
  emitter : GapRequestEmitter
  log : List (Span ℕ Instant)
  clock : Instant

namespace Requesting

def emit (d : Requesting) (ev : Emission) : Except MoldUdpError ℕ × GapRequestEmitter × Socket :=
  d.emitter.emit ev.gaps ev.session { answers := ev.answers } ev.now

/-- The attempts of one call. -/
def attempts (d : Requesting) (ev : Emission) : List (Span ℕ Instant) :=
  attempted ev.now (d.emit ev).2.2.calls

def next (d : Requesting) (ev : Emission) : Option Requesting :=
  some
    { emitter := (d.emit ev).2.1
      log := d.log ++ d.attempts ev
      clock := ev.now }

def machine : Machine Requesting Emission := .ofNext next

def start (serverAddr : SocketAddr) (maxPerGapPerSec : UInt32) : Requesting where
  emitter := .new serverAddr maxPerGapPerSec
  log := []
  clock := 0

/-- The clock does not go back and no gap passes the last sequence number. -/
def Timely (d : Requesting) (ev : Emission) : Prop :=
  d.clock ≤ ev.now ∧ ∀ gap ∈ ev.gaps, gap.Fits

instance (d : Requesting) (ev : Emission) : Decidable (d.Timely ev) :=
  inferInstanceAs (Decidable (_ ∧ _))

/-- As `Timely`, with no gap empty. -/
def Proper (d : Requesting) (ev : Emission) : Prop :=
  d.Timely ev ∧ ∀ gap ∈ ev.gaps, 0 < gap.count.toNat

instance (d : Requesting) (ev : Emission) : Decidable (d.Proper ev) :=
  inferInstanceAs (Decidable (_ ∧ _))

theorem emit_emitted (d : Requesting) (ev : Emission) : ∃ ending,
    Emitted ev.session ev.now ev.gaps (d.emitter.prune ev.now) (d.emit ev).2.2.calls ending
      (d.emit ev).2.1 ∧ GapRequestEmitter.Returns ending (d.emit ev).1 := by
  obtain ⟨calls, ending, hemitted, hcalls, hreturns⟩ := GapRequestEmitter.emitLoop_emitted
    ev.session ev.now ev.gaps (d.emitter.prune ev.now) { answers := ev.answers } 0
  rw [List.nil_append] at hcalls
  exact ⟨ending, hcalls ▸ hemitted, hreturns⟩

theorem interval_next {d d' : Requesting} {ev : Emission} (hnext : d.next ev = some d') :
    d'.emitter.interval = d.emitter.interval := by
  cases hnext
  obtain ⟨ending, hemitted, -⟩ := d.emit_emitted ev
  exact hemitted.interval_eq

theorem remembers_next {d d' : Requesting} {ev : Emission}
    (h : Remembers d.clock d.emitter d.log) (htimely : d.Timely ev)
    (hnext : d.next ev = some d') : Remembers d'.clock d'.emitter d'.log := by
  cases hnext
  obtain ⟨ending, hemitted, -⟩ := d.emit_emitted ev
  exact hemitted.remembers htimely.2 (h.prune htimely.1)

theorem remembers_start (serverAddr : SocketAddr) (maxPerGapPerSec : UInt32) :
    Remembers 0 (start serverAddr maxPerGapPerSec).emitter [] :=
  ⟨.nil, nofun, nofun, nofun⟩

/-- What limits the attempts of a state and of every call from it. -/
structure Limits (interval : ℕ) (d : Requesting) : Prop where
  interval_eq : d.emitter.interval = interval
  remembers : Remembers d.clock d.emitter d.log
  limited : Limited interval d.log

theorem Limits.next {interval : ℕ} {d d' : Requesting} {ev : Emission} (h : d.Limits interval)
    (hproper : d.Proper ev) (hnext : d.next ev = some d') : d'.Limits interval := by
  refine ⟨(interval_next hnext).trans h.interval_eq, remembers_next h.remembers hproper.1 hnext, ?_⟩
  cases hnext
  obtain ⟨ending, hemitted, -⟩ := d.emit_emitted ev
  have hlimited := hemitted.limited hproper.1.2 hproper.2 (h.remembers.prune hproper.1.1)
    (h.interval_eq.symm ▸ h.limited)
  exact h.interval_eq ▸ hlimited

theorem log_isPrefix {allowed : Requesting → Emission → Prop} {d d' : Requesting}
    (hrun : machine.Run allowed d d') : d.log <+: d'.log :=
  hrun.invariant (I := fun d' ↦ d.log <+: d'.log) List.prefix_rfl fun _ _ _ h _ hstep ↦ by
    cases hstep
    exact h.trans (List.prefix_append _ _)

/-- Re-requests are limited by coverage.  A request packet is tried only for a range that
the packets tried within the last interval do not cover together; so, behind a call that has
tried every sequence of its gaps, gaps made of the same sequences cause no packet for an
interval.  The interval is a second divided by `max_per_gap_per_sec` in whole nanoseconds, as
`Duration` divides: above 10 ^ 9 per second it is zero and limits nothing. -/
theorem requests_rate_limited {serverAddr : SocketAddr} {maxPerGapPerSec : UInt32}
    {d : Requesting} (hrun : machine.Run Proper (start serverAddr maxPerGapPerSec) d) :
    Limited (10 ^ 9 / max maxPerGapPerSec.toNat 1) d.log ∧
    ∀ ev d₁ d₂ ev' d₃, d.Proper ev → d.next ev = some d₁ →
      (∀ gap ∈ ev.gaps, ∀ s, gap.Has s → ∃ b ∈ d.attempts ev, b.Has s) →
      machine.Run Proper d₁ d₂ → d₂.Proper ev' → d₂.next ev' = some d₃ →
      ev'.now - ev.now < 10 ^ 9 / max maxPerGapPerSec.toNat 1 →
      (∀ gap ∈ ev'.gaps, ∀ s, gap.Has s → ∃ gap' ∈ ev.gaps, gap'.Has s) →
      d₃.log = d₂.log := by
  have hlimits : ∀ {d}, machine.Run Proper (start serverAddr maxPerGapPerSec) d →
      d.Limits (10 ^ 9 / max maxPerGapPerSec.toNat 1) := fun hrun ↦
    hrun.invariant ⟨rfl, remembers_start serverAddr maxPerGapPerSec, fun before a after h ↦ by
      simp [start] at h⟩ fun _ _ _ h hproper hstep ↦ h.next hproper hstep
  refine ⟨(hlimits hrun).limited, ?_⟩
  intro ev d₁ d₂ ev' d₃ hproper hnext hall hrun₂ hproper' hnext' hsoon hsame
  have hrun₃ := ((hrun.tail ev hproper hnext).trans hrun₂).tail ev' hproper' hnext'
  have hlimited := (hlimits hrun₃).limited
  have hlog₁ : d₁.log = d.log ++ d.attempts ev := by
    cases hnext
    rfl
  have hlog₃ : d₃.log = d₂.log ++ d₂.attempts ev' := by
    cases hnext'
    rfl
  cases hnew : d₂.attempts ev' with
  | nil => rw [hlog₃, hnew, List.append_nil]
  | cons a rest =>
      -- the first attempt lies inside those of the earlier call
      exfalso
      rw [hlog₃, hnew] at hlimited
      refine hlimited d₂.log a rest rfl fun s hs ↦ ?_
      obtain ⟨ending, hemitted, -⟩ := d₂.emit_emitted ev'
      obtain ⟨gap, hgap, rfl⟩ := hemitted.mem_attempted (a := a)
        (by change a ∈ d₂.attempts ev'; rw [hnew]; exact List.mem_cons_self)
      obtain ⟨gap', hgap', hs'⟩ := hsame gap hgap s hs
      obtain ⟨b, hb, hbs⟩ := hall gap' hgap' s hs'
      obtain ⟨ending₁, hemitted₁, -⟩ := d.emit_emitted ev
      obtain ⟨gap₁, -, rfl⟩ := hemitted₁.mem_attempted hb
      refine ⟨_, (log_isPrefix hrun₂).subset ?_, hbs, hsoon⟩
      rw [hlog₁]
      exact List.mem_append_right _ hb

/-- Where the emitter of the samples sends its packets. -/
def sampleServer : SocketAddr := ⟨[127, 0, 0, 1], 9000⟩

def sampleSessionId : SessionId := ⟨List.replicate 10 0x41, rfl⟩

/-- A call whose packets all go out. -/
def sampleEmission (gaps : List GapRequest) (now : Instant) : Emission :=
  ⟨gaps, sampleSessionId, [], now⟩

/-- Two chunks go out; half an interval later the range across both does not. -/
theorem requests_rate_limited_spanning :
    ∃ d ∈ Machine.follow next (start sampleServer 1)
        [sampleEmission [⟨100, 50⟩, ⟨150, 50⟩] 0, sampleEmission [⟨120, 60⟩] 500000000],
      d.log = [⟨100, 150, 0⟩, ⟨150, 200, 0⟩] ∧ Limited (10 ^ 9 / max 1 1) d.log := by
  have hend : ∃ d ∈ Machine.follow next (start sampleServer 1)
        [sampleEmission [⟨100, 50⟩, ⟨150, 50⟩] 0, sampleEmission [⟨120, 60⟩] 500000000],
      d.log = [⟨100, 150, 0⟩, ⟨150, 200, 0⟩] := by decide +kernel
  obtain ⟨d, hd, hlog⟩ := hend
  have hallowed : Machine.AllowedAlong next Proper (start sampleServer 1)
      [sampleEmission [⟨100, 50⟩, ⟨150, 50⟩] 0, sampleEmission [⟨120, 60⟩] 500000000] := by
    decide +kernel
  exact ⟨d, hd, hlog, (requests_rate_limited (.of_follow hallowed hd)).1⟩

end Requesting

/-! ## Retrying what is due -/

/-- Each remembered range is made of attempts at the time it is stamped with. -/
def Exact (e : GapRequestEmitter) (log : List (Span ℕ Instant)) : Prop :=
  ∀ r ∈ e.requested, ∀ s, r.Has s → ∃ b ∈ log, b.Has s ∧ b.tag = r.tag

/-- Marking a range that touches only ranges of the same time. -/
theorem Exact.mark (h : Exact e log) (hremembers : Remembers now e log) {start stop : ℕ}
    (htouch : ∀ r ∈ e.requested, ¬ (stop < r.lo ∨ r.hi < start) → r.tag = now) :
    Exact (e.markRequested start stop now) (log ++ [⟨start, stop, now⟩]) := by
  intro r hr s hs
  rcases List.mem_append.mp hr with hr | hr
  · obtain ⟨b, hb, hbs⟩ := h r ((Span.absorb_sublist _ _ _).subset hr) s hs
    exact ⟨b, List.mem_append_left _ hb, hbs⟩
  · obtain rfl := List.mem_singleton.mp hr
    rcases Span.absorb_covers hremembers.apart hremembers.ordered hs.1 hs.2 with
      hs' | ⟨p, hp, hps, hpt⟩
    · exact ⟨_, List.mem_append_right _ List.mem_cons_self, hs', rfl⟩
    · obtain ⟨b, hb, hbs, hbt⟩ := h p hp s hps
      exact ⟨b, List.mem_append_left _ hb, hbs, hbt.trans (htouch p hp hpt)⟩

/-- The gap lies in one of the ranges `old`, or apart from each of them that is of an earlier
time. -/
def GapRequest.Steady (now : Instant) (old : List (Span ℕ Instant)) (gap : GapRequest) : Prop :=
  (∃ r ∈ old, r.lo ≤ gap.startSeq.toNat ∧ gap.startSeq.toNat + gap.count.toNat ≤ r.hi) ∨
    ∀ r ∈ old, r.tag = now ∨ r.Apart (gap.range now)

instance (now : Instant) (old : List (Span ℕ Instant)) (gap : GapRequest) :
    Decidable (gap.Steady now old) :=
  inferInstanceAs (Decidable (_ ∨ _))

/-- What a call of `emit` starts from, as far as retries go: the ranges are exact, all of
them fresh, those of an earlier time are among `old`, and each of `old` lies in one of them. -/
structure Steadies (now : Instant) (old : List (Span ℕ Instant)) (e : GapRequestEmitter)
    (log : List (Span ℕ Instant)) : Prop where
  remembers : Remembers now e log
  exact : Exact e log
  fresh : ∀ r ∈ e.requested, now - r.tag < e.interval
  kept : ∀ r ∈ old, ∃ r' ∈ e.requested, r'.lo ≤ r.lo ∧ r.hi ≤ r'.hi
  old : ∀ r ∈ e.requested, r.tag = now ∨ r ∈ old

/-- A gap that is not covered lies in no old range, so it touches none of an earlier time. -/
theorem Steadies.apart {old : List (Span ℕ Instant)} (h : Steadies now old e log)
    {gap : GapRequest} (hfits : gap.Fits) (hsteady : gap.Steady now old)
    (huncovered : e.covers gap.startSeq.toNat
      (wrappingAdd gap.startSeq.toNat gap.count.toNat) = false) :
    ∀ r ∈ old, r.tag = now ∨ r.Apart (gap.range now) := by
  refine hsteady.resolve_left ?_
  rintro ⟨r, hr, hlo, hhi⟩
  obtain ⟨r', hr', hlo', hhi'⟩ := h.kept r hr
  have hcovers : e.covers gap.startSeq.toNat (gap.startSeq.toNat + gap.count.toNat) = true :=
    List.any_eq_true.mpr ⟨r', hr', by simp [hlo'.trans hlo, hhi.trans hhi']⟩
  rw [hfits.stop_eq, hcovers] at huncovered
  cases huncovered

theorem Steadies.mark {old : List (Span ℕ Instant)} (h : Steadies now old e log)
    (hinterval : 0 < e.interval) {gap : GapRequest}
    (hapart : ∀ r ∈ old, r.tag = now ∨ r.Apart (gap.range now)) :
    Steadies now old (e.markRequested gap.startSeq.toNat
      (gap.startSeq.toNat + gap.count.toNat) now) (log ++ [gap.range now]) := by
  refine ⟨h.remembers.mark (Nat.le_add_right _ _), h.exact.mark h.remembers ?_, ?_, ?_, ?_⟩
  · intro r hr htouch
    rcases h.old r hr with hnow | hold
    · exact hnow
    · exact (hapart r hold).resolve_right fun hr ↦ htouch hr.symm
  · intro r hr
    rcases List.mem_append.mp hr with hr | hr
    · exact h.fresh r ((Span.absorb_sublist _ _ _).subset hr)
    · obtain rfl := List.mem_singleton.mp hr
      exact (Nat.sub_self now).trans_lt hinterval
  · intro r hr
    obtain ⟨r', hr', hlo, hhi⟩ := h.kept r hr
    rcases Span.absorb_removed hr' gap.startSeq.toNat
      (gap.startSeq.toNat + gap.count.toNat) with hkept | ⟨hlo', hhi'⟩
    · exact ⟨r', List.mem_append_left _ hkept, hlo, hhi⟩
    · exact ⟨_, List.mem_append_right _ List.mem_cons_self, hlo'.trans hlo, hhi.trans hhi'⟩
  · intro r hr
    rcases List.mem_append.mp hr with hr | hr
    · exact h.old r ((Span.absorb_sublist _ _ _).subset hr)
    · obtain rfl := List.mem_singleton.mp hr
      exact Or.inl rfl

theorem Emitted.steadies {old : List (Span ℕ Instant)}
    (h : Emitted session now gaps e calls ending e') (hfits : ∀ gap ∈ gaps, gap.Fits)
    (hinterval : 0 < e.interval) (hsteady : ∀ gap ∈ gaps, gap.Steady now old)
    (hsteadies : Steadies now old e log) :
    Steadies now old e' (log ++ attempted now calls) := by
  induction h generalizing log with
  | done => simpa using hsteadies
  | covered _ _ ih =>
      exact ih (List.forall_mem_cons.mp hfits).2 hinterval (List.forall_mem_cons.mp hsteady).2
        hsteadies
  | blocked => simpa using hsteadies
  | @failed gap _ e error herror huncovered =>
      have hgap := (List.forall_mem_cons.mp hfits).1
      rw [attempted_cons (by simpa using herror), attempted_nil, hgap.stop_eq]
      exact hsteadies.mark hinterval
        (hsteadies.apart hgap (List.forall_mem_cons.mp hsteady).1 huncovered)
  | @sent gap _ e _ _ _ n huncovered _ ih =>
      obtain ⟨hgap, hgaps⟩ := List.forall_mem_cons.mp hfits
      obtain ⟨hfirst, hrest⟩ := List.forall_mem_cons.mp hsteady
      rw [attempted_cons (by simp), List.append_cons]
      refine ih hgaps hinterval hrest ?_
      rw [hgap.stop_eq]
      exact hsteadies.mark hinterval (hsteadies.apart hgap hfirst huncovered)

/-- A call that comes to its end leaves no sequence of its gaps without a fresh attempt. -/
theorem Emitted.served {old : List (Span ℕ Instant)}
    (h : Emitted session now gaps e calls ending e') (hending : ending = .finished)
    (hfits : ∀ gap ∈ gaps, gap.Fits) (hinterval : 0 < e.interval)
    (hsteady : ∀ gap ∈ gaps, gap.Steady now old) (hsteadies : Steadies now old e log) :
    ∀ gap ∈ gaps, ∀ s, gap.Has s →
      ∃ b ∈ log ++ attempted now calls, b.Has s ∧ now - b.tag < e.interval := by
  induction h generalizing log with
  | done => exact nofun
  | @covered gap gaps e _ _ _ hcovers _ ih =>
      obtain ⟨hgap, hgaps⟩ := List.forall_mem_cons.mp hfits
      rw [List.forall_mem_cons]
      refine ⟨fun s hs ↦ ?_,
        ih hending hgaps hinterval (List.forall_mem_cons.mp hsteady).2 hsteadies⟩
      -- one remembered range holds the whole gap, and it is fresh
      rw [hgap.stop_eq] at hcovers
      obtain ⟨r, hr, hcover⟩ := List.any_eq_true.mp hcovers
      rw [Bool.and_eq_true, decide_eq_true_iff, decide_eq_true_iff] at hcover
      obtain ⟨b, hb, hbs, hbt⟩ := hsteadies.exact r hr s
        ⟨hcover.1.trans hs.1, hs.2.trans_le hcover.2⟩
      exact ⟨b, List.mem_append_left _ hb, hbs, hbt ▸ hsteadies.fresh r hr⟩
  | blocked => cases hending
  | failed => cases hending
  | @sent gap gaps e _ _ _ n huncovered _ ih =>
      obtain ⟨hgap, hgaps⟩ := List.forall_mem_cons.mp hfits
      obtain ⟨hfirst, hrest⟩ := List.forall_mem_cons.mp hsteady
      rw [attempted_cons (by simp), List.forall_mem_cons, List.append_cons]
      refine ⟨fun s hs ↦ ⟨gap.range now, by simp, hs, ?_⟩, ?_⟩
      · exact (Nat.sub_self now).trans_lt hinterval
      · refine ih hending hgaps hinterval hrest ?_
        rw [hgap.stop_eq]
        exact hsteadies.mark hinterval (hsteadies.apart hgap hfirst huncovered)

namespace Requesting

/-- The ranges remembered from less than an interval before `now`. -/
def recent (d : Requesting) (now : Instant) : List (Span ℕ Instant) :=
  d.emitter.requested.filter fun r ↦ now - r.tag < d.emitter.interval

/-- Each gap of the call lies in one range that is still remembered, or apart from every such
range of an earlier time. -/
def Steady (d : Requesting) (ev : Emission) : Prop :=
  ∀ gap ∈ ev.gaps, gap.Steady ev.now (d.recent ev.now)

instance (d : Requesting) (ev : Emission) : Decidable (d.Steady ev) :=
  inferInstanceAs (Decidable (∀ gap ∈ ev.gaps, _))

/-- The call returned `Ok` and no send met a full socket buffer. -/
def Completes (d : Requesting) (ev : Emission) : Prop :=
  (d.emit ev).1.isOk = true ∧ ∀ call ∈ (d.emit ev).2.2.calls, call.blocked = false

instance (d : Requesting) (ev : Emission) : Decidable (d.Completes ev) :=
  inferInstanceAs (Decidable (_ ∧ _))

theorem Completes.finished {d : Requesting} {ev : Emission} (h : d.Completes ev) :
    Emitted ev.session ev.now ev.gaps (d.emitter.prune ev.now) (d.emit ev).2.2.calls .finished
      (d.emit ev).2.1 := by
  obtain ⟨hok, hblocked⟩ := h
  obtain ⟨ending, hemitted, hreturns⟩ := d.emit_emitted ev
  cases ending with
  | finished => exact hemitted
  | blocked =>
      obtain ⟨call, hcall, htrue⟩ := hemitted.exists_blocked rfl
      rw [hblocked call hcall] at htrue
      cases htrue
  | failed error =>
      rw [show (d.emit ev).1 = .error (.transport error) from hreturns] at hok
      cases hok

/-- The remembered ranges of a state are exact. -/
structure Steadied (interval : ℕ) (d : Requesting) : Prop where
  interval_eq : d.emitter.interval = interval
  remembers : Remembers d.clock d.emitter d.log
  exact : Exact d.emitter d.log

theorem steadied_start (serverAddr : SocketAddr) (maxPerGapPerSec : UInt32) :
    (start serverAddr maxPerGapPerSec).Steadied (10 ^ 9 / max maxPerGapPerSec.toNat 1) where
  interval_eq := rfl
  remembers := remembers_start serverAddr maxPerGapPerSec
  exact := List.forall_mem_nil _

/-- What a call starts from once it has forgotten what is old. -/
theorem Steadied.prune {interval : ℕ} {d : Requesting} {ev : Emission} (h : d.Steadied interval)
    (htimely : d.Timely ev) :
    Steadies ev.now (d.recent ev.now) (d.emitter.prune ev.now) d.log where
  remembers := h.remembers.prune htimely.1
  exact r hr := h.exact r (List.mem_of_mem_filter hr)
  fresh _ hr := of_decide_eq_true (List.mem_filter.mp hr).2
  old _ hr := Or.inr hr
  kept r hr := ⟨r, hr, le_rfl, le_rfl⟩

theorem Steadied.next {interval : ℕ} (hinterval : 0 < interval) {d d' : Requesting}
    {ev : Emission} (h : d.Steadied interval) (htimely : d.Timely ev) (hsteady : d.Steady ev)
    (hnext : d.next ev = some d') : d'.Steadied interval := by
  refine ⟨(interval_next hnext).trans h.interval_eq, remembers_next h.remembers htimely hnext, ?_⟩
  cases hnext
  obtain ⟨ending, hemitted, -⟩ := d.emit_emitted ev
  exact (hemitted.steadies htimely.2 (h.interval_eq.symm ▸ hinterval) hsteady
    (h.prune htimely)).exact

/-- Retries.  As long as every gap that is in none of the ranges still remembered lies apart
from those of an earlier time, a call that returns `Ok` and met no full socket buffer leaves
every sequence of its gaps in a packet tried within the last interval. -/
theorem retried_within_interval {serverAddr : SocketAddr} {maxPerGapPerSec : UInt32}
    {d d' : Requesting} {ev : Emission} (hmax : maxPerGapPerSec.toNat ≤ 10 ^ 9)
    (hrun : machine.Run (fun d ev ↦ d.Timely ev ∧ d.Steady ev)
      (start serverAddr maxPerGapPerSec) d)
    (htimely : d.Timely ev) (hsteady : d.Steady ev) (hcompletes : d.Completes ev)
    (hnext : d.next ev = some d') :
    ∀ gap ∈ ev.gaps, ∀ s, gap.Has s →
      ∃ b ∈ d'.log, b.Has s ∧ ev.now - b.tag < 10 ^ 9 / max maxPerGapPerSec.toNat 1 := by
  have hinterval : 0 < 10 ^ 9 / max maxPerGapPerSec.toNat 1 :=
    Nat.div_pos (max_le hmax (by norm_num)) (by omega)
  have hsteadied : d.Steadied (10 ^ 9 / max maxPerGapPerSec.toNat 1) :=
    hrun.invariant (steadied_start serverAddr maxPerGapPerSec)
      fun _ _ _ h hallowed hstep ↦ h.next hinterval hallowed.1 hallowed.2 hstep
  have hserved := hcompletes.finished.served rfl htimely.2 (hsteadied.interval_eq.symm ▸ hinterval)
    hsteady (hsteadied.prune htimely)
  cases hnext
  intro gap hgap s hs
  obtain ⟨b, hb, hbs, hfresh⟩ := hserved gap hgap s hs
  exact ⟨b, hb, hbs, hsteadied.interval_eq ▸ hfresh⟩

/-- Two ranges with a sequence between them are requested half an interval apart; each is
skipped while its own attempt is fresh. -/
theorem retried_within_interval_apart :
    ∃ d ∈ Machine.follow next (start sampleServer 1)
        [sampleEmission [⟨100, 50⟩] 0, sampleEmission [⟨100, 50⟩, ⟨151, 9⟩] 500000000],
      d.Completes (sampleEmission [⟨100, 50⟩, ⟨151, 9⟩] 900000000) ∧
      ∃ b ∈ d.log ++ d.attempts (sampleEmission [⟨100, 50⟩, ⟨151, 9⟩] 900000000),
        b.Has 149 ∧ 900000000 - b.tag < 10 ^ 9 / max 1 1 := by
  have hend : ∃ d ∈ Machine.follow next (start sampleServer 1)
        [sampleEmission [⟨100, 50⟩] 0, sampleEmission [⟨100, 50⟩, ⟨151, 9⟩] 500000000],
      d.Completes (sampleEmission [⟨100, 50⟩, ⟨151, 9⟩] 900000000) ∧
      d.Timely (sampleEmission [⟨100, 50⟩, ⟨151, 9⟩] 900000000) ∧
      d.Steady (sampleEmission [⟨100, 50⟩, ⟨151, 9⟩] 900000000) := by decide +kernel
  obtain ⟨d, hd, hcompletes, htimely, hsteady⟩ := hend
  have hallowed : Machine.AllowedAlong next (fun d ev ↦ d.Timely ev ∧ d.Steady ev)
      (start sampleServer 1)
      [sampleEmission [⟨100, 50⟩] 0, sampleEmission [⟨100, 50⟩, ⟨151, 9⟩] 500000000] := by
    decide +kernel
  exact ⟨d, hd, hcompletes, retried_within_interval (by decide) (.of_follow hallowed hd) htimely
    hsteady hcompletes rfl ⟨100, 50⟩ (by decide) 149 (by decide)⟩

/-- Sequence 2 is requested nine tenths of an interval behind sequence 1 and next to it: half
an interval later 1 is skipped, one and a half intervals after its only attempt. -/
theorem neighbour_postpones_retry :
    ∃ d ∈ Machine.follow next (start sampleServer 1)
        [sampleEmission [⟨1, 1⟩] 0, sampleEmission [⟨1, 1⟩, ⟨2, 1⟩] 900000000],
      d.Timely (sampleEmission [⟨1, 1⟩] 1500000000) ∧
      d.Completes (sampleEmission [⟨1, 1⟩] 1500000000) ∧
      ∀ b ∈ d.log ++ d.attempts (sampleEmission [⟨1, 1⟩] 1500000000),
        b.Has 1 → 10 ^ 9 / max 1 1 ≤ 1500000000 - b.tag := by
  decide +kernel

end Requesting

end MoldUdp
