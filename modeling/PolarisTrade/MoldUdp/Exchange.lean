import PolarisTrade.MoldUdp.Accounting
import PolarisTrade.MoldUdp.Chunks
import PolarisTrade.MoldUdp.Complete
import PolarisTrade.MoldUdp.RateLimit

/-!
# The recovery exchange

Requests go out for what is missing, the server answers them in order, and the answers come
back through the requester's socket while the legs go on.  Requests name missing numbers
only; once all of them are answered, everything up to the mark at which they were sent has
been delivered.
-/

namespace MoldUdp

open Transport Word

variable {F : Type}

/-! ## The requests -/

namespace Emitted

variable {session : SessionId} {now : Instant} {gaps : List GapRequest}
  {e e' : GapRequestEmitter} {calls : List SendTo} {ending : Ending}

/-- Packets are tried for gaps of the call, in their order. -/
theorem sublist (h : Emitted session now gaps e calls ending e') :
    (calls.map SendTo.buf).Sublist (gaps.map (encodeRequestPacket session)) ∧
      ∀ call ∈ calls, call.dest = e.serverAddr := by
  induction h with
  | done => exact ⟨.slnil, by simp⟩
  | covered _ _ ih => exact ⟨ih.1.cons _, ih.2⟩
  | blocked => exact ⟨List.singleton_sublist.mpr List.mem_cons_self, by simp⟩
  | failed => exact ⟨List.singleton_sublist.mpr List.mem_cons_self, by simp⟩
  | sent _ _ _ ih => exact ⟨ih.1.cons_cons _, List.forall_mem_cons.mpr ⟨rfl, ih.2⟩⟩

/-- An emitter that remembers nothing beyond the first gap tries every gap, unless a packet
does not go out. -/
theorem map_buf_eq (h : Emitted session now gaps e calls ending e')
    (hgaps : ∀ gap ∈ gaps, gap.Fits ∧ 0 < gap.count.toNat)
    (hbefore : gaps.Pairwise GapRequest.Before)
    (hpast : ∀ r ∈ e.requested, ∀ gap ∈ gaps, r.hi ≤ gap.startSeq.toNat)
    (hok : ∀ call ∈ calls, ∃ n, call.result = .ok n) :
    calls.map SendTo.buf = gaps.map (encodeRequestPacket session) := by
  induction h with
  | done => rfl
  | @covered gap gaps e _ _ _ hcovers _ ih =>
      obtain ⟨hfits, hpos⟩ := hgaps gap List.mem_cons_self
      rw [hfits.stop_eq] at hcovers
      obtain ⟨r, hr, hcover⟩ := List.any_eq_true.mp hcovers
      rw [Bool.and_eq_true, decide_eq_true_iff, decide_eq_true_iff] at hcover
      have hle := hpast r hr gap List.mem_cons_self
      omega
  | blocked =>
      obtain ⟨n, hn⟩ := hok _ List.mem_cons_self
      cases hn
  | failed =>
      obtain ⟨n, hn⟩ := hok _ List.mem_cons_self
      cases hn
  | @sent gap gaps e _ _ _ n _ _ ih =>
      obtain ⟨hgap, hrest⟩ := List.forall_mem_cons.mp hgaps
      obtain ⟨hfirst, hbefore⟩ := List.pairwise_cons.mp hbefore
      rw [List.map_cons, List.map_cons, ih hrest hbefore ?_ (List.forall_mem_cons.mp hok).2]
      intro r hr gap' hgap'
      have hnext : gap.startSeq.toNat + gap.count.toNat ≤ gap'.startSeq.toNat := hfirst gap' hgap'
      rcases List.mem_append.mp hr with hr | hr
      · exact hpast r ((Span.absorb_sublist _ _ _).subset hr) gap' (List.mem_cons_of_mem _ hgap')
      · obtain rfl := List.mem_singleton.mp hr
        refine Span.absorb_hi_le
          (fun r hr ↦ hpast r hr gap' (List.mem_cons_of_mem _ hgap')) ?_
        rw [hgap.1.stop_eq]
        exact hnext

end Emitted

/-- What `send_due` does to the socket. -/
theorem sendDue_emitted (e : GapRequestEmitter) (session : SessionId) (g : GapRequestHandler)
    (sock : Socket) (now : Instant) : ∃ calls ending,
      Emitted session now g.pendingGaps (e.prune now) calls ending
        (sendDue e session g sock now).1 ∧
      (sendDue e session g sock now).2.calls = sock.calls ++ calls := by
  obtain ⟨calls, ending, hemitted, hcalls, -⟩ :=
    GapRequestEmitter.emitLoop_emitted session now g.pendingGaps (e.prune now) sock 0
  exact ⟨calls, ending, hemitted, hcalls⟩

/-- The range read off a packet is that of a gap of the call. -/
theorem Emitted.exists_gap {session : SessionId} {now : Instant} {gaps : List GapRequest}
    {e e' : GapRequestEmitter} {calls : List SendTo} {ending : Ending}
    (h : Emitted session now gaps e calls ending e') {call : SendTo} (hcall : call ∈ calls) :
    ∃ gap ∈ gaps, call.buf = encodeRequestPacket session gap := by
  have hmem := h.sublist.1.subset (List.mem_map_of_mem hcall)
  obtain ⟨gap, hgap, heq⟩ := List.mem_map.mp hmem
  exact ⟨gap, hgap, heq.symm⟩

section Requests

variable [AsRef F]

/-- Only missing numbers are requested.  As long as the numbers of every datagram fit in a `u64`
and no insert is refused, every packet `send_due` tries, whatever the emitter remembers and
whatever the socket answers, goes to the server under the session's name and asks for at least
one number, all of them tracked as missing, not had, and between `expected_next` and
`next_unseen`; no two packets of a call ask for the same number. -/
theorem requests_name_missing {cfg : MoldUdpReceiverConfig} {legs : List Leg} {inner : Inner F}
    {s : Session F} (hnew : fromLegs cfg legs = .ok inner)
    (hrun : (machine F).Run Session.Accountable (Session.start inner) s)
    (e : GapRequestEmitter) (session : SessionId) (sock : Socket) (now : Instant) :
    ∃ calls, (sendDue e session s.inner.gapHandler sock now).2.calls = sock.calls ++ calls ∧
      (∀ call ∈ calls, call.dest = e.serverAddr ∧ call.buf.take 10 = session.1 ∧
        (requestedRange call.buf now).lo < (requestedRange call.buf now).hi ∧
        ∀ n, (requestedRange call.buf now).Has n → s.inner.gapHandler.Tracks n ∧ ¬ s.inner.Has n ∧
          s.inner.reassembler.expectedNext ≤ n ∧ n < s.inner.nextUnseen) ∧
      calls.Pairwise fun a b ↦
        (requestedRange a.buf now).hi ≤ (requestedRange b.buf now).lo := by
  have htracking := tracking_of_run hnew hrun
  obtain ⟨hspec, htracks⟩ := pendingGaps_spec htracking.gaps
  obtain ⟨calls, ending, hemitted, hcalls⟩ :=
    sendDue_emitted e session s.inner.gapHandler sock now
  refine ⟨calls, hcalls, fun call hcall ↦ ?_, ?_⟩
  · obtain ⟨gap, hgap, hbuf⟩ := hemitted.exists_gap hcall
    rw [hbuf, requestedRange_encode]
    refine ⟨hemitted.sublist.2 call hcall, ?_, ?_, fun n hn ↦ ?_⟩
    · rw [encodeRequestPacket, List.append_assoc]
      exact List.take_left' session.2
    · have := (hspec gap hgap).2
      simp only [GapRequest.range]
      omega
    · have htracked := (htracks n).mp ⟨gap, hgap, hn⟩
      have hanchored : s.inner.seqAnchored = true := by
        by_contra hblank
        exact (htracking.blank (Bool.eq_false_of_not_eq_true hblank) n).1 htracked
      have hmissing := ((ledger_of_run hnew hrun).accounts hanchored).missing n (Or.inl htracked)
      refine ⟨htracked, hmissing, ?_, htracking.tracked n htracked⟩
      by_contra hlt
      exact hmissing (Or.inl (Nat.lt_of_not_le hlt))
  · have hranges : ((s.inner.gapHandler.pendingGaps.map (encodeRequestPacket session))).Pairwise
        fun a b ↦ (requestedRange a now).hi ≤ (requestedRange b now).lo := by
      rw [List.pairwise_map]
      refine htracking.gaps.pairwise_before.imp fun {a b} hab ↦ ?_
      rw [requestedRange_encode, requestedRange_encode]
      exact hab
    exact List.pairwise_map.mp (hranges.sublist hemitted.sublist.1)

end Requests

/-- With 1 and 2 missing, one packet asks for both. -/
theorem requests_name_missing_jump :
    ∃ s : Session (List UInt8),
      Machine.follow Session.next (Session.start sampleOneLeg) sampleJump = some s ∧
      (sendDue (.new Requesting.sampleServer 1) sampleSession s.inner.gapHandler
        ⟨[], []⟩ 0).2.calls.map SendTo.buf = [encodeRequestPacket sampleSession ⟨1, 2⟩] ∧
      ∀ call ∈ (sendDue (.new Requesting.sampleServer 1) sampleSession s.inner.gapHandler
        ⟨[], []⟩ 0).2.calls, ∀ n, (requestedRange call.buf 0).Has n → ¬ s.inner.Has n := by
  have hend : ∃ s ∈ Machine.follow Session.next (Session.start sampleOneLeg) sampleJump,
      (sendDue (.new Requesting.sampleServer 1) sampleSession s.inner.gapHandler
        ⟨[], []⟩ 0).2.calls.map SendTo.buf = [encodeRequestPacket sampleSession ⟨1, 2⟩] := by
    decide +kernel
  obtain ⟨s, hs, hbuf⟩ := hend
  have hallowed : Machine.AllowedAlong Session.next Session.Accountable
      (Session.start sampleOneLeg) sampleJump := by decide +kernel
  obtain ⟨calls, hcalls, hnamed, -⟩ := @requests_name_missing _ _ { startSequence := some 1 }
    [⟨minLegPoolCapacity⟩] _ _ rfl (Machine.Run.of_follow hallowed hs)
    (.new Requesting.sampleServer 1) sampleSession ⟨[], []⟩ 0
  rw [List.nil_append] at hcalls
  refine ⟨s, hs, hbuf, fun call hcall n hn ↦ ?_⟩
  rw [hcalls] at hcall
  exact ((hnamed call hcall).2.2.2 n hn).2.1

/-! ## The answers -/

section Answers

variable [AsRef F]

/-- A whole data datagram of the stream `m`, which ends at `top`. -/
structure Bears (session : SessionId) (m : ℕ → List UInt8) (top : ℕ) (p : UInt8 × Held F)
    (header : DownstreamHeader) : Prop where
  parse : parseHeader p.2.asRef = .ok header
  session : header.session = session
  kind : header.kind = .data
  whole : (numberBlocks header.sequence (header.blocks p.2.asRef)).2 = .ok ()
  le : header.sequence + header.messageCount ≤ top + 1
  payload : ∀ b ∈ (numberBlocks header.sequence (header.blocks p.2.asRef)).1,
    slice p.2.asRef b.offset b.len = some (m b.seq)

/-- Datagrams that carry `[lo, hi)` in order, each starting where the one before it ends. -/
def Retransmits (session : SessionId) (m : ℕ → List UInt8) (top : ℕ) :
    ℕ → ℕ → List (UInt8 × Held F) → Prop
  | lo, hi, [] => lo = hi
  | lo, hi, p :: rest => ∃ header, Bears session m top p header ∧ header.sequence = lo ∧
      Retransmits session m top (lo + header.messageCount) hi rest

/-- The server answers each request packet with the range that can be read off it. -/
inductive Answered (session : SessionId) (m : ℕ → List UInt8) (top : ℕ) :
    List (List UInt8) → List (UInt8 × Held F) → Prop
  | nil : Answered session m top [] []
  | cons {packet : List UInt8} {packets : List (List UInt8)} {part rest : List (UInt8 × Held F)}
      (now : Instant) :
      Retransmits session m top (requestedRange packet now).lo (requestedRange packet now).hi part →
      Answered session m top packets rest →
      Answered session m top (packet :: packets) (part ++ rest)

variable {session : SessionId} {m : ℕ → List UInt8} {top lo hi : ℕ}

omit [AsRef F] in
theorem DownstreamHeader.messageCount_pos {header : DownstreamHeader} (h : header.kind = .data) :
    0 < header.messageCount := by
  by_contra hzero
  rw [DownstreamHeader.kind, if_pos (Nat.eq_zero_of_not_pos hzero)] at h
  cases h

theorem Bears.occurs {p : UInt8 × Held F} {header : DownstreamHeader}
    (h : Bears session m top p header) {n : ℕ} :
    Occurs [p] n ↔ header.sequence ≤ n ∧ n < header.sequence + header.messageCount :=
  (@occurs_singleton _ _ p.1 _ _ h.parse n).trans (and_iff_right h.kind)

theorem Retransmits.le {replies : List (UInt8 × Held F)}
    (h : Retransmits session m top lo hi replies) : lo ≤ hi := by
  induction replies generalizing lo with
  | nil => exact h.le
  | cons p rest ih =>
      obtain ⟨header, -, -, hrest⟩ := h
      exact (Nat.le_add_right _ _).trans (ih hrest)

/-- All of the range occurs in the answer. -/
theorem Retransmits.occurs {replies : List (UInt8 × Held F)}
    (h : Retransmits session m top lo hi replies) {n : ℕ} (hlo : lo ≤ n) (hhi : n < hi) :
    Occurs replies n := by
  induction replies generalizing lo with
  | nil =>
      obtain rfl : lo = hi := h
      omega
  | cons p rest ih =>
      obtain ⟨header, hbears, rfl, hrest⟩ := h
      rw [← List.singleton_append, occurs_append, hbears.occurs]
      by_cases hn : n < header.sequence + header.messageCount
      · exact Or.inl ⟨hlo, hn⟩
      · exact Or.inr (ih hrest (Nat.le_of_not_lt hn))

/-- A datagram of the answer starts inside the range, and what is before it in the range
occurs in the datagrams before it. -/
theorem Retransmits.split {done rest : List (UInt8 × Held F)} {p : UInt8 × Held F}
    (h : Retransmits session m top lo hi (done ++ p :: rest)) :
    ∃ header, Bears session m top p header ∧ lo ≤ header.sequence ∧ header.sequence < hi ∧
      ∀ n, lo ≤ n → n < header.sequence → Occurs done n := by
  induction done generalizing lo with
  | nil =>
      obtain ⟨header, hbears, rfl, hrest⟩ := h
      have hpos := DownstreamHeader.messageCount_pos hbears.kind
      have hle := hrest.le
      exact ⟨header, hbears, le_rfl, by omega, fun n hlo hhi ↦ by omega⟩
  | cons q done ih =>
      obtain ⟨first, hbears, rfl, hrest⟩ := h
      obtain ⟨header, hheader, hlo, hhi, hdone⟩ := ih hrest
      refine ⟨header, hheader, by omega, hhi, fun n hn hlt ↦ ?_⟩
      rw [← List.singleton_append, occurs_append, hbears.occurs]
      by_cases hfirst : n < first.sequence + first.messageCount
      · exact Or.inl ⟨hn, hfirst⟩
      · exact Or.inr (hdone n (Nat.le_of_not_lt hfirst) hlt)

theorem Answered.occurs {gaps : List GapRequest} {replies : List (UInt8 × Held F)}
    (h : Answered session m top (gaps.map (encodeRequestPacket session)) replies) {n : ℕ}
    (hn : ∃ gap ∈ gaps, gap.Has n) : Occurs replies n := by
  induction gaps generalizing replies with
  | nil => simp at hn
  | cons gap gaps ih =>
      cases h with
      | cons now hpart hrest =>
          rw [requestedRange_encode] at hpart
          rw [occurs_append]
          rcases (List.exists_mem_cons_iff _ _ _).mp hn with hfirst | hlater
          · exact Or.inl (hpart.occurs hfirst.1 hfirst.2)
          · exact Or.inr (ih hrest hlater)

/-- A datagram of the answers starts at a requested number, and every requested number
below that occurs in the datagrams before it. -/
theorem Answered.split {gaps : List GapRequest} (hbefore : gaps.Pairwise GapRequest.Before)
    {done rest : List (UInt8 × Held F)} {p : UInt8 × Held F}
    (h : Answered session m top (gaps.map (encodeRequestPacket session)) (done ++ p :: rest)) :
    ∃ header, Bears session m top p header ∧ (∃ gap ∈ gaps, gap.Has header.sequence) ∧
      ∀ n, (∃ gap ∈ gaps, gap.Has n) → n < header.sequence → Occurs done n := by
  induction gaps generalizing done with
  | nil =>
      generalize hreplies : done ++ p :: rest = replies at h
      cases h
      simp at hreplies
  | cons gap gaps ih =>
      obtain ⟨hfirst, hbefore⟩ := List.pairwise_cons.mp hbefore
      generalize hreplies : done ++ p :: rest = replies at h
      cases h with
      | @cons _ _ part later now hpart hlater =>
          rw [requestedRange_encode] at hpart
          -- `p` is in the answer to this request, or in one to a later request
          rcases List.append_eq_append_iff.mp hreplies with ⟨mid, rfl, hmid⟩ | ⟨mid, rfl, hmid⟩
          · cases mid with
            | nil =>
                rw [List.append_nil] at hpart
                rw [List.nil_append] at hmid
                obtain ⟨header, hbears, hin, hdone⟩ := @ih hbefore [] (hmid ▸ hlater)
                refine ⟨header, hbears, (List.exists_mem_cons_iff _ _ _).mpr (Or.inr hin),
                  fun n hn hlt ↦ ?_⟩
                rcases (List.exists_mem_cons_iff _ _ _).mp hn with hthis | hnext
                · exact hpart.occurs hthis.1 hthis.2
                · exact absurd (hdone n hnext hlt) (by simp [Occurs])
            | cons q mid =>
                obtain ⟨rfl, -⟩ := List.cons.inj hmid
                obtain ⟨header, hbears, hlo, hhi, hdone⟩ := hpart.split
                refine ⟨header, hbears, ⟨gap, List.mem_cons_self, hlo, hhi⟩, fun n hn hlt ↦ ?_⟩
                rcases (List.exists_mem_cons_iff _ _ _).mp hn with hthis | ⟨gap', hgap', hnext⟩
                · exact hdone n hthis.1 hlt
                · have hafter : gap.startSeq.toNat + gap.count.toNat ≤ gap'.startSeq.toNat :=
                    hfirst gap' hgap'
                  have hend : header.sequence < gap.startSeq.toNat + gap.count.toNat := hhi
                  have hstart := hnext.1
                  omega
          · obtain ⟨header, hbears, hin, hdone⟩ := @ih hbefore mid (hmid ▸ hlater)
            refine ⟨header, hbears, (List.exists_mem_cons_iff _ _ _).mpr (Or.inr hin),
              fun n hn hlt ↦ ?_⟩
            rw [occurs_append]
            rcases (List.exists_mem_cons_iff _ _ _).mp hn with hthis | hnext
            · exact Or.inl (hpart.occurs hthis.1 hthis.2)
            · exact Or.inr (hdone n hnext hlt)

/-! ## Decoding an answer -/

omit [AsRef F] in
/-- Blocks that start where the receiver has everything before them stay inside the window:
each of them is due when its turn comes, or was had. -/
theorem Decoding.inWindow_of_below {streamId : UInt8} {now : Option Instant} {blocks : List Block} :
    ∀ {d : Decoding F} {first : ℕ}, d.inner.Windowed → Decoding.NumberedFrom first blocks →
      (∀ b ∈ blocks, b.seq + 1 < 2 ^ 64) → (∀ n, n < first → d.inner.Has n) →
      (d.inner.arbiter.isSome → now.isSome) → Decoding.InWindow streamId now blocks d := by
  induction blocks with
  | nil => exact fun _ _ _ _ _ ↦ trivial
  | cons b blocks ih =>
      rintro d _ h ⟨rfl, hnum⟩ hfit hbelow hnow
      have hdue : b.seq ≤ d.inner.reassembler.expectedNext := by
        by_contra hlt
        exact h.ring.not_has_expectedNext (hbelow _ (Nat.lt_of_not_le hlt))
      have hwindow : b.seq < d.inner.reassembler.expectedNext + ringCapacity :=
        hdue.trans_lt (Nat.lt_add_of_pos_right ringCapacity_pos)
      obtain ⟨hfirst, hrest⟩ := List.forall_mem_cons.mp hfit
      obtain ⟨-, h₁, hhas, hnow₁⟩ :=
        Decoding.decodeBlock_windowed h streamId now hwindow hfirst hnow
      refine ⟨hwindow, ih h₁ hnum hrest (fun n hn ↦ (hhas n).mpr ?_) hnow₁⟩
      exact (Nat.lt_succ_iff_lt_or_eq.mp hn).imp_left (hbelow n)

omit [AsRef F] in
/-- Entering the loop changes neither the ring nor what the arbiter has seen. -/
theorem Inner.Windowed.inWindow_enterLoop {i : Inner F} (h : i.Windowed) {streamId : UInt8}
    {datagram : Held F} {header : DownstreamHeader} {now : Option Instant} {blocks : List Block}
    (hnum : Decoding.NumberedFrom header.sequence blocks) (hfit : ∀ b ∈ blocks, b.seq + 1 < 2 ^ 64)
    (hbelow : ∀ n, n < header.sequence → i.Has n) (hnow : i.arbiter.isSome → now.isSome) :
    Decoding.InWindow streamId now blocks (i.enterLoop header datagram now) := by
  refine Decoding.inWindow_of_below ?_ hnum hfit (fun n hn ↦ ?_) fun hsome ↦ hnow ?_
  · exact (h.noteJump header.sequence now).of_eq rfl rfl
  · exact (Inner.has_congr (i.reassembler_noteJump header.sequence now) n).mpr (hbelow n hn)
  · rw [← i.isSome_arbiter_noteJump header.sequence now]
    exact hsome

theorem Bears.feeds {i : Inner F} {now : Instant} {p : UInt8 × Held F} {header : DownstreamHeader}
    (h : Bears session m top p header) (hwindowed : i.Windowed) (hanchored : i.seqAnchored = true)
    (hpop : i.pendingDatagrams.head? = some p) (htop : top + 65536 < 2 ^ 64)
    (hbelow : ∀ n, n < header.sequence → i.Has n) : i.Feeds session m top now := by
  intro p' hp'
  obtain rfl : p = p' := Option.some.inj (hpop.symm.trans hp')
  refine ⟨header, h.parse, h.session, fun _ ↦ ⟨h.whole, h.le, h.payload, ?_⟩⟩
  have hfits : header.Fits := by
    have := h.le
    rw [DownstreamHeader.Fits]
    omega
  obtain ⟨hnum, hfit⟩ := numberedFrom_blocks h.parse hfits (Prod.ext rfl h.whole)
  rw [Inner.accepted_of_anchored hanchored]
  apply Inner.Windowed.inWindow_enterLoop _ hnum hfit
  · exact hbelow
  · rw [Inner.isSome_clock]
    exact id
  · exact hwindowed.of_eq rfl rfl

/-! ## Whole runs -/

/-- Datagrams that came through the requester's socket. -/
def retransmitted (recoveryStream : UInt8) (decoded : List (UInt8 × Held F)) :
    List (UInt8 × Held F) :=
  decoded.filter fun p ↦ p.1 = recoveryStream

/-- Events in which what comes from a leg is a piece of the stream inside the window. -/
def Session.Live (session : SessionId) (m : ℕ → List UInt8) (top : ℕ) (recoveryStream : UInt8)
    (s : Session F) : Event F → Prop
  | .decode now => ∀ p ∈ s.inner.pendingDatagrams.head?, p.1 ≠ recoveryStream →
      s.inner.Feeds session m top now
  | _ => True

instance (session : SessionId) (m : ℕ → List UInt8) (top : ℕ) (recoveryStream : UInt8)
    (s : Session F) : ∀ e, Decidable (s.Live session m top recoveryStream e)
  | .decode now =>
      have : Decidable (s.inner.Feeds session m top now) :=
        inferInstanceAs (Decidable (s.Feeds session m top (.decode now)))
      inferInstanceAs (Decidable (∀ p ∈ s.inner.pendingDatagrams.head?, _))
  | .retire => .isTrue trivial
  | .land .. => .isTrue trivial
  | .yieldItem => .isTrue trivial
  | .yieldOwned => .isTrue trivial

variable {start : UInt64} {s t u : Session F} {recoveryStream : UInt8}
  {cfg : MoldUdpReceiverConfig} {legs : List Leg} {inner : Inner F}

theorem Session.fed_of_run (hnew : fromLegs cfg legs = .ok inner)
    (hstart : cfg.startSequence = some start) (htop : top + 65536 < 2 ^ 64)
    (hrun : (machine F).Run (Session.Feeds session m top) (Session.start inner) s) :
    s.Fed session m top start :=
  hrun.invariant (Session.fed_start hnew hstart)
    fun _ _ _ hinv hfeeds hstep ↦ hinv.next htop hfeeds hstep

/-- A run that is fed one stream inside the window loses nothing. -/
theorem Session.accountable_of_run (hnew : fromLegs cfg legs = .ok inner)
    (hstart : cfg.startSequence = some start) (htop : top + 65536 < 2 ^ 64)
    (hrun : (machine F).Run (Session.Feeds session m top) (Session.start inner) s) :
    (machine F).Run Session.Accountable (Session.start inner) s := by
  induction hrun with
  | refl => exact .refl
  | @tail t u e hrun hfeeds hstep ih =>
      refine .tail e ih ?_ hstep
      cases e with
      | decode now =>
          have hsteady := (Session.fed_of_run hnew hstart htop hrun).steady htop hfeeds
          refine ⟨fun p hp header hparse hkind ↦ ?_, fun capacity hfull ↦ ?_⟩
          · have hfits := hsteady.1 p hp header hparse hkind
            rw [DownstreamHeader.Fits] at hfits
            rw [max64]
            omega
          · rw [(Session.fed_of_run hnew hstart htop hrun).decodeNext_ok htop hfeeds] at hfull
            cases hfull
      | _ => trivial

theorem Session.decoded_isPrefix {e : Event F} (hstep : s.next e = some t) :
    s.decoded <+: t.decoded := by
  have hstep' := Session.step_of_next hstep
  by_cases hdecode : ∀ now, e ≠ .decode now
  · rw [(hstep'.sameTracking hdecode).2]
  · cases hstep' with
    | decode => exact List.prefix_append _ _
    | _ => exact (hdecode fun now ↦ by simp).elim

theorem Session.decoded_isPrefix_of_run {allowed : Session F → Event F → Prop}
    (hrun : (machine F).Run allowed s t) : s.decoded <+: t.decoded := by
  induction hrun with
  | refl => exact List.prefix_rfl
  | tail _ _ _ hstep ih => exact ih.trans (Session.decoded_isPrefix hstep)

/-- What was requested when: the numbers that were missing, all below the mark. -/
structure Session.Requests (s : Session F) (gaps : List GapRequest) : Prop where
  before : gaps.Pairwise GapRequest.Before
  cover : ∀ n, n < s.inner.nextUnseen → s.inner.Has n ∨ ∃ gap ∈ gaps, gap.Has n
  below : ∀ n, (∃ gap ∈ gaps, gap.Has n) → n < s.inner.nextUnseen

omit [AsRef F] in
theorem retransmitted_append (xs ys : List (UInt8 × Held F)) :
    retransmitted recoveryStream (xs ++ ys) =
      retransmitted recoveryStream xs ++ retransmitted recoveryStream ys :=
  List.filter_append ..

/-- The next answer finds everything below it in place. -/
theorem Session.Fed.feeds_answer {gaps : List GapRequest} {replies : List (UInt8 × Held F)}
    {now : Instant} {p : UInt8 × Held F} (hs : s.Fed session m top start)
    (hrequests : s.Requests gaps)
    (hanswered : Answered session m top (gaps.map (encodeRequestPacket session)) replies)
    (hu : u.Fed session m top start) (hle : s.decoded <+: u.decoded)
    (hpop : u.inner.pendingDatagrams.head? = some p) (htop : top + 65536 < 2 ^ 64)
    (hnext : retransmitted recoveryStream u.decoded ++ [p] <+:
      retransmitted recoveryStream s.decoded ++ replies) :
    u.inner.Feeds session m top now := by
  obtain ⟨more, hmore⟩ := hle
  rw [← hmore, retransmitted_append, List.append_assoc, List.prefix_append_right_inj] at hnext
  obtain ⟨rest, rfl⟩ := hnext
  rw [List.append_assoc, List.singleton_append] at hanswered
  obtain ⟨header, hbears, hin, hdone⟩ := hanswered.split hrequests.before
  refine hbears.feeds hu.windowed hu.seqAnchored hpop htop fun n hn ↦ (hu.has n).mpr ?_
  rw [← hmore, occurs_append, ← or_assoc, ← hs.has n]
  -- a number that was requested has come back since
  rcases hrequests.cover n (hn.trans (hrequests.below _ hin)) with hhas | hgap
  · exact Or.inl hhas
  · obtain ⟨q, hq, hoccurs⟩ := hdone n hgap hn
    exact Or.inr ⟨q, List.mem_of_mem_filter hq, hoccurs⟩

theorem Session.Fed.feeds_of_live {gaps : List GapRequest} {replies : List (UInt8 × Held F)}
    {now : Instant} (hs : s.Fed session m top start) (hrequests : s.Requests gaps)
    (hanswered : Answered session m top (gaps.map (encodeRequestPacket session)) replies)
    (hu : u.Fed session m top start) (hle : s.decoded <+: u.decoded)
    (htop : top + 65536 < 2 ^ 64)
    (hlive : u.Live session m top recoveryStream (.decode now))
    (hnext : retransmitted recoveryStream (u.decoded ++ u.inner.pendingDatagrams.take 1) <+:
      retransmitted recoveryStream s.decoded ++ replies) :
    u.inner.Feeds session m top now := by
  cases hpop : u.inner.pendingDatagrams.head? with
  | none =>
      intro p hp
      rw [hpop] at hp
      cases hp
  | some p =>
      by_cases hstream : p.1 = recoveryStream
      · have hsingle : retransmitted recoveryStream (u.inner.pendingDatagrams.take 1) = [p] := by
          rw [List.take_one, hpop]
          exact List.filter_cons_of_pos (by simpa using hstream)
        rw [retransmitted_append, hsingle] at hnext
        exact hs.feeds_answer hrequests hanswered hu hle hpop htop hnext
      · exact hlive p hpop hstream

/-- Every event of such a run is one of the stream. -/
theorem Session.feeds_run_of_answers {gaps : List GapRequest} {replies : List (UInt8 × Held F)}
    (hnew : fromLegs cfg legs = .ok inner) (hstart : cfg.startSequence = some start)
    (htop : top + 65536 < 2 ^ 64)
    (hrun : (machine F).Run (Session.Feeds session m top) (Session.start inner) s)
    (hrequests : s.Requests gaps)
    (hanswered : Answered session m top (gaps.map (encodeRequestPacket session)) replies)
    (hlive : (machine F).Run (Session.Live session m top recoveryStream) s t)
    (hdecoded : retransmitted recoveryStream t.decoded <+:
      retransmitted recoveryStream s.decoded ++ replies) :
    (machine F).Run (Session.Feeds session m top) (Session.start inner) t := by
  have hs := Session.fed_of_run hnew hstart htop hrun
  induction hlive with
  | refl => exact hrun
  | @tail u v e hlive hallowed hstep ih =>
      have hearlier : retransmitted recoveryStream u.decoded <+:
          retransmitted recoveryStream v.decoded := by
        obtain ⟨more, hmore⟩ := Session.decoded_isPrefix hstep
        rw [← hmore, retransmitted_append]
        exact List.prefix_append _ _
      have hfed := ih (hearlier.trans hdecoded)
      refine .tail e hfed ?_ hstep
      cases Session.step_of_next hstep with
      | decode now =>
          exact hs.feeds_of_live hrequests hanswered (Session.fed_of_run hnew hstart htop hfed)
            (Session.decoded_isPrefix_of_run hlive) htop hallowed hdecoded
      | _ => trivial

/-- With nothing staged, what is tracked is all that is missing. -/
theorem Session.requests_pendingGaps (hnew : fromLegs cfg legs = .ok inner)
    (hstart : cfg.startSequence = some start) (htop : top + 65536 < 2 ^ 64)
    (hrun : (machine F).Run (Session.Feeds session m top) (Session.start inner) s)
    (hstaged : ∀ n, ¬ s.inner.Staged n) : s.Requests s.inner.gapHandler.pendingGaps := by
  have htracking := tracking_of_run hnew hrun
  have haccounts :=
    (ledger_of_run hnew (Session.accountable_of_run hnew hstart htop hrun)).accounts
      (Session.fed_of_run hnew hstart htop hrun).seqAnchored
  obtain ⟨-, htracks⟩ := pendingGaps_spec htracking.gaps
  refine ⟨htracking.gaps.pairwise_before, fun n hn ↦ ?_, fun n hn ↦ ?_⟩
  · rcases haccounts.cover n hn with hhas | (htracked | hcandidate) | hfalse
    · exact Or.inl hhas
    · exact Or.inr ((htracks n).mpr htracked)
    · exact (hstaged n hcandidate).elim
    · exact hfalse.elim
  · exact htracking.tracked n ((htracks n).mp hn)

theorem Session.Fed.handedMessages_of_drained (h : s.Fed session m top start)
    (hready : s.inner.ready = []) :
    handedMessages s.handed = (List.range' start.toNat
      (s.inner.reassembler.expectedNext - start.toNat)).map fun n ↦ (n, m n) := by
  obtain ⟨-, horder⟩ := h.ordered.order start.toNat rfl
  rw [Session.delivered, hready, numbers_nil, List.append_nil] at horder
  rw [handedMessages_eq_map fun outcome hmem n ↦ h.payload_eq hmem, horder]

/-- Recovery comes to its end.  A receiver fed one stream asks for its gaps, none of them
still a candidate, over a socket that takes every packet, and the server answers the packets
in order.  However the answers are interleaved with what the legs bring, none of them fails
to decode; when the last one has been decoded, no number below the mark of the time of
asking is tracked any more, `expected_next` has reached that mark, and a drained receiver
has handed out the stream up to it. -/
theorem gaps_closed_by_answers (hnew : fromLegs cfg legs = .ok inner)
    (hstart : cfg.startSequence = some start) (htop : top + 65536 < 2 ^ 64)
    (hrun : (machine F).Run (Session.Feeds session m top) (Session.start inner) s)
    (hstaged : ∀ n, ¬ s.inner.Staged n) {e : GapRequestEmitter} {sock : Socket} {asked : Instant}
    {calls : List SendTo} (hfresh : (e.prune asked).requested = [])
    (hcalls : (sendDue e session s.inner.gapHandler sock asked).2.calls = sock.calls ++ calls)
    (hsent : ∀ call ∈ calls, ∃ n, call.result = .ok n) {replies : List (UInt8 × Held F)}
    (hanswered : Answered session m top (calls.map SendTo.buf) replies)
    (hlive : (machine F).Run (Session.Live session m top inner.recoveryStream) s t)
    (hdecoded : retransmitted inner.recoveryStream t.decoded <+:
      retransmitted inner.recoveryStream s.decoded ++ replies) :
    (∀ now, t.Live session m top inner.recoveryStream (.decode now) →
      retransmitted inner.recoveryStream (t.decoded ++ t.inner.pendingDatagrams.take 1) <+:
        retransmitted inner.recoveryStream s.decoded ++ replies →
      (t.inner.decodeNext now).1 = .ok ()) ∧
    (retransmitted inner.recoveryStream t.decoded =
        retransmitted inner.recoveryStream s.decoded ++ replies →
      (∀ n, t.inner.gapHandler.Tracks n → s.inner.nextUnseen ≤ n) ∧
      s.inner.nextUnseen ≤ t.inner.reassembler.expectedNext ∧
      (t.inner.ready = [] → (List.range' start.toNat (s.inner.nextUnseen - start.toNat)).map
        (fun n ↦ (n, m n)) <+: handedMessages t.handed)) := by
  have hs := Session.fed_of_run hnew hstart htop hrun
  have hrequests := Session.requests_pendingGaps hnew hstart htop hrun hstaged
  -- the emitter remembers nothing, so the packets are those of all the pending gaps
  have hpackets : calls.map SendTo.buf =
      s.inner.gapHandler.pendingGaps.map (encodeRequestPacket session) := by
    obtain ⟨calls', ending, hemitted, hcalls'⟩ :=
      sendDue_emitted e session s.inner.gapHandler sock asked
    obtain rfl : calls = calls' := List.append_cancel_left (hcalls.symm.trans hcalls')
    refine hemitted.map_buf_eq (pendingGaps_spec (tracking_of_run hnew hrun).gaps).1
      hrequests.before ?_ hsent
    rw [hfresh]
    intro r hr
    cases hr
  rw [hpackets] at hanswered
  have hfeeds := Session.feeds_run_of_answers hnew hstart htop hrun hrequests hanswered hlive
    hdecoded
  have ht := Session.fed_of_run hnew hstart htop hfeeds
  have hle := Session.decoded_isPrefix_of_run hlive
  refine ⟨fun now hnow hnext ↦ ?_, fun hall ↦ ?_⟩
  · exact ht.decodeNext_ok htop (hs.feeds_of_live hrequests hanswered ht hle htop hnow hnext)
  have hhas : ∀ n, n < s.inner.nextUnseen → t.inner.Has n := by
    obtain ⟨more, hmore⟩ := hle
    rw [← hmore, retransmitted_append, List.append_cancel_left_eq] at hall
    intro n hn
    rw [ht.has n, ← hmore, occurs_append, ← or_assoc, ← hs.has n]
    rcases hrequests.cover n hn with hold | hgap
    · exact Or.inl hold
    · obtain ⟨q, hq, hoccurs⟩ := hanswered.occurs hgap
      rw [← hall] at hq
      exact Or.inr ⟨q, List.mem_of_mem_filter hq, hoccurs⟩
  have hmark : s.inner.nextUnseen ≤ t.inner.reassembler.expectedNext := by
    by_contra hlt
    exact ht.windowed.ring.not_has_expectedNext (hhas _ (Nat.lt_of_not_le hlt))
  refine ⟨fun n htracked ↦ ?_, hmark, fun hready ↦ ?_⟩
  · by_contra hlt
    have haccounts :=
      (ledger_of_run hnew (Session.accountable_of_run hnew hstart htop hfeeds)).accounts
        ht.seqAnchored
    exact haccounts.missing n (Or.inl htracked) (hhas n (Nat.lt_of_not_le hlt))
  · rw [ht.handedMessages_of_drained hready]
    apply List.IsPrefix.map
    obtain ⟨k, hk⟩ := Nat.exists_eq_add_of_le
      (Nat.sub_le_sub_right hmark start.toNat)
    rw [hk, ← List.range'_append_1]
    exact List.prefix_append _ _

end Answers

deriving instance DecidableEq for Held

/-- With 3 buffered, 1 and 2 come back in a packet each, and 4 on the leg between them. -/
def sampleReplies : List (UInt8 × Held (List UInt8)) :=
  [(1, .copied (moldPacket sampleSession 1 [1])), (1, .copied (moldPacket sampleSession 2 [2]))]

def sampleAnswers : List (Event (List UInt8)) :=
  [.land [(1, .copied (moldPacket sampleSession 1 [1])),
      (0, .frame (moldPacket sampleSession 4 [4])),
      (1, .copied (moldPacket sampleSession 2 [2]))] [],
    .yieldItem, .retire, .decode 0, .yieldItem, .retire, .decode 0, .decode 0, .yieldItem, .retire,
    .yieldItem, .retire, .yieldItem, .retire]

theorem sampleReplies_answered :
    Answered sampleSession (fun n ↦ [UInt8.ofNat n]) 4
      [encodeRequestPacket sampleSession ⟨1, 2⟩] sampleReplies := by
  have hreply : ∀ n ∈ [1, 2], Bears sampleSession (fun n ↦ [UInt8.ofNat n]) 4
      (1, (.copied (moldPacket sampleSession n [UInt8.ofNat n]) : Held (List UInt8)))
      ⟨sampleSession, n, 1⟩ := by
    intro n hn
    rcases List.mem_pair.mp hn with rfl | rfl
    · exact ⟨rfl, rfl, rfl, rfl, by decide, by decide⟩
    · exact ⟨rfl, rfl, rfl, rfl, by decide, by decide⟩
  have hrange : Retransmits sampleSession (fun n ↦ [UInt8.ofNat n]) 4 1 3 sampleReplies :=
    ⟨_, hreply 1 (by simp), rfl, _, hreply 2 (by simp), rfl, rfl⟩
  rw [← List.append_nil sampleReplies]
  exact .cons 0 hrange .nil

theorem gaps_closed_by_answers_two :
    ∃ s t : Session (List UInt8),
      Machine.follow Session.next (Session.start sampleOneLeg) sampleJump = some s ∧
      Machine.follow Session.next s sampleAnswers = some t ∧
      (∀ n, t.inner.gapHandler.Tracks n → 4 ≤ n) ∧
      [(1, [1]), (2, [2]), (3, [3])] <+: handedMessages t.handed := by
  have hends : ∃ s ∈ Machine.follow Session.next (Session.start sampleOneLeg) sampleJump,
      ∃ t ∈ Machine.follow Session.next s sampleAnswers,
      (s.inner.nextUnseen = 4 ∧ s.inner.arbiter.isNone = true ∧ t.inner.ready.isEmpty = true) ∧
      (∀ call ∈ (sendDue (.new Requesting.sampleServer 1) sampleSession s.inner.gapHandler
        ⟨[], []⟩ 0).2.calls, ∃ n, call.result = .ok n ∧ True) ∧
      (sendDue (.new Requesting.sampleServer 1) sampleSession s.inner.gapHandler
        ⟨[], []⟩ 0).2.calls.map SendTo.buf = [encodeRequestPacket sampleSession ⟨1, 2⟩] ∧
      Machine.AllowedAlong Session.next
        (Session.Live sampleSession (fun n ↦ [UInt8.ofNat n]) 4 1) s sampleAnswers ∧
      retransmitted 1 t.decoded = retransmitted 1 s.decoded ++ sampleReplies := by
    decide +kernel
  obtain ⟨s, hs, t, ht, ⟨hmark, hnone, hready⟩, hok, hbuf, hlive, hdecoded⟩ := hends
  have hallowed : Machine.AllowedAlong Session.next
      (Session.Feeds sampleSession (fun n ↦ [UInt8.ofNat n]) 4) (Session.start sampleOneLeg)
      sampleJump := by decide +kernel
  obtain ⟨-, hend⟩ := @gaps_closed_by_answers _ _ sampleSession (fun n ↦ [UInt8.ofNat n]) 4 1 s t
    { startSequence := some 1 } [⟨minLegPoolCapacity⟩] _ rfl rfl (by norm_num)
    (Machine.Run.of_follow hallowed hs)
    (fun n ⟨a, ha, _⟩ ↦ by rw [Option.isNone_iff_eq_none.mp hnone] at ha; cases ha)
    (.new Requesting.sampleServer 1) ⟨[], []⟩ 0 _ rfl rfl
    (fun call hcall ↦ (hok call hcall).imp fun _ h ↦ h.1) sampleReplies
    (hbuf ▸ sampleReplies_answered) (Machine.Run.of_follow hlive ht)
    (hdecoded ▸ List.prefix_rfl)
  obtain ⟨htracks, -, hhanded⟩ := hend hdecoded
  rw [hmark] at htracks hhanded
  exact ⟨s, t, hs, ht, htracks, hhanded (List.isEmpty_iff.mp hready)⟩

end MoldUdp
