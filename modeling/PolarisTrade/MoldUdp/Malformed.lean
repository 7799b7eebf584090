import PolarisTrade.MoldUdp.Delivery

/-!
# Malformed and foreign datagrams

Session and anchor are written from the header, before any block is looked at.  A
datagram refused for its header or its session therefore leaves the receiver alone,
and one refused for a truncated block does so once the session is locked: a locked
session has its sequence anchored.  The first datagram of all is the exception.
-/

namespace MoldUdp

open Transport Word

/-- The error of a datagram that is malformed or belongs to another session. -/
def MoldUdpError.RejectsDatagram : MoldUdpError → Prop
  | .packetTooShort => True
  | .packetTooLarge => True
  | .sessionMismatch .. => True
  | _ => False

variable {F : Type}

namespace Inner

/-- `i'` is `i` with its first datagram popped, and the block scratch overwritten. -/
def OnlyPopped (i i' : Inner F) : Prop :=
  i' = { i with pendingDatagrams := i.pendingDatagrams.tail, blocks := i'.blocks }

/-- A locked session has its sequence anchored. -/
def LockAnchored (i : Inner F) : Prop := i.session.isSome → i.seqAnchored = true

theorem lockAnchored_fresh (cfg : MoldUdpReceiverConfig) (legs : List Leg) :
    (fresh cfg legs : Inner F).LockAnchored := by
  intro h
  cases h

theorem LockAnchored.drainConfirmedGaps {i : Inner F} (h : i.LockAnchored) (now : Instant) :
    (i.drainConfirmedGaps now).LockAnchored := by
  unfold Inner.drainConfirmedGaps
  split
  · exact h
  · exact h

/-- Accepting a header on a locked session changes nothing but the queue. -/
theorem accepted_of_locked {i : Inner F} (h : i.LockAnchored) {header : DownstreamHeader}
    (hsession : i.session = some header.session) (rest : List (UInt8 × Held F)) :
    i.accepted rest header = { i with pendingDatagrams := rest } := by
  rw [accepted_of_anchored (h (by rw [hsession]; rfl)), ← hsession]

variable [AsRef F]

theorem Processed.lockAnchored {i i' : Inner F} {now : Option Instant}
    {r : Except MoldUdpError Unit} (h : i.Processed now r i') (hi : i.LockAnchored) :
    i'.LockAnchored := by
  cases h with
  | idle => exact hi
  | unparsed => exact hi
  | mismatch => exact hi
  | @control streamId datagram rest header ev hpop hparse hsession hkind =>
      intro _
      have hanchored := (i.accepted_session rest header).2
      generalize i.accepted rest header = i₁ at hanchored ⊢
      change (i₁.noteTailGap header.sequence).seqAnchored = true
      unfold noteTailGap
      split
      · exact hanchored
      · exact hanchored
  | @data streamId datagram rest header hpop hparse hsession hkind =>
      intro _
      rw [(decodeData_kept _ streamId datagram header now).2.2]
      exact (i.accepted_session rest header).2

theorem LockAnchored.decodeNext {i : Inner F} (h : i.LockAnchored) (now : Instant) :
    (i.decodeNext now).2.LockAnchored := by
  have hprocessed := (i.processNextPending_processed (i.clock now)).lockAnchored h
  unfold Inner.decodeNext
  generalize i.processNextPending (i.clock now) = processed at hprocessed ⊢
  obtain ⟨_ | _, i'⟩ := processed
  · exact hprocessed
  · dsimp only
    split
    · exact hprocessed.drainConfirmedGaps now
    · exact hprocessed

/-- A data datagram refused as malformed has a truncated block: of the accepted receiver
only the scratch is written. -/
theorem decodeData_rejected {i i' : Inner F} {streamId : UInt8} {datagram : Held F}
    {header : DownstreamHeader} {now : Option Instant} {e : MoldUdpError}
    (h : i.decodeData streamId datagram header now = (.error e, i'))
    (he : e.RejectsDatagram) : i' = { i with blocks := i'.blocks } := by
  rcases i.decodeData_cases streamId datagram header now with
    ⟨blocks, e', -, hdecode⟩ | ⟨blocks, -, ⟨e', d, hloop, hdecode⟩ | ⟨d, -, hdecode⟩⟩
  · rw [hdecode] at h
    cases h
    rfl
  · rw [hdecode] at h
    cases h
    obtain ⟨capacity, rfl⟩ := Decoding.decodeBlocks_error hloop
    exact he.elim
  · rw [hdecode] at h
    cases h

/-- The header of the next datagram does not parse. -/
def HeaderUnparsed (i : Inner F) : Prop :=
  ∀ p ∈ i.pendingDatagrams.head?, ∀ header, parseHeader p.2.asRef ≠ .ok header

theorem onlyPopped_iff {i i' : Inner F} {now : Option Instant} {e : MoldUdpError}
    (h : i.Processed now (.error e) i') (hi : i.LockAnchored) (he : e.RejectsDatagram) :
    i.OnlyPopped i' ↔ i.session ≠ none ∨ i.HeaderUnparsed := by
  generalize hr : (Except.error e : Except MoldUdpError Unit) = r at h
  cases h with
  | idle => cases hr
  | @unparsed streamId datagram rest e' hpop hparse =>
      refine ⟨fun _ ↦ Or.inr fun p hp header hheader ↦ ?_, fun _ ↦ ?_⟩
      · rw [hpop, List.head?_cons, Option.mem_some_iff] at hp
        subst hp
        rw [hparse] at hheader
        cases hheader
      · simp only [OnlyPopped, hpop, List.tail_cons]
  | @mismatch streamId datagram rest header expected hpop hparse hsession hne =>
      refine ⟨fun _ ↦ Or.inl (by simp [hsession]), fun _ ↦ ?_⟩
      simp only [OnlyPopped, hpop, List.tail_cons]
  | control => cases hr
  | @data streamId datagram rest header hpop hparse hsession hkind =>
      have hkept := (decodeData_kept (i.accepted rest header) streamId datagram header now).2.1
      have hrejected : ((i.accepted rest header).decodeData streamId datagram header now).2 =
          { i.accepted rest header with
            blocks := ((i.accepted rest header).decodeData streamId datagram header now).2.blocks
          } := decodeData_rejected (Prod.ext hr.symm rfl) he
      generalize ((i.accepted rest header).decodeData streamId datagram header now).2 = i' at *
      constructor
      · -- the header was accepted, so the session is locked afterwards
        intro hpopped
        left
        rw [hpopped, (i.accepted_session rest header).1] at hkept
        dsimp only at hkept
        simp [hkept]
      · rintro (hlocked | hunparsed)
        · rw [accepted_of_locked hi (hsession.resolve_left hlocked)] at hrejected
          rw [OnlyPopped, hpop]
          exact hrejected
        · exact (hunparsed (streamId, datagram) (by rw [hpop]; rfl) header hparse).elim

end Inner

/-! ## Whole runs -/

variable [AsRef F]

theorem Session.lockAnchored_run {cfg : MoldUdpReceiverConfig} {legs : List Leg} {s : Session F}
    (hrun : Session.Reaches (Session.start (.fresh cfg legs)) s) : s.inner.LockAnchored := by
  refine hrun.invariant (I := fun s ↦ s.inner.LockAnchored) (Inner.lockAnchored_fresh cfg legs) ?_
  intro s e t hs _ hstep
  have hstep := Session.step_of_next hstep
  by_cases hdecode : ∃ now, e = .decode now
  · obtain ⟨now, rfl⟩ := hdecode
    cases hstep
    exact hs.decodeNext now
  · have hsame := (hstep.sameTracking fun now he ↦ hdecode ⟨now, he⟩).1
    intro hsession
    rw [hsame.session] at hsession
    rw [hsame.seqAnchored]
    exact hs hsession

/-- In every reachable state, a datagram refused as malformed or foreign is popped and
leaves everything else alone exactly when the session was already locked or its header
does not parse. -/
theorem malformed_only_popped_iff {cfg : MoldUdpReceiverConfig} {legs : List Leg}
    {inner i' : Inner F} {s : Session F} (hnew : fromLegs cfg legs = .ok inner)
    (hrun : Session.Reaches (Session.start inner) s) (now : Option Instant) {e : MoldUdpError}
    (hprocess : s.inner.processNextPending now = (.error e, i')) (he : e.RejectsDatagram) :
    s.inner.OnlyPopped i' ↔ s.inner.session ≠ none ∨ s.inner.HeaderUnparsed := by
  obtain rfl := fromLegs_ok hnew
  have hprocessed := s.inner.processNextPending_processed now
  rw [hprocess] at hprocessed
  exact Inner.onlyPopped_iff hprocessed (Session.lockAnchored_run hrun) he

/-- Once a heartbeat has locked the session, a datagram without the block it announces is
only popped. -/
theorem malformed_only_popped_locked :
    ∃ s : Session (List UInt8), ∃ i',
      Session.Reaches (Session.start sampleOneLeg) s ∧
      s.inner.processNextPending none = (.error .packetTooShort, i') ∧ s.inner.OnlyPopped i' := by
  have hend : ∃ s ∈ Machine.follow Session.next (Session.start sampleOneLeg)
        [.land [(0, .frame (moldHeartbeat sampleSession 1)),
          (0, .frame (moldControl sampleSession 1 1))] [], .decode 0],
      (s.inner.processNextPending none).1 = .error .packetTooShort ∧ s.inner.session ≠ none := by
    decide +kernel
  obtain ⟨s, hs, hprocess, hlocked⟩ := hend
  have hrun : Session.Reaches (Session.start sampleOneLeg) s :=
    .of_follow (Machine.allowedAlong_of_forall (fun _ _ ↦ trivial) _ _) hs
  have hprocess : s.inner.processNextPending none = (.error .packetTooShort, _) :=
    Prod.ext hprocess rfl
  exact ⟨s, _, hrun, hprocess, (@malformed_only_popped_iff _ _ { startSequence := some 1 }
    [⟨minLegPoolCapacity⟩] _ _ s rfl hrun none _ hprocess trivial).mpr (Or.inl hlocked)⟩

/-- The same datagram as the first one of all: it is refused, and locks the session. -/
theorem malformed_locks_session :
    ∃ s : Session (List UInt8), ∃ i',
      Session.Reaches (Session.start sampleOneLeg) s ∧
      s.inner.processNextPending none = (.error .packetTooShort, i') ∧
      s.inner.session = none ∧ i'.session = some sampleSession := by
  have hend : ∃ s ∈ Machine.follow Session.next (Session.start sampleOneLeg)
        [.land [(0, .frame (moldControl sampleSession 1 1))] []],
      (s.inner.processNextPending none).1 = .error .packetTooShort ∧ s.inner.session = none ∧
        (s.inner.processNextPending none).2.session = some sampleSession := by
    decide +kernel
  obtain ⟨s, hs, hprocess, hfree, hlocked⟩ := hend
  exact ⟨s, _, .of_follow (Machine.allowedAlong_of_forall (fun _ _ ↦ trivial) _ _) hs,
    Prod.ext hprocess rfl, hfree, hlocked⟩

end MoldUdp
