import PolarisTrade.SoupBin.Client

/-!
# Lifecycle of the synchronous client

Every answer of `poll` is of one of five kinds, and one table says which kinds can be
returned between which two states.  At most one login outcome, nothing of the stream before
the login is accepted, which answers close the session, and nothing at all once it is closed are
read off that table along a run.
-/

namespace SoupBin

open Transport Word

/-- What an answer of `poll` says about the session. -/
inductive Kind where
  | quiet
  | accepted
  | refused
  | streamed
  | ended
  deriving DecidableEq

def kind : Except SoupBinError (Option SoupBinMessage) → Kind
  | .ok (some (.data ..)) => .streamed
  | .ok (some (.event (.loginAccepted ..))) => .accepted
  | .ok (some (.event (.loginRejected _))) => .refused
  | .ok (some (.event .endOfSession)) | .ok (some (.event .heartbeatTimeout)) => .ended
  | .ok (some (.event _)) => .streamed
  | .error (.loginTimeout _) => .refused
  | _ => .quiet

/-- `LoginAccepted`, `LoginRejected` and `LoginTimeout`. -/
def Kind.IsLogin (k : Kind) : Prop := k = .accepted ∨ k = .refused

instance : DecidablePred Kind.IsLogin := fun k ↦ inferInstanceAs (Decidable (k = _ ∨ k = _))

/-- Messages and events of the stream, its end included. -/
def Kind.IsStream (k : Kind) : Prop := k = .streamed ∨ k = .ended

/-- `LoginRejected`, `LoginTimeout`, `HeartbeatTimeout` and `EndOfSession`. -/
def Kind.IsClosing (k : Kind) : Prop := k = .refused ∨ k = .ended

theorem SoupBinError.IsProtocol.kind_eq {e : SoupBinError} (h : e.IsProtocol) :
    kind (.error e) = .quiet := by
  cases e with
  | loginTimeout => exact h.elim
  | _ => rfl

/-- The transitions of the session under one `poll`. -/
inductive Moves : ClientState → Kind → ClientState → Prop
  | waits (state : ClientState) : Moves state .quiet state
  | accepts : Moves .authenticating .accepted .streaming
  | refuses : Moves .authenticating .refused .closed
  | streams : Moves .streaming .streamed .streaming
  | ends : Moves .streaming .ended .closed

/-- An open session is closed by the closing answers only, and by each of them. -/
theorem Moves.closes_iff {state state' : ClientState} {k : Kind} (h : Moves state k state')
    (hopen : state ≠ .closed) : state' = .closed ↔ k.IsClosing := by
  cases h with
  | waits => exact iff_of_false hopen (by rintro (h | h) <;> cases h)
  | accepts => exact iff_of_false (by decide) (by rintro (h | h) <;> cases h)
  | refuses => exact iff_of_true rfl (.inl rfl)
  | streams => exact iff_of_false (by decide) (by rintro (h | h) <;> cases h)
  | ends => exact iff_of_true rfl (.inr rfl)

namespace SoupBinClient

variable {c c' : SoupBinClient} {now : Instant}

theorem moves_loginLooped {s : Session} {t : Stream} {r : Except SoupBinError (Option Login)}
    (hopen : c.session.state = .authenticating)
    (hlooped : Looped (fun s ↦ s.dispatchLogin now) now c.session c.transport r s t) :
    Moves c.session.state (kind (r.map (Option.map fun login ↦ .event login.event))) s.state := by
  obtain ⟨-, buf, lastRecv, heffect | ⟨⟨e, rfl⟩, rfl⟩⟩ :=
    hlooped.effect (fun s ↦ s.dispatchLogin_effect now) fun _ _ h ↦ h
  · rcases r with e | _ | login
    · obtain ⟨hprotocol, buf', rfl⟩ := heffect
      rw [Except.map, hprotocol.kind_eq]
      exact .waits _
    · obtain ⟨buf', rfl⟩ := heffect
      exact .waits _
    · rw [hopen]
      cases login with
      | accepted session sequence =>
          obtain ⟨-, buf', id, rfl⟩ := heffect
          exact .accepts
      | rejected reason =>
          obtain ⟨buf', rfl⟩ := heffect
          exact .refuses
  · exact .waits _

theorem moves_streamLooped {s : Session} {t : Stream}
    {r : Except SoupBinError (Option Streamed)} (hopen : c.session.state = .streaming)
    (hlooped : Looped Session.dispatchStream now c.session c.transport r s t) :
    Moves c.session.state (kind (r.map (Option.map fun streamed ↦ streamed.message s)))
      s.state := by
  obtain ⟨-, buf, lastRecv, heffect | ⟨⟨e, rfl⟩, rfl⟩⟩ :=
    hlooped.effect Session.dispatchStream_effect fun _ _ h ↦ h
  · rcases r with e | _ | streamed
    · obtain ⟨hprotocol, buf', rfl⟩ := heffect
      rw [Except.map, hprotocol.kind_eq]
      exact .waits _
    · obtain ⟨buf', rfl⟩ := heffect
      exact .waits _
    · cases streamed with
      | data sequence =>
          obtain ⟨-, buf', frame, rfl⟩ := heffect
          dsimp only
          rw [hopen]
          exact .streams
      | event ev =>
          cases ev with
          | heartbeatReceived =>
              obtain ⟨buf', rfl⟩ := heffect
              dsimp only
              rw [hopen]
              exact .streams
          | endOfSession =>
              obtain ⟨buf', rfl⟩ := heffect
              rw [hopen]
              exact .ends
          | _ => exact heffect.elim
  · exact .waits _

theorem Advanced.moves {r : Except SoupBinError (Option SoupBinMessage)}
    {queued : List PacketFrame} (h : c.Advanced now r c' queued) :
    Moves c.session.state (kind r) c'.session.state := by
  have hheartbeat : ∀ {c'}, Flushed ⟨c.transport, c.session.queueHeartbeat.2⟩ now c' →
      c'.session.state = c.session.state := by
    rintro c' ⟨n, lastSend, sends, rfl, -, -⟩
    have hqueue := @Session.queue_of_le c.session .clientHeartbeat [] (Nat.zero_le _)
    exact congrArg (fun q ↦ q.2.state) hqueue
  cases h with
  | ended => exact .waits _
  | closing => exact .waits _
  | loginFailed e hopen hlooped => exact moves_loginLooped hopen hlooped
  | loginFound login hopen hlooped => exact moves_loginLooped hopen hlooped
  | loginIdle hopen hlooped => exact moves_loginLooped hopen hlooped
  | loginTimedOut hopen =>
      rw [hopen]
      exact .refuses
  | heartbeatUnsent e _ _ hflushed =>
      rw [hheartbeat hflushed]
      exact .waits _
  | heartbeatSent hopen _ hflushed =>
      rw [hheartbeat hflushed, hopen]
      exact .streams
  | streamFailed e hopen _ hlooped => exact moves_streamLooped hopen hlooped
  | streamFound streamed hopen _ hlooped => exact moves_streamLooped hopen hlooped
  | streamIdle hopen _ hlooped => exact moves_streamLooped hopen hlooped
  | streamTimedOut hopen =>
      rw [hopen]
      exact .ends

theorem poll_moves (c : SoupBinClient) (now : Instant) :
    Moves c.session.state (kind (c.poll now).1) (c.poll now).2.session.state := by
  have hpolled := c.poll_polled now
  generalize (c.poll now).1 = r at hpolled ⊢
  generalize (c.poll now).2 = c' at hpolled ⊢
  generalize c.heartbeats now = queued at hpolled
  cases hpolled with
  | unsent e hflushed =>
      rw [hflushed.state_eq]
      exact .waits _
  | advanced hflushed hadvanced =>
      rw [← hflushed.state_eq]
      exact hadvanced.moves

end SoupBinClient

/-! ## Whole runs -/

namespace Driven

/-- Login outcomes among the answers, and what the state says about them. -/
structure Staged (d : Driven) : Prop where
  once : (d.results.filter fun r ↦ (kind r).IsLogin).length ≤ 1
  waiting : d.client.session.state = .authenticating → ∀ r ∈ d.results, ¬ (kind r).IsLogin
  accepted : d.client.session.state = .streaming → ∃ r ∈ d.results, kind r = .accepted
  after : ∀ before r rest, d.results = before ++ r :: rest → (kind r).IsStream →
    ∃ a ∈ before, kind a = .accepted

theorem staged_start (recvs : List (Except TransportError (List UInt8)))
    (sends : List (Except TransportError ℕ)) (cfg : SoupBinClientConfig) (now created : Instant) :
    (start recvs sends cfg now created).Staged := by
  have hstate : (start recvs sends cfg now created).client.session.state = .authenticating := by
    unfold start SoupBinClient.start
    rw [Session.queueLogin_eq]
    exact (SoupBinClient.flush_flushed ⟨_, _⟩ now).1.state_eq
  refine ⟨Nat.zero_le 1, ?_, ?_, ?_⟩
  · intro _ r hr
    cases hr
  · intro hstreaming
    rw [hstate] at hstreaming
    cases hstreaming
  · intro before r rest h
    exact absurd h (by simp [start])

/-- One more answer, between the states the table allows. -/
theorem Staged.answer {d : Driven} {c' : SoupBinClient} {queued : List PacketFrame}
    {r : Except SoupBinError (Option SoupBinMessage)} (h : d.Staged)
    (hmoves : Moves d.client.session.state (kind r) c'.session.state) :
    Staged ⟨c', d.results ++ [r], queued⟩ := by
  generalize hbefore : d.client.session.state = state at hmoves
  generalize hafter : c'.session.state = state' at hmoves
  generalize hkind : kind r = k at hmoves
  have hlogin : (kind r).IsLogin → state = .authenticating := by
    rw [hkind]
    rintro (rfl | rfl)
    · cases hmoves; rfl
    · cases hmoves; rfl
  refine ⟨?_, ?_, ?_, ?_⟩
  · rw [List.filter_append, List.length_append]
    by_cases hr : (kind r).IsLogin
    · have hnone : d.results.filter (fun r ↦ (kind r).IsLogin) = [] := by
        simpa using h.waiting (hbefore.trans (hlogin hr))
      simp [hnone, hr]
    · simpa [hr] using h.once
  · intro hopen a ha
    have hquiet : k = .quiet ∧ state = .authenticating := by
      rw [hafter.symm.trans hopen] at hmoves
      cases hmoves
      exact ⟨rfl, rfl⟩
    rcases List.mem_append.mp ha with ha | ha
    · exact h.waiting (hbefore.trans hquiet.2) a ha
    · rw [List.mem_singleton.mp ha, hkind, hquiet.1]
      decide
  · intro hopen
    by_cases hk : k = .accepted
    · exact ⟨r, by simp, hkind.trans hk⟩
    · have hstreaming : state = .streaming := by
        rw [hafter.symm.trans hopen] at hmoves
        cases hmoves with
        | accepts => exact (hk rfl).elim
        | _ => rfl
      obtain ⟨a, ha, haccepted⟩ := h.accepted (hbefore.trans hstreaming)
      exact ⟨a, List.mem_append_left _ ha, haccepted⟩
  · intro before a rest hresults hstreamed
    rcases List.eq_nil_or_concat rest with rfl | ⟨rest, b, rfl⟩
    · -- the answer just returned
      obtain ⟨hall, hlast⟩ := List.append_inj' hresults rfl
      obtain rfl : r = a := by simpa using hlast
      have hstreaming : state = .streaming := by
        rw [hkind] at hstreamed
        rcases hstreamed with rfl | rfl
        · cases hmoves; rfl
        · cases hmoves; rfl
      rw [← hall]
      exact h.accepted (hbefore.trans hstreaming)
    · have hold : d.results ++ [r] = (before ++ a :: rest) ++ [b] := by simpa using hresults
      exact h.after before a rest (List.append_inj' hold rfl).1 hstreamed

/-- A call that answers nothing and at most closes the session. -/
theorem Staged.close {d d' : Driven} (h : d.Staged) (hresults : d'.results = d.results)
    (hstate : d'.client.session.state = d.client.session.state ∨
      d'.client.session.state = .closed) : d'.Staged := by
  refine ⟨hresults ▸ h.once, fun hopen ↦ ?_, fun hopen ↦ ?_, hresults ▸ h.after⟩
  · rcases hstate with hsame | hclosed
    · exact hresults ▸ h.waiting (hsame ▸ hopen)
    · cases hclosed.symm.trans hopen
  · rcases hstate with hsame | hclosed
    · exact hresults ▸ h.accepted (hsame ▸ hopen)
    · cases hclosed.symm.trans hopen

theorem Staged.next {d d' : Driven} {call : Call} (h : d.Staged)
    (hnext : d.next call = some d') : d'.Staged := by
  cases call with
  | poll now =>
      cases hnext
      exact h.answer (d.client.poll_moves now)
  | queueUnsequenced payload =>
      cases hnext
      refine h.close rfl ?_
      rcases d.client.queueUnsequenced_cases payload with
        ⟨-, hcall⟩ | ⟨-, -, hcall⟩ | ⟨-, -, hcall⟩
      all_goals exact Or.inl (by rw [hcall])
  | queueLogout =>
      cases hnext
      refine h.close rfl ?_
      rcases d.client.queueLogout_cases with ⟨-, hcall⟩ | ⟨-, hcall⟩
      · exact Or.inl (by rw [hcall])
      · exact Or.inr (by rw [hcall])

/-- What a closed session keeps, and what its polls have returned since `d`. -/
structure Frozen (d d' : Driven) : Prop where
  closed : d'.client.session.state = .closed
  nextExpectedSequence : d'.client.session.nextExpectedSequence =
    d.client.session.nextExpectedSequence
  assignedId : d'.client.session.assignedId = d.client.session.assignedId
  answers : ∃ more, d'.results = d.results ++ more ∧ ∀ r ∈ more, IsOver r

theorem Frozen.next {d d' d'' : Driven} {call : Call} (h : Frozen d d')
    (hnext : d'.next call = some d'') : Frozen d d'' := by
  cases call with
  | poll now =>
      cases hnext
      obtain ⟨hover, n, lastSend, sends, hpoll, -, -⟩ :=
        SoupBinClient.poll_of_closed h.closed now
      obtain ⟨more, hresults, hmore⟩ := h.answers
      refine ⟨?_, ?_, ?_, more ++ [(d'.client.poll now).1], ?_, ?_⟩
      · rw [hpoll]
        exact h.closed
      · rw [hpoll]
        exact h.nextExpectedSequence
      · rw [hpoll]
        exact h.assignedId
      · dsimp only
        rw [hresults, List.append_assoc]
      · intro r hr
        rcases List.mem_append.mp hr with hr | hr
        · exact hmore r hr
        · exact List.mem_singleton.mp hr ▸ hover
  | queueUnsequenced payload =>
      cases hnext
      have hcall : d'.client.queueUnsequenced payload = (.error .endOfSession, d'.client) :=
        if_pos h.closed
      rw [hcall]
      exact ⟨h.closed, h.nextExpectedSequence, h.assignedId, h.answers⟩
  | queueLogout =>
      cases hnext
      have hcall : d'.client.queueLogout = (.error .endOfSession, d'.client) := if_pos h.closed
      rw [hcall]
      exact ⟨h.closed, h.nextExpectedSequence, h.assignedId, h.answers⟩

/-- Lifecycle of the session.  At most one login outcome is ever returned, an answer of the
stream comes only behind an accepted login.  An open session is closed by `queue_logout` and by a
poll that answers `LoginRejected`, `LoginTimeout`, `HeartbeatTimeout` or `EndOfSession`, and by
nothing else.  A closed session stays closed: its polls hand out nothing, sequence and session id
are fixed, and queueing fails and changes nothing. -/
theorem session_lifecycle {recvs : List (Except TransportError (List UInt8))}
    {sends : List (Except TransportError ℕ)} {cfg : SoupBinClientConfig} {now created : Instant}
    {d : Driven} (hrun : Reaches (start recvs sends cfg now created) d) :
    (d.results.filter fun r ↦ (kind r).IsLogin).length ≤ 1 ∧
    (∀ before r rest, d.results = before ++ r :: rest → (kind r).IsStream →
      ∃ a ∈ before, kind a = .accepted) ∧
    (d.client.session.state ≠ .closed →
      (∀ now', (d.client.poll now').2.session.state = .closed ↔
        (kind (d.client.poll now').1).IsClosing) ∧
      (∀ payload, (d.client.queueUnsequenced payload).2.session.state ≠ .closed) ∧
      d.client.queueLogout.2.session.state = .closed) ∧
    (d.client.session.state = .closed → ∀ d', Reaches d d' →
      Frozen d d' ∧
      (∀ payload, d'.client.queueUnsequenced payload = (.error .endOfSession, d'.client)) ∧
      d'.client.queueLogout = (.error .endOfSession, d'.client)) := by
  have hstaged : d.Staged := hrun.invariant (staged_start recvs sends cfg now created)
    fun _ _ _ h _ hstep ↦ h.next hstep
  refine ⟨hstaged.once, hstaged.after, fun hopen ↦ ⟨?_, fun payload ↦ ?_, ?_⟩,
    fun hclosed d' hrun' ↦ ?_⟩
  · exact fun now' ↦ (d.client.poll_moves now').closes_iff hopen
  · rcases d.client.queueUnsequenced_cases payload with
      ⟨hclosed, -⟩ | ⟨-, -, hcall⟩ | ⟨-, -, hcall⟩
    · exact (hopen hclosed).elim
    · rwa [hcall]
    · rwa [hcall]
  · rcases d.client.queueLogout_cases with ⟨hclosed, -⟩ | ⟨-, hcall⟩
    · exact (hopen hclosed).elim
    · rw [hcall]
  have hfrozen : Frozen d d' := hrun'.invariant (I := Frozen d)
    ⟨hclosed, rfl, rfl, [], by simp, by simp⟩ fun _ _ _ h _ hstep ↦ h.next hstep
  exact ⟨hfrozen, fun _ ↦ if_pos hfrozen.closed, if_pos hfrozen.closed⟩

/-- One read brings the login answer, a message, the end of the session and a message behind
it. -/
def sampleSession : Driven :=
  start
    [.ok (List.flatMap PacketFrame.bytes
      [⟨.loginAccepted, List.replicate 29 ' '.toUInt8 ++ ['5'.toUInt8]⟩, ⟨.sequencedData, [7]⟩,
        ⟨.endOfSession, []⟩, ⟨.sequencedData, [8]⟩])]
    [.ok 49] {} 0 0

theorem session_lifecycle_ended :
    ∃ d ∈ Machine.follow next sampleSession
        [.poll 1, .poll 1, .poll 1, .poll 1, .queueUnsequenced [1], .queueLogout],
      d.client.session.state = .closed ∧ d.client.session.decodeBuf ≠ [] ∧
      d.results.map kind = [.accepted, .streamed, .ended, .quiet] ∧
      (d.results.filter fun r ↦ (kind r).IsLogin).length ≤ 1 ∧ Frozen d d := by
  have hend : ∃ d ∈ Machine.follow next sampleSession
        [.poll 1, .poll 1, .poll 1, .poll 1, .queueUnsequenced [1], .queueLogout],
      d.client.session.state = .closed ∧ d.client.session.decodeBuf ≠ [] ∧
      d.results.map kind = [.accepted, .streamed, .ended, .quiet] := by decide +kernel
  obtain ⟨d, hd, hclosed, hbuf, hkinds⟩ := hend
  have hrun : Reaches sampleSession d :=
    Machine.Run.of_follow (Machine.allowedAlong_of_forall (fun _ _ ↦ trivial) _ _) hd
  obtain ⟨honce, -, -, hfrozen⟩ := session_lifecycle hrun
  exact ⟨d, hd, hclosed, hbuf, hkinds, honce, (hfrozen hclosed d .refl).1⟩

end Driven

end SoupBin
