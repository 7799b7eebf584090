import PolarisTrade.SoupBin.Client

/-!
# Outbound order of the synchronous client

The bytes the transport has accepted, followed by the bytes in `out`, are the packets
queued so far, written one after another.  `out` is dropped in three places, each of them
closes the session, and a closed session queues nothing more.
-/

namespace SoupBin

open Transport Word

namespace SoupBinClient

/-- Accepted and pending bytes are `bytes`, unless the session was closed and dropped what
was pending. -/
def Writes (c : SoupBinClient) (bytes : List UInt8) : Prop :=
  c.transport.sent ++ c.session.out = bytes ∨
    (c.session.state = .closed ∧ c.session.out = [] ∧ c.transport.sent <+: bytes)

variable {c c' : SoupBinClient} {bytes : List UInt8} {now : Instant}

theorem Writes.isPrefix (h : c.Writes bytes) : c.transport.sent <+: bytes := by
  rcases h with h | ⟨-, -, h⟩
  · exact ⟨_, h⟩
  · exact h

/-- Dropping what is pending and closing. -/
theorem Writes.clear (h : c.Writes bytes) (hsent : c'.transport.sent = c.transport.sent)
    (hstate : c'.session.state = .closed) (hout : c'.session.out = []) : c'.Writes bytes :=
  Or.inr ⟨hstate, hout, hsent ▸ h.isPrefix⟩

/-- A session that is open, or keeps its state, and keeps what is pending. -/
theorem Writes.keep (h : c.Writes bytes) (hsent : c'.transport.sent = c.transport.sent)
    (hout : c'.session.out = c.session.out)
    (hstate : c.session.state = .closed → c'.session.state = .closed) : c'.Writes bytes := by
  rcases h with h | ⟨hclosed, hempty, hprefix⟩
  · exact Or.inl (by rw [hsent, hout, h])
  · exact Or.inr ⟨hstate hclosed, hout.trans hempty, hsent ▸ hprefix⟩

theorem Writes.flushed (h : c.Writes bytes) (hflushed : c.Flushed now c') : c'.Writes bytes := by
  obtain ⟨n, lastSend, sends, rfl, -, -⟩ := hflushed
  rcases h with h | ⟨hclosed, hempty, hprefix⟩
  · refine Or.inl ?_
    dsimp only
    rw [List.append_assoc, List.take_append_drop, h]
  · refine Or.inr ⟨hclosed, ?_, ?_⟩
    · simp [hempty]
    · simpa [hempty] using hprefix

/-- One more packet behind what is pending in an open session. -/
theorem Writes.queue (h : c.Writes bytes) (hopen : c.session.state ≠ .closed) {p : PacketFrame}
    (hsent : c'.transport.sent = c.transport.sent)
    (hout : c'.session.out = c.session.out ++ p.bytes) : c'.Writes (bytes ++ p.bytes) := by
  rcases h with h | ⟨hclosed, -, -⟩
  · exact Or.inl (by rw [hsent, hout, ← List.append_assoc, h])
  · exact (hopen hclosed).elim

theorem Writes.loginLooped {s : Session} {t : Stream} {r : Except SoupBinError (Option Login)}
    (h : c.Writes bytes) (hopen : c.session.state = .authenticating)
    (hlooped : Looped (fun s ↦ s.dispatchLogin now) now c.session c.transport r s t) :
    Writes ⟨t, s⟩ bytes := by
  obtain ⟨hsent, buf, lastRecv, heffect | ⟨-, rfl⟩⟩ :=
    hlooped.effect (fun s ↦ s.dispatchLogin_effect now) fun _ _ h ↦ h
  · have hnot : ∀ {P : Prop}, c.session.state = .closed → P := by
      intro P hclosed
      rw [hopen] at hclosed
      cases hclosed
    rcases r with e | _ | login
    · obtain ⟨-, buf', rfl⟩ := heffect
      exact h.keep hsent rfl id
    · obtain ⟨buf', rfl⟩ := heffect
      exact h.keep hsent rfl id
    · cases login with
      | accepted session sequence =>
          obtain ⟨-, buf', id, rfl⟩ := heffect
          exact h.keep hsent rfl hnot
      | rejected reason =>
          obtain ⟨buf', rfl⟩ := heffect
          exact h.keep hsent rfl hnot
  · exact h.keep hsent rfl id

theorem Writes.streamLooped {s : Session} {t : Stream}
    {r : Except SoupBinError (Option Streamed)} (h : c.Writes bytes)
    (hlooped : Looped Session.dispatchStream now c.session c.transport r s t) :
    Writes ⟨t, s⟩ bytes := by
  obtain ⟨hsent, buf, lastRecv, heffect | ⟨-, rfl⟩⟩ :=
    hlooped.effect Session.dispatchStream_effect fun _ _ h ↦ h
  · rcases r with e | _ | streamed
    · obtain ⟨-, buf', rfl⟩ := heffect
      exact h.keep hsent rfl id
    · obtain ⟨buf', rfl⟩ := heffect
      exact h.keep hsent rfl id
    · cases streamed with
      | data sequence =>
          obtain ⟨-, buf', frame, rfl⟩ := heffect
          exact h.keep hsent rfl id
      | event ev =>
          cases ev with
          | heartbeatReceived =>
              obtain ⟨buf', rfl⟩ := heffect
              exact h.keep hsent rfl id
          | endOfSession =>
              obtain ⟨buf', rfl⟩ := heffect
              exact h.clear hsent rfl rfl
          | _ => exact heffect.elim
  · exact h.keep hsent rfl id

theorem Writes.advanced {r : Except SoupBinError (Option SoupBinMessage)}
    {queued : List PacketFrame} (h : c.Writes bytes) (hadvanced : c.Advanced now r c' queued) :
    c'.Writes (bytes ++ queued.flatMap PacketFrame.bytes) := by
  have hheartbeat : c.session.state = .streaming →
      Writes ⟨c.transport, c.session.queueHeartbeat.2⟩
        (bytes ++ PacketFrame.bytes ⟨.clientHeartbeat, []⟩) := fun hstate ↦
    h.queue (by simp [hstate]) rfl
      (congrArg (fun q ↦ q.2.out) (Session.queue_of_le (Nat.zero_le _)))
  cases hadvanced with
  | heartbeatUnsent e hstate _ hflushed => simpa using (hheartbeat hstate).flushed hflushed
  | heartbeatSent hstate _ hflushed => simpa using (hheartbeat hstate).flushed hflushed
  | ended => simpa using h
  | closing => simpa using h
  | loginFailed e hstate hlooped => simpa using h.loginLooped hstate hlooped
  | loginFound login hstate hlooped => simpa using h.loginLooped hstate hlooped
  | loginIdle hstate hlooped => simpa using h.loginLooped hstate hlooped
  | loginTimedOut hstate hlooped =>
      rw [List.flatMap_nil, List.append_nil]
      exact (h.loginLooped hstate hlooped).clear rfl rfl rfl
  | streamFailed e _ _ hlooped => simpa using h.streamLooped hlooped
  | streamFound streamed _ _ hlooped => simpa using h.streamLooped hlooped
  | streamIdle _ _ hlooped => simpa using h.streamLooped hlooped
  | streamTimedOut _ _ hlooped =>
      rw [List.flatMap_nil, List.append_nil]
      exact (h.streamLooped hlooped).clear rfl rfl rfl

theorem Writes.polled {r : Except SoupBinError (Option SoupBinMessage)}
    {queued : List PacketFrame} (h : c.Writes bytes) (hpolled : c.Polled now r c' queued) :
    c'.Writes (bytes ++ queued.flatMap PacketFrame.bytes) := by
  cases hpolled with
  | unsent e hflushed => simpa using h.flushed hflushed
  | advanced hflushed hadvanced => exact (h.flushed hflushed).advanced hadvanced

end SoupBinClient

/-! ## Whole runs -/

namespace Driven

/-- The packets queued fit their length field and are what is written. -/
structure InOrder (d : Driven) : Prop where
  fits : ∀ p ∈ d.queued, p.payload.length < 65535
  writes : d.client.Writes (d.queued.flatMap PacketFrame.bytes)

theorem heartbeats_fit (c : SoupBinClient) (now : Instant) :
    ∀ p ∈ c.heartbeats now, p.payload.length < 65535 := by
  unfold SoupBinClient.heartbeats
  split
  · simp
  · split <;> simp

theorem inOrder_start (recvs : List (Except TransportError (List UInt8)))
    (sends : List (Except TransportError ℕ)) (cfg : SoupBinClientConfig) (now created : Instant) :
    (start recvs sends cfg now created).InOrder := by
  have hlen := length_loginRequest cfg
  refine ⟨?_, ?_⟩
  · rintro p hp
    obtain rfl := List.mem_singleton.mp hp
    dsimp only
    omega
  · unfold start SoupBinClient.start
    rw [Session.queueLogin_eq]
    refine SoupBinClient.Writes.flushed (Or.inl ?_) (SoupBinClient.flush_flushed ⟨_, _⟩ now).1
    simp [Session.new]

theorem InOrder.next {d d' : Driven} {call : Call} (h : d.InOrder)
    (hnext : d.next call = some d') : d'.InOrder := by
  -- a call that queues one packet behind what is there, in an open session
  have hqueue : ∀ {c' : SoupBinClient} {p : PacketFrame}, d.client.session.state ≠ .closed →
      p.payload.length < 65535 → c'.transport.sent = d.client.transport.sent →
      c'.session.out = d.client.session.out ++ p.bytes →
      InOrder ⟨c', d.results, d.queued ++ [p]⟩ := by
    intro c' p hopen hfits hsent hout
    refine ⟨fun q hq ↦ ?_, ?_⟩
    · rcases List.mem_append.mp hq with hq | hq
      · exact h.fits q hq
      · exact List.mem_singleton.mp hq ▸ hfits
    · simpa using h.writes.queue hopen hsent hout
  cases call with
  | poll now =>
      cases hnext
      refine ⟨fun p hp ↦ ?_, ?_⟩
      · rcases List.mem_append.mp hp with hp | hp
        · exact h.fits p hp
        · exact heartbeats_fit d.client now p hp
      · rw [List.flatMap_append]
        exact h.writes.polled (d.client.poll_polled now)
  | queueUnsequenced payload =>
      cases hnext
      rcases d.client.queueUnsequenced_cases payload with
        ⟨-, hcall⟩ | ⟨-, -, hcall⟩ | ⟨hopen, hle, hcall⟩
      · rw [hcall]
        simpa [accepted] using h
      · rw [hcall]
        simpa [accepted] using h
      · rw [hcall]
        exact hqueue hopen (Nat.lt_succ_of_le hle) rfl rfl
  | queueLogout =>
      cases hnext
      rcases d.client.queueLogout_cases with ⟨-, hcall⟩ | ⟨hopen, hcall⟩
      · rw [hcall]
        simpa [accepted] using h
      · rw [hcall]
        exact hqueue hopen (by simp) rfl rfl

theorem inOrder_of_run {recvs : List (Except TransportError (List UInt8))}
    {sends : List (Except TransportError ℕ)} {cfg : SoupBinClientConfig} {now created : Instant}
    {allowed : Driven → Call → Prop} {d : Driven}
    (hrun : machine.Run allowed (start recvs sends cfg now created) d) : d.InOrder :=
  hrun.invariant (inOrder_start recvs sends cfg now created) fun _ _ _ h _ hstep ↦ h.next hstep

/-- A closed session with nothing pending writes nothing, whatever is called. -/
theorem silent_next {d d' : Driven} {call : Call} (hclosed : d.client.session.state = .closed)
    (hout : d.client.session.out = []) (hnext : d.next call = some d') :
    d'.client.session.state = .closed ∧ d'.client.session.out = [] ∧
      d'.client.transport.sent = d.client.transport.sent := by
  cases call with
  | poll now =>
      cases hnext
      obtain ⟨n, lastSend, sends, hpoll, -, -⟩ :=
        (SoupBinClient.poll_of_closed hclosed now).2
      dsimp only
      rw [hpoll]
      simp [hclosed, hout]
  | queueUnsequenced payload =>
      cases hnext
      rcases d.client.queueUnsequenced_cases payload with
        ⟨-, hcall⟩ | ⟨hopen, -⟩ | ⟨hopen, -⟩
      · rw [hcall]
        exact ⟨hclosed, hout, rfl⟩
      · exact (hopen hclosed).elim
      · exact (hopen hclosed).elim
  | queueLogout =>
      cases hnext
      rcases d.client.queueLogout_cases with ⟨-, hcall⟩ | ⟨hopen, -⟩
      · rw [hcall]
        exact ⟨hclosed, hout, rfl⟩
      · exact (hopen hclosed).elim

/-- Outbound order.  What the transport has accepted is at all times a front part of the
packets queued without an error, in the order they were queued, and parsing those bytes
gives the packets back.  An oversize payload changes nothing, and a closed session with
nothing pending writes no further byte. -/
theorem outbound_in_order {recvs : List (Except TransportError (List UInt8))}
    {sends : List (Except TransportError ℕ)} {cfg : SoupBinClientConfig} {now created : Instant}
    {d : Driven} (hrun : Reaches (start recvs sends cfg now created) d) :
    d.client.transport.sent <+: d.queued.flatMap PacketFrame.bytes ∧
    wireFramer.cut (d.queued.flatMap PacketFrame.bytes) = (d.queued, none, []) ∧
    (∀ payload d', 65534 < payload.length → d.next (.queueUnsequenced payload) = some d' →
      (∃ e, (d.client.queueUnsequenced payload).1 = .error e) ∧ d' = d) ∧
    (d.client.session.state = .closed → d.client.session.out = [] → ∀ d', Reaches d d' →
      d'.client.transport.sent = d.client.transport.sent) := by
  have h := inOrder_of_run hrun
  refine ⟨h.writes.isPrefix, cut_packets h.fits, fun payload d' hlong hnext ↦ ?_, ?_⟩
  · cases hnext
    rcases d.client.queueUnsequenced_cases payload with
      ⟨-, hcall⟩ | ⟨-, -, hcall⟩ | ⟨-, hle, -⟩
    · rw [hcall]
      exact ⟨⟨_, rfl⟩, by simp [accepted]⟩
    · rw [hcall]
      exact ⟨⟨_, rfl⟩, by simp [accepted]⟩
    · omega
  · intro hclosed hout d' hrun'
    have hsilent := hrun'.invariant (I := fun e ↦ e.client.session.state = .closed ∧
      e.client.session.out = [] ∧ e.client.transport.sent = d.client.transport.sent)
      ⟨hclosed, hout, rfl⟩ fun e call e' ⟨hc, ho, hs⟩ _ hstep ↦ by
        obtain ⟨hc', ho', hs'⟩ := silent_next hc ho hstep
        exact ⟨hc', ho', hs'.trans hs⟩
    exact hsilent.2.2

/-- The socket takes ten bytes of the login and is full; with a packet queued behind it, it
takes 42 bytes more and fails. -/
def samplePartial : Driven :=
  start [] [.ok 10, .ok 0, .ok 40, .ok 2, .error .peerClosed] {} 0 0

theorem outbound_in_order_partial :
    ∃ d ∈ Machine.follow next samplePartial
        [.queueUnsequenced [1, 2], .poll 1, .queueLogout],
      d.client.transport.sent.length = 52 ∧
      d.client.transport.sent <+: d.queued.flatMap PacketFrame.bytes := by
  have hend : ∃ d ∈ Machine.follow next samplePartial
        [.queueUnsequenced [1, 2], .poll 1, .queueLogout],
      d.client.transport.sent.length = 52 := by decide +kernel
  obtain ⟨d, hd, hlen⟩ := hend
  have hrun : Reaches samplePartial d :=
    Machine.Run.of_follow (Machine.allowedAlong_of_forall (fun _ _ ↦ trivial) _ _) hd
  exact ⟨d, hd, hlen, (outbound_in_order hrun).1⟩

end Driven

end SoupBin
