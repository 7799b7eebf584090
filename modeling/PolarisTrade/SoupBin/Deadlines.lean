import PolarisTrade.SoupBin.Client

/-!
# Deadlines

Two promises of the synchronous client about time.  A caller parks until `next_deadline` whenever
`poll` has nothing; the instant lies ahead of it except at the two heartbeat boundaries, where one
function compares strictly and the other does not, and in a closed session whose bytes are stuck.
A heartbeat timeout is reported exactly when the server has been silent for longer than
`heartbeat_timeout`: `last_recv` is the last time a poll read a byte or accepted the login.
-/

namespace SoupBin

open Transport Word

/-! ## Parking -/

/-- The socket has nothing to read. -/
def Stream.Dry (t : Stream) : Prop := t.recvs = [] ∨ ∃ rest, t.recvs = .ok [] :: rest

instance (t : Stream) : Decidable t.Dry :=
  match h : t.recvs with
  | [] => .isTrue (Or.inl h)
  | .ok [] :: rest => .isTrue (Or.inr ⟨rest, h⟩)
  | .ok (_ :: _) :: _ => .isFalse (by simp [Stream.Dry, h])
  | .error _ :: _ => .isFalse (by simp [Stream.Dry, h])

/-- The bytes the socket takes before it answers 0 or fails. -/
def takenBytes : List (Except TransportError ℕ) → ℕ
  | .ok (n + 1) :: rest => n + 1 + takenBytes rest
  | _ => 0

namespace Session

/-- A flush empties `out` exactly if the socket takes all of it, and then dates the last byte. -/
theorem flushLoop_out (now : Instant) (fuel : ℕ) : ∀ (s : Session) (t : Stream),
    s.out.length ≤ fuel →
      ((flushLoop now fuel s t).2.1.out = [] ↔ s.out.length ≤ takenBytes t.sends) ∧
      ((flushLoop now fuel s t).2.1.out = [] →
        (flushLoop now fuel s t).2.1.lastSend = if s.out = [] then s.lastSend else now) := by
  induction fuel with
  | zero =>
      intro s t hfuel
      have hempty := List.length_eq_zero_iff.mp (Nat.le_zero.mp hfuel)
      simp [flushLoop, hempty]
  | succ fuel ih =>
      intro s t hfuel
      unfold flushLoop
      by_cases hempty : s.out = []
      · simp [hempty]
      · have hpos := List.length_pos_of_ne_nil hempty
        rw [if_neg (by simpa using hempty)]
        unfold Stream.trySend
        rcases hsends : t.sends with _ | ⟨e | _ | n, rest⟩
        · simp [takenBytes, hempty]
        · simp [takenBytes, hempty]
        · simp [takenBytes, hempty]
        · dsimp only
          rcases hmin : min (n + 1) s.out.length with _ | m
          · omega
          · obtain ⟨hout, hlast⟩ := ih
              { s with
                out := s.out.drop (m + 1)
                lastSend := if (s.out.drop (m + 1)).isEmpty then now else s.lastSend }
              { t with sends := rest, sent := t.sent ++ s.out.take (n + 1) }
              (by rw [List.length_drop]; omega)
            refine ⟨hout.trans ?_, fun hdone ↦ (hlast hdone).trans ?_⟩
            · change (s.out.drop (m + 1)).length ≤ takenBytes rest ↔
                s.out.length ≤ n + 1 + takenBytes rest
              rw [List.length_drop]
              omega
            · rw [if_neg hempty]
              by_cases hrest : s.out.drop (m + 1) = [] <;> simp [hrest]

end Session

namespace SoupBinClient

/-- `last_recv` as a poll at `now` leaves it. -/
def heardAt (c : SoupBinClient) (now : Instant) : Instant :=
  if c.transport.Dry then c.session.lastRecv else now

/-- `last_send` as a poll at `now` leaves it once it has written all of `out`. -/
def sentAt (c : SoupBinClient) (now : Instant) : Instant :=
  if c.session.out = [] then c.session.lastSend else now

/-- Before a poll at `now`: a streaming session is not at its receive deadline, nor at its send
deadline if the socket takes all of `out`; a closed one is before its receive deadline. -/
def Rests (c : SoupBinClient) (now : Instant) : Prop :=
  match c.session.state with
  | .authenticating => True
  | .streaming => now ≠ c.heardAt now + c.session.cfg.heartbeatTimeout ∧
      (c.session.out.length ≤ takenBytes c.transport.sends →
        now ≠ c.sentAt now + c.session.cfg.heartbeatInterval)
  | .closed => now < c.session.lastRecv + c.session.cfg.heartbeatTimeout

end SoupBinClient

theorem Looped.login_none {now : Instant} {s s' : Session} {t t' : Stream}
    (h : Looped (fun s ↦ s.dispatchLogin now) now s t (.ok none) s' t') :
    ∃ buf lastRecv, s' = { s with decodeBuf := buf, lastRecv := lastRecv } := by
  obtain ⟨buf, lastRecv, buf', rfl⟩ :=
    h.effect_ok (fun s ↦ s.dispatchLogin_effect now) fun _ _ h ↦ h
  exact ⟨buf', lastRecv, rfl⟩

theorem Looped.stream_none {now : Instant} {s s' : Session} {t t' : Stream}
    (h : Looped Session.dispatchStream now s t (.ok none) s' t') :
    ∃ buf lastRecv, s' = { s with decodeBuf := buf, lastRecv := lastRecv } := by
  obtain ⟨buf, lastRecv, buf', rfl⟩ := h.effect_ok Session.dispatchStream_effect fun _ _ h ↦ h
  exact ⟨buf', lastRecv, rfl⟩

theorem Session.lastRecv_dispatchStream (s : Session) :
    s.dispatchStream.2.lastRecv = s.lastRecv := by
  have heffect := s.dispatchStream_effect
  generalize s.dispatchStream.1 = r at heffect
  generalize s.dispatchStream.2 = s' at heffect ⊢
  rcases r with e | _ | (sequence | ev)
  · obtain ⟨-, buf, rfl⟩ := heffect
    rfl
  · obtain ⟨buf, rfl⟩ := heffect
    rfl
  · obtain ⟨-, buf, frame, rfl⟩ := heffect
    rfl
  · cases ev with
    | heartbeatReceived | endOfSession =>
        obtain ⟨buf, rfl⟩ := heffect
        rfl
    | _ => exact heffect.elim

/-- The loop of `poll_stream` moves `last_recv` to `now` exactly when it reads a byte, and with
nothing to report it reads none exactly from a dry socket. -/
theorem Looped.silent {now : Instant} {s s' : Session} {t t' : Stream}
    {r : Except SoupBinError (Option Streamed)}
    (h : Looped Session.dispatchStream now s t r s' t') :
    (t'.received = t.received ∧ s'.lastRecv = s.lastRecv ∧ (r = .ok none → t.Dry)) ∨
    (t.received.length < t'.received.length ∧ s'.lastRecv = now ∧ ¬ t.Dry) := by
  have hkeeps : ∀ {s s' : Session} {r : Except SoupBinError (Option Streamed)},
      s.dispatchStream = (r, s') → s'.lastRecv = s.lastRecv := by
    intro s s' r h
    have hkept := s.lastRecv_dispatchStream
    rwa [h] at hkept
  induction h with
  | failed e h => exact Or.inl ⟨rfl, hkeeps h, nofun⟩
  | found a h => exact Or.inl ⟨rfl, hkeeps h, nofun⟩
  | unreadable e h => exact Or.inl ⟨rfl, hkeeps h, nofun⟩
  | drained h hdry => exact Or.inl ⟨rfl, hkeeps h, fun _ ↦ hdry⟩
  | @landed s s₁ s' t t' r bytes rest h hrecvs hne _ ih =>
      have hpos := List.length_pos_of_ne_nil hne
      have hwet : ¬ t.Dry := by simp [Stream.Dry, hrecvs, hne]
      rcases ih with ⟨hreceived, hlast, -⟩ | ⟨hlt, hlast, -⟩
      · refine Or.inr ⟨?_, hlast, hwet⟩
        rw [hreceived, List.length_append]
        omega
      · refine Or.inr ⟨?_, hlast, hwet⟩
        rw [List.length_append] at hlt
        omega

namespace SoupBinClient

variable {c c' : SoupBinClient} {now : Instant}

theorem Flushed.kept (h : c.Flushed now c') :
    c'.transport.received = c.transport.received ∧ c'.transport.recvs = c.transport.recvs ∧
      c'.session.lastRecv = c.session.lastRecv ∧ c'.session.cfg = c.session.cfg := by
  obtain ⟨n, lastSend, sends, rfl, -, -⟩ := h
  exact ⟨rfl, rfl, rfl, rfl⟩

/-- What the flush of a poll does to `out` and `last_send`. -/
theorem flush_out (c : SoupBinClient) (now : Instant) :
    ((c.session.flush c.transport now).2.1.out = [] ↔
      c.session.out.length ≤ takenBytes c.transport.sends) ∧
    ((c.session.flush c.transport now).2.1.out = [] →
      (c.session.flush c.transport now).2.1.lastSend = c.sentAt now) :=
  Session.flushLoop_out now c.session.out.length c.session c.transport le_rfl

/-- A poll of a streaming session that finds nothing to report. -/
theorem poll_none_of_streaming (hnone : (c.poll now).1 = .ok none)
    (hstate : c.session.state = .streaming) :
    (c.poll now).2.session.state = .streaming ∧
    (c.poll now).2.session.cfg = c.session.cfg ∧
    (c.poll now).2.session.lastRecv = c.heardAt now ∧
    now - c.heardAt now ≤ c.session.cfg.heartbeatTimeout ∧
    ((c.poll now).2.session.out = [] ↔
      c.session.out.length ≤ takenBytes c.transport.sends) ∧
    ((c.poll now).2.session.out = [] → (c.poll now).2.session.lastSend = c.sentAt now ∧
      now - c.sentAt now ≤ c.session.cfg.heartbeatInterval) := by
  obtain ⟨hempty, hsent⟩ := c.flush_out now
  have hflushed := (c.flush_flushed now).1
  unfold SoupBinClient.poll at hnone ⊢
  generalize c.session.flush c.transport now = flushed at hempty hsent hflushed hnone ⊢
  obtain ⟨_ | _, s, t⟩ := flushed
  · cases hnone
  obtain ⟨-, hrecvs, hlast, hcfg⟩ := hflushed.kept
  dsimp only at hempty hsent hflushed hrecvs hlast hcfg hnone ⊢
  have hstreaming : s.state = .streaming := hflushed.state_eq.trans hstate
  rw [hstreaming] at hnone ⊢
  dsimp only at hnone ⊢
  have hadvanced := @pollStream_advanced ⟨t, s⟩ now hstreaming
  rw [hnone] at hadvanced
  generalize (pollStream ⟨t, s⟩ now).2 = c' at hadvanced ⊢
  generalize (if (⟨t, s⟩ : SoupBinClient).session.heartbeatDue now then _ else _) = queued
    at hadvanced
  cases hadvanced with
  | closing hclosed => exact absurd (hstreaming.symm.trans hclosed) (by decide)
  | loginIdle hlogin => exact absurd (hstreaming.symm.trans hlogin) (by decide)
  | streamIdle _ hdue hlooped hsoon =>
      have hheard := hlooped.silent
      obtain ⟨buf, lastRecv, rfl⟩ := hlooped.stream_none
      have hsame : c.transport.Dry ↔ t.Dry := by
        unfold Stream.Dry
        rw [hrecvs]
      obtain rfl : lastRecv = c.heardAt now := by
        unfold heardAt
        rcases hheard with ⟨-, hkept, hdry⟩ | ⟨-, hnow, hwet⟩
        · rw [if_pos (hsame.mpr (hdry rfl)), ← hlast]
          exact hkept
        · rw [if_neg (mt hsame.mp hwet)]
          exact hnow
      rw [hcfg] at hsoon
      refine ⟨hstreaming, hcfg, rfl, hsoon, hempty, fun hout ↦ ⟨hsent hout, ?_⟩⟩
      simp only [Session.heartbeatDue, Bool.and_eq_false_iff, decide_eq_false_iff_not,
        List.isEmpty_eq_false_iff] at hdue
      rw [← hsent hout, ← hcfg]
      exact Nat.le_of_not_lt (hdue.resolve_left fun hne ↦ hne hout)

end SoupBinClient

/-- After a poll with nothing to report the next deadline is ahead, unless `now` is one of the
heartbeat deadlines of a streaming session or a closed session has bytes it cannot send. -/
theorem parked_until_later_iff {c : SoupBinClient} {now : Instant}
    (hnone : (c.poll now).1 = .ok none) :
    now < (c.poll now).2.session.nextDeadline ↔ c.Rests now := by
  have hpolled := c.poll_polled now
  rw [hnone] at hpolled
  cases hstate : c.session.state with
  | authenticating =>
      simp only [SoupBinClient.Rests, hstate, iff_true]
      generalize (c.poll now).2 = c' at hpolled ⊢
      generalize c.heartbeats now = queued at hpolled
      cases hpolled with
      | advanced hflushed hadvanced =>
          have hlogin := hflushed.state_eq.trans hstate
          cases hadvanced with
          | loginIdle _ hlooped hearly =>
              obtain ⟨buf, lastRecv, rfl⟩ := hlooped.login_none
              simpa [Session.nextDeadline, hlogin] using hearly
          | closing hclosed => exact absurd (hlogin.symm.trans hclosed) (by decide)
          | streamIdle hstream => exact absurd (hlogin.symm.trans hstream) (by decide)
  | closed =>
      generalize (c.poll now).2 = c' at hpolled ⊢
      generalize c.heartbeats now = queued at hpolled
      cases hpolled with
      | advanced hflushed hadvanced =>
          obtain ⟨-, -, hlast, hcfg⟩ := hflushed.kept
          have hclosed := hflushed.state_eq.trans hstate
          cases hadvanced with
          | closing _ hout =>
              simp [Session.nextDeadline, SoupBinClient.Rests, hstate, hclosed, hout, hlast, hcfg]
          | loginIdle hlogin => exact absurd (hclosed.symm.trans hlogin) (by decide)
          | streamIdle hstream => exact absurd (hclosed.symm.trans hstream) (by decide)
  | streaming =>
      obtain ⟨hstate', hcfg, hrecv, hsoon, hempty, hsend⟩ :=
        SoupBinClient.poll_none_of_streaming hnone hstate
      have hrecvDue := Nat.sub_le_iff_le_add'.mp hsoon
      simp only [Session.nextDeadline, SoupBinClient.Rests, hstate, hstate', hcfg, hrecv]
      -- both timers are not past; the deadline is ahead unless `now` hits one of them
      by_cases hout : (c.poll now).2.session.out = []
      · obtain ⟨hlast, hsoon'⟩ := hsend hout
        rw [if_pos (List.isEmpty_iff.mpr hout), lt_min_iff, hrecvDue.lt_iff_ne, hlast,
          (Nat.sub_le_iff_le_add'.mp hsoon').lt_iff_ne]
        simp only [hempty.mp hout, forall_const]
      · rw [if_neg (mt List.isEmpty_iff.mp hout), hrecvDue.lt_iff_ne]
        simp only [mt hempty.mpr hout, false_implies, and_true]

/-- A login that is sent in `start` and accepted by the first read. -/
def loggingIn : Driven :=
  .start
    [.ok (PacketFrame.bytes ⟨.loginAccepted, List.replicate 29 ' '.toUInt8 ++ ['5'.toUInt8]⟩)]
    [.ok 49] {} 0 0

theorem parked_until_later_iff_streaming :
    ∃ d ∈ Machine.follow Driven.next loggingIn [.poll 1],
      d.client.session.state = .streaming ∧ (d.client.poll 2).1 = .ok none ∧
      d.client.Rests 2 := by
  have hend : ∃ d ∈ Machine.follow Driven.next loggingIn [.poll 1],
      d.client.session.state = .streaming ∧ (d.client.poll 2).1 = .ok none ∧
      2 < (d.client.poll 2).2.session.nextDeadline := by
    decide +kernel
  obtain ⟨d, hd, hstate, hnone, hlater⟩ := hend
  exact ⟨d, hd, hstate, hnone, (parked_until_later_iff hnone).mp hlater⟩

/-- Two loops that spin.  A logout is queued while the socket takes nothing: from the heartbeat
timeout on every poll returns nothing and leaves the same deadline behind it.  A streaming
session is polled at the instant its next heartbeat may be due, which is not yet past. -/
theorem parked_at_passed_deadline :
    (∃ d, Driven.Reaches (.start [] [] {} 0 0) d ∧ d.client.session.state = .closed ∧
      (d.client.poll (15 * 10 ^ 9)).1 = .ok none ∧
      (d.client.poll (15 * 10 ^ 9)).2.session.nextDeadline = 15 * 10 ^ 9 ∧
      ((d.client.poll (15 * 10 ^ 9)).2.poll (20 * 10 ^ 9)).1 = .ok none ∧
      ((d.client.poll (15 * 10 ^ 9)).2.poll (20 * 10 ^ 9)).2.session.nextDeadline =
        15 * 10 ^ 9) ∧
    ∃ d, Driven.Reaches loggingIn d ∧ d.client.session.state = .streaming ∧
      (d.client.poll (10 ^ 9)).1 = .ok none ∧
      (d.client.poll (10 ^ 9)).2.session.nextDeadline = 10 ^ 9 := by
  constructor
  · exact Machine.Run.exists_of_follow [.queueLogout] (by decide +kernel)
  · exact Machine.Run.exists_of_follow [.poll 1] (by decide +kernel)

/-! ## Silence -/

/-- A poll that accepted the login. -/
def accepts : Except SoupBinError (Option SoupBinMessage) → Bool
  | .ok (some (.event (.loginAccepted ..))) => true
  | _ => false

namespace SoupBinClient

variable {c c' : SoupBinClient} {now : Instant}

/-- While the session streams on, `last_recv` moves exactly with the bytes read. -/
theorem poll_of_streaming (hstate : c.session.state = .streaming) (now : Instant)
    (hstate' : (c.poll now).2.session.state = .streaming) :
    accepts (c.poll now).1 = false ∧
    ((c.transport.received.length = (c.poll now).2.transport.received.length ∧
        (c.poll now).2.session.lastRecv = c.session.lastRecv) ∨
      (c.transport.received.length < (c.poll now).2.transport.received.length ∧
        (c.poll now).2.session.lastRecv = now)) := by
  have hpolled := c.poll_polled now
  generalize (c.poll now).1 = r at hpolled ⊢
  generalize (c.poll now).2 = c' at hpolled hstate' ⊢
  generalize c.heartbeats now = queued at hpolled
  cases hpolled with
  | unsent e hflushed =>
      obtain ⟨hreceived, -, hlast, -⟩ := hflushed.kept
      exact ⟨rfl, Or.inl ⟨by rw [hreceived], hlast⟩⟩
  | @advanced c₁ _ _ _ hflushed hadvanced =>
      obtain ⟨hreceived, -, hlast, -⟩ := hflushed.kept
      have hstate₁ := hflushed.state_eq.trans hstate
      have hlooped : ∀ {r : Except SoupBinError (Option Streamed)} {s : Session} {t : Stream},
          Looped Session.dispatchStream now c₁.session c₁.transport r s t →
          (c.transport.received.length = t.received.length ∧ s.lastRecv = c.session.lastRecv) ∨
            (c.transport.received.length < t.received.length ∧ s.lastRecv = now) := by
        intro r s t h
        rw [← hreceived, ← hlast]
        rcases h.silent with ⟨hsame, hkept, -⟩ | ⟨hlt, hnow, -⟩
        · exact Or.inl ⟨by rw [hsame], hkept⟩
        · exact Or.inr ⟨hlt, hnow⟩
      cases hadvanced with
      | heartbeatUnsent e _ _ hflushed' | heartbeatSent _ _ hflushed' =>
          obtain ⟨hreceived', -, hlast', -⟩ := hflushed'.kept
          exact ⟨rfl, Or.inl ⟨by rw [hreceived', hreceived], hlast'.trans hlast⟩⟩
      | streamFailed e _ _ h => exact ⟨rfl, hlooped h⟩
      | @streamFound s t streamed _ _ h =>
          refine ⟨?_, hlooped h⟩
          cases streamed with
          | data sequence => rfl
          | event ev =>
              obtain ⟨buf, lastRecv, heffect⟩ :=
                h.effect_ok Session.dispatchStream_effect fun _ _ h ↦ h
              cases ev with
              | loginAccepted => exact heffect.elim
              | _ => rfl
      | streamTimedOut => cases hstate'
      | streamIdle _ _ h => exact ⟨rfl, hlooped h⟩
      | _ => simp_all

/-- A session starts to stream in the poll that accepts the login. -/
theorem poll_of_authenticating (hstate : c.session.state = .authenticating) (now : Instant)
    (hstate' : (c.poll now).2.session.state = .streaming) :
    accepts (c.poll now).1 = true ∧ (c.poll now).2.session.lastRecv = now := by
  have hpolled := c.poll_polled now
  generalize (c.poll now).1 = r at hpolled ⊢
  generalize (c.poll now).2 = c' at hpolled hstate' ⊢
  generalize c.heartbeats now = queued at hpolled
  cases hpolled with
  | unsent e hflushed =>
      rw [hflushed.state_eq, hstate] at hstate'
      cases hstate'
  | advanced hflushed hadvanced =>
      have hstate₁ := hflushed.state_eq.trans hstate
      cases hadvanced with
      | loginFailed e _ h =>
          obtain ⟨-, buf, lastRecv, ⟨-, buf', rfl⟩ | ⟨-, rfl⟩⟩ :=
            h.effect (fun s ↦ s.dispatchLogin_effect now) fun _ _ h ↦ h
          · simp_all
          · simp_all
      | loginFound login _ h =>
          obtain ⟨buf, lastRecv, heffect⟩ :=
            h.effect_ok (fun s ↦ s.dispatchLogin_effect now) fun _ _ h ↦ h
          cases login with
          | accepted session sequence =>
              obtain ⟨-, buf', id, rfl⟩ := heffect
              exact ⟨rfl, rfl⟩
          | rejected reason =>
              obtain ⟨buf', rfl⟩ := heffect
              cases hstate'
      | loginTimedOut => cases hstate'
      | loginIdle _ h =>
          obtain ⟨buf, lastRecv, rfl⟩ := h.login_none
          simp_all
      | _ => simp_all

/-- A timeout is reported by a streaming session that found nothing to read. -/
theorem poll_timedOut (h : (c.poll now).1 = .ok (some (.event .heartbeatTimeout))) :
    c.session.state = .streaming ∧ c.transport.Dry ∧
    (c.poll now).2.transport.received = c.transport.received ∧
    c.session.cfg.heartbeatTimeout < now - c.session.lastRecv := by
  have hpolled := c.poll_polled now
  rw [h] at hpolled
  generalize (c.poll now).2 = c' at hpolled ⊢
  generalize c.heartbeats now = queued at hpolled
  cases hpolled with
  | advanced hflushed hadvanced =>
      obtain ⟨hreceived, hrecvs, hlast, hcfg⟩ := hflushed.kept
      generalize hmessage : Except.ok (some (SoupBinMessage.event .heartbeatTimeout)) = r
        at hadvanced
      cases hadvanced with
      | streamTimedOut hstate hdue hlooped hlate =>
          obtain ⟨buf, lastRecv, rfl⟩ := hlooped.stream_none
          dsimp only at hlate
          rcases hlooped.silent with ⟨hsame, hkept, hdry⟩ | ⟨-, hnow, -⟩
          · dsimp only at hkept
            refine ⟨hflushed.state_eq ▸ hstate, ?_, hsame.trans hreceived, ?_⟩
            · unfold Stream.Dry
              rw [← hrecvs]
              exact hdry rfl
            · rw [← hlast, ← hcfg, ← hkept]
              exact hlate
          · dsimp only at hnow
            rw [hnow, Nat.sub_self] at hlate
            exact (Nat.not_lt_zero _ hlate).elim
      | loginFound login => cases login <;> cases hmessage
      | @streamFound s t streamed hstate hdue hlooped =>
          obtain ⟨buf, lastRecv, heffect⟩ :=
            hlooped.effect_ok Session.dispatchStream_effect fun _ _ h ↦ h
          cases streamed with
          | data sequence => cases hmessage
          | event ev => cases hmessage; exact heffect.elim
      | _ => cases hmessage

end SoupBinClient

/-! ## The client next to what it heard -/

/-- The client, the instants of the polls that read a byte or accepted the login, and that of
the last poll. -/
structure Listening where
  client : SoupBinClient
  heard : List Instant
  clock : Instant

namespace Listening

variable {w : Listening}

/-- A poll at `now` reads a byte or accepts the login. -/
def Hears (w : Listening) (now : Instant) : Prop :=
  w.client.transport.received.length < (w.client.poll now).2.transport.received.length ∨
    accepts (w.client.poll now).1 = true

instance (w : Listening) (now : Instant) : Decidable (w.Hears now) :=
  inferInstanceAs (Decidable (_ ∨ _))

def next (w : Listening) : Call → Listening
  | .poll now =>
      { client := (w.client.poll now).2
        heard := w.heard ++ if w.Hears now then [now] else []
        clock := now }
  | .queueUnsequenced payload => { w with client := (w.client.queueUnsequenced payload).2 }
  | .queueLogout => { w with client := w.client.queueLogout.2 }

def machine : Machine Listening Call := .ofNext fun w call ↦ some (w.next call)

def start (recvs : List (Except TransportError (List UInt8)))
    (sends : List (Except TransportError ℕ)) (cfg : SoupBinClientConfig) (now created : Instant) :
    Listening where
  client := (SoupBinClient.start { recvs := recvs, sends := sends } cfg now created).2
  heard := []
  clock := 0

/-- Time does not run backwards. -/
def Forward (w : Listening) : Call → Prop
  | .poll now => w.clock ≤ now
  | _ => True

instance (w : Listening) : (call : Call) → Decidable (w.Forward call)
  | .poll _ => inferInstanceAs (Decidable (_ ≤ _))
  | .queueUnsequenced _ | .queueLogout => .isTrue trivial

/-- A streaming session knows when it was last heard from. -/
structure Dated (w : Listening) : Prop where
  past : ∀ t ∈ w.heard, t ≤ w.clock
  last : w.client.session.state = .streaming →
    w.client.session.lastRecv ∈ w.heard ∧ ∀ t ∈ w.heard, t ≤ w.client.session.lastRecv

namespace Dated

theorem start (recvs : List (Except TransportError (List UInt8)))
    (sends : List (Except TransportError ℕ)) (cfg : SoupBinClientConfig) (now created : Instant) :
    (start recvs sends cfg now created).Dated := by
  refine ⟨nofun, fun hstate ↦ ?_⟩
  have hauth : (Listening.start recvs sends cfg now created).client.session.state =
      .authenticating := by
    unfold Listening.start SoupBinClient.start
    rw [Session.queueLogin_eq]
    exact (SoupBinClient.flush_flushed ⟨_, _⟩ now).1.state_eq
  rw [hauth] at hstate
  cases hstate

theorem poll (h : w.Dated) {now : Instant} (hclock : w.clock ≤ now) :
    (w.next (.poll now)).Dated := by
  have hpast : ∀ t ∈ (w.next (.poll now)).heard, t ≤ now := by
    intro t ht
    rcases List.mem_append.mp ht with ht | ht
    · exact (h.past t ht).trans hclock
    · split at ht
      · exact (List.mem_singleton.mp ht).le
      · cases ht
  refine ⟨hpast, fun hstate' ↦ ?_⟩
  change (w.client.poll now).2.session.state = .streaming at hstate'
  -- a poll that hears the server dates it to `now`, later than all before
  have hhears : w.Hears now → (w.client.poll now).2.session.lastRecv = now →
      (w.client.poll now).2.session.lastRecv ∈ (w.next (.poll now)).heard ∧
        ∀ t ∈ (w.next (.poll now)).heard, t ≤ (w.client.poll now).2.session.lastRecv := by
    intro hhears hlast
    rw [hlast]
    refine ⟨List.mem_append_right _ ?_, hpast⟩
    rw [if_pos hhears]
    exact List.mem_singleton_self now
  cases hstate : w.client.session.state with
  | closed =>
      have hflushed := (SoupBinClient.poll_of_closed hstate now).2
      rw [hflushed.state_eq, hstate] at hstate'
      cases hstate'
  | authenticating =>
      obtain ⟨haccepts, hlast⟩ := SoupBinClient.poll_of_authenticating hstate now hstate'
      exact hhears (Or.inr haccepts) hlast
  | streaming =>
      obtain ⟨haccepts, ⟨hsame, hlast⟩ | ⟨hlt, hlast⟩⟩ :=
        SoupBinClient.poll_of_streaming hstate now hstate'
      · have hdeaf : ¬ w.Hears now := by
          rintro (hlt | htrue)
          · omega
          · rw [haccepts] at htrue
            cases htrue
        have hheard : (w.next (.poll now)).heard = w.heard := by
          change w.heard ++ (if w.Hears now then [now] else []) = w.heard
          rw [if_neg hdeaf, List.append_nil]
        rw [hheard]
        exact hlast ▸ h.last hstate
      · exact hhears (Or.inl hlt) hlast

theorem next (h : w.Dated) {call : Call} (hforward : w.Forward call) : (w.next call).Dated := by
  cases call with
  | poll now => exact h.poll hforward
  | queueUnsequenced payload =>
      change Dated { w with client := (w.client.queueUnsequenced payload).2 }
      rcases w.client.queueUnsequenced_cases payload with ⟨-, hqueue⟩ | ⟨-, -, hqueue⟩ |
        ⟨-, -, hqueue⟩
      · rw [hqueue]
        exact h
      · rw [hqueue]
        exact h
      · rw [hqueue]
        exact ⟨h.past, h.last⟩
  | queueLogout =>
      change Dated { w with client := w.client.queueLogout.2 }
      rcases w.client.queueLogout_cases with ⟨-, hqueue⟩ | ⟨-, hqueue⟩
      · rw [hqueue]
        exact h
      · rw [hqueue]
        exact ⟨h.past, nofun⟩

end Dated

end Listening

/-- The heartbeat timeout is exact.  In every run in which time does not run backwards, a poll
that reports it comes more than `heartbeat_timeout` after every poll that read a byte or accepted
the login, itself included, and found the socket dry, whatever was still buffered.  A streaming
session with no heartbeat due, nothing to dispatch and nothing to read reports it and closes as
soon as all of these lie that far back. -/
theorem heartbeat_timeout_exact {recvs : List (Except TransportError (List UInt8))}
    {sends : List (Except TransportError ℕ)} {cfg : SoupBinClientConfig}
    {started created : Instant} {w : Listening}
    (hrun : Listening.machine.Run Listening.Forward
      (.start recvs sends cfg started created) w) (now : Instant) :
    ((w.client.poll now).1 = .ok (some (.event .heartbeatTimeout)) →
      (∀ t ∈ (w.next (.poll now)).heard,
        w.client.session.cfg.heartbeatTimeout < now - t) ∧ w.client.transport.Dry) ∧
    ∀ s t s₁ s₂ t₂, w.client.session.state = .streaming →
      w.client.session.flush w.client.transport now = (.ok (), s, t) →
      s.heartbeatDue now = false → s.dispatchStream = (.ok none, s₁) →
      s₁.ingest t now = (.ok false, s₂, t₂) →
      (∀ t ∈ w.heard, w.client.session.cfg.heartbeatTimeout < now - t) →
      (w.client.poll now).1 = .ok (some (.event .heartbeatTimeout)) ∧
        (w.client.poll now).2.session.state = .closed := by
  have hdated : w.Dated := by
    refine hrun.invariant (I := Listening.Dated) (.start recvs sends cfg started created) ?_
    rintro w call _ h hforward ⟨⟩
    exact h.next hforward
  refine ⟨fun htimeout ↦ ?_, fun s t s₁ s₂ t₂ hstate hflush hdue hdispatch hingest hheard ↦ ?_⟩
  · obtain ⟨hstate, hdry, hreceived, hlate⟩ := SoupBinClient.poll_timedOut htimeout
    refine ⟨fun t ht ↦ ?_, hdry⟩
    have hdeaf : ¬ w.Hears now := by
      unfold Listening.Hears
      rw [hreceived, htimeout]
      simp [accepts]
    have ht : t ∈ w.heard := by
      change t ∈ w.heard ++ (if w.Hears now then [now] else []) at ht
      rwa [if_neg hdeaf, List.append_nil] at ht
    exact hlate.trans_le (Nat.sub_le_sub_left ((hdated.last hstate).2 t ht) now)
  · have hlate := hheard _ (hdated.last hstate).1
    have hflushed := (w.client.flush_flushed now).1
    rw [hflush] at hflushed
    obtain ⟨-, -, hlast, hcfg⟩ := hflushed.kept
    have heffect := s.dispatchStream_effect
    rw [hdispatch] at heffect
    obtain ⟨buf, rfl⟩ := heffect
    have hsame : s₂ = { s with decodeBuf := buf } := by
      rcases Session.ingest_cases { s with decodeBuf := buf } t now with
        ⟨e, rest, -, h⟩ | ⟨-, h⟩ | ⟨bytes, rest, -, -, h⟩
      · rw [hingest] at h
        cases h
      · rw [hingest] at h
        exact congrArg (fun q ↦ q.2.1) h
      · rw [hingest] at h
        cases h
    subst hsame
    have hlate' : ¬ now - s.lastRecv ≤ s.cfg.heartbeatTimeout := by
      rw [hlast, hcfg]
      exact Nat.not_le.mpr hlate
    have hloop : pollLoop Session.dispatchStream now t.recvs.length s t =
        (.ok none, { s with decodeBuf := buf }, t₂) := by
      unfold pollLoop
      rw [hdispatch]
      dsimp only
      rw [hingest]
    have hpoll : w.client.poll now = (.ok (some (.event .heartbeatTimeout)),
        ⟨t₂, { s with decodeBuf := buf, state := .closed, out := [] }⟩) := by
      unfold SoupBinClient.poll
      rw [hflush]
      dsimp only
      rw [hflushed.state_eq.trans hstate]
      dsimp only
      unfold SoupBinClient.pollStream
      rw [hdue, hloop]
      simp [Session.heartbeatTimedOut, hlate']
    rw [hpoll]
    exact ⟨rfl, rfl⟩

/-- The login is accepted at 1; from then on the server is silent, and the poll after the one
that sends a heartbeat reports it. -/
theorem heartbeat_timeout_exact_silent :
    ∃ w, Listening.machine.Run Listening.Forward
        (.start
          [.ok (PacketFrame.bytes
            ⟨.loginAccepted, List.replicate 29 ' '.toUInt8 ++ ['5'.toUInt8]⟩)]
          [.ok 49, .ok 3] {} 0 0) w ∧
      w.heard = [1] ∧ (w.client.poll (16 * 10 ^ 9)).2.session.state = .closed ∧
      ∀ t ∈ (w.next (.poll (16 * 10 ^ 9))).heard, 15 * 10 ^ 9 < 16 * 10 ^ 9 - t := by
  have hend : ∃ w ∈ Machine.follow (fun w call ↦ some (Listening.next w call))
        (.start
          [.ok (PacketFrame.bytes
            ⟨.loginAccepted, List.replicate 29 ' '.toUInt8 ++ ['5'.toUInt8]⟩)]
          [.ok 49, .ok 3] {} 0 0) [.poll 1, .poll (155 * 10 ^ 8)],
      w.heard = [1] ∧ w.client.session.cfg.heartbeatTimeout = 15 * 10 ^ 9 ∧
      (w.client.poll (16 * 10 ^ 9)).1 = .ok (some (.event .heartbeatTimeout)) ∧
      (w.client.poll (16 * 10 ^ 9)).2.session.state = .closed := by
    decide +kernel
  obtain ⟨w, hw, hheard, hcfg, htimeout, hclosed⟩ := hend
  have hrun : Listening.machine.Run Listening.Forward _ w := .of_follow (by decide +kernel) hw
  refine ⟨w, hrun, hheard, hclosed, ?_⟩
  have hlate := ((heartbeat_timeout_exact hrun (16 * 10 ^ 9)).1 htimeout).1
  rwa [hcfg] at hlate

end SoupBin
