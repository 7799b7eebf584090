import PolarisTrade.Lib.Machine
import PolarisTrade.SoupBin.Session

/-!
# The synchronous client

`start`, `poll`, `queue_unsequenced` and `queue_logout` over a stream with partial writes,
and the client under a caller as a transition system: one event for each call, with what
the calls returned and which packets were queued kept beside the client.
-/

namespace SoupBin

open Transport Word

structure SoupBinClient where
  transport : Stream
  session : Session

/-- The loop of `poll_login` and `poll_stream`: dispatch, then land more bytes, until
something is dispatched or nothing is read.  Every round that goes on uses up an answer of
the transport. -/
def pollLoop {α : Type} (dispatch : Session → Except SoupBinError (Option α) × Session)
    (now : Instant) :
    ℕ → Session → Stream → Except SoupBinError (Option α) × Session × Stream
  | fuel, s, t =>
      match dispatch s with
      | (.error e, s) => (.error e, s, t)
      | (.ok (some a), s) => (.ok (some a), s, t)
      | (.ok none, s) =>
          match s.ingest t now with
          | (.error e, s, t) => (.error e, s, t)
          | (.ok false, s, t) => (.ok none, s, t)
          | (.ok true, s, t) =>
              match fuel with
              | 0 => (.ok none, s, t)
              | fuel + 1 => pollLoop dispatch now fuel s t

namespace SoupBinClient

/-- Queue the login over a connected transport and write what fits; `created` is the clock
reading of the session's own construction. -/
def start (transport : Stream) (cfg : SoupBinClientConfig) (now created : Instant) :
    Except SoupBinError Unit × SoupBinClient :=
  match (Session.new cfg created).queueLogin now with
  | (.error e, s) => (.error e, ⟨transport, s⟩)
  | (.ok _, s) =>
      let (r, s, t) := s.flush transport now
      (r, ⟨t, s⟩)

def pollLogin (c : SoupBinClient) (now : Instant) :
    Except SoupBinError (Option SoupBinMessage) × SoupBinClient :=
  match pollLoop (fun s ↦ s.dispatchLogin now) now c.transport.recvs.length c.session
      c.transport with
  | (.error e, s, t) => (.error e, ⟨t, s⟩)
  | (.ok (some (.accepted session sequence)), s, t) =>
      (.ok (some (.event (.loginAccepted session sequence))), ⟨t, s⟩)
  | (.ok (some (.rejected reason)), s, t) =>
      (.ok (some (.event (.loginRejected reason))), ⟨t, s⟩)
  | (.ok none, s, t) =>
      if s.loginDeadline ≤ now then (.error s.loginTimedOut.1, ⟨t, s.loginTimedOut.2⟩)
      else (.ok none, ⟨t, s⟩)

def pollStream (c : SoupBinClient) (now : Instant) :
    Except SoupBinError (Option SoupBinMessage) × SoupBinClient :=
  if c.session.heartbeatDue now then
    match c.session.queueHeartbeat with
    | (.error e, s) => (.error e, ⟨c.transport, s⟩)
    | (.ok _, s) =>
        match s.flush c.transport now with
        | (.error e, s, t) => (.error e, ⟨t, s⟩)
        | (.ok _, s, t) => (.ok (some (.event .heartbeatSent)), ⟨t, s⟩)
  else
    match pollLoop Session.dispatchStream now c.transport.recvs.length c.session
        c.transport with
    | (.error e, s, t) => (.error e, ⟨t, s⟩)
    | (.ok (some (.data sequence)), s, t) => (.ok (some (.data s.lastFrame sequence)), ⟨t, s⟩)
    | (.ok (some (.event ev)), s, t) => (.ok (some (.event ev)), ⟨t, s⟩)
    | (.ok none, s, t) =>
        match s.heartbeatTimedOut now with
        | (true, s) => (.ok (some (.event .heartbeatTimeout)), ⟨t, s⟩)
        | (false, s) => (.ok none, ⟨t, s⟩)

def poll (c : SoupBinClient) (now : Instant) :
    Except SoupBinError (Option SoupBinMessage) × SoupBinClient :=
  match c.session.flush c.transport now with
  | (.error e, s, t) => (.error e, ⟨t, s⟩)
  | (.ok _, s, t) =>
      match s.state with
      | .closed => if s.out.isEmpty then (.error .endOfSession, ⟨t, s⟩) else (.ok none, ⟨t, s⟩)
      | .authenticating => pollLogin ⟨t, s⟩ now
      | .streaming => pollStream ⟨t, s⟩ now

def queueUnsequenced (c : SoupBinClient) (payload : List UInt8) :
    Except SoupBinError Unit × SoupBinClient :=
  if c.session.state = .closed then (.error .endOfSession, c)
  else
    let (r, s) := c.session.queue .unsequencedData payload
    (r, { c with session := s })

def queueLogout (c : SoupBinClient) : Except SoupBinError Unit × SoupBinClient :=
  if c.session.state = .closed then (.error .endOfSession, c)
  else
    match c.session.queue .logoutRequest [] with
    | (.error e, s) => (.error e, { c with session := s })
    | (.ok _, s) => (.ok (), { c with session := s.closeLogout })

end SoupBinClient

/-! ## What each call does -/

/-- Everything the receive loop can do. -/
inductive Looped {α : Type} (dispatch : Session → Except SoupBinError (Option α) × Session)
    (now : Instant) :
    Session → Stream → Except SoupBinError (Option α) → Session → Stream → Prop
  | failed {s s' : Session} {t : Stream} (e : SoupBinError) : dispatch s = (.error e, s') →
      Looped dispatch now s t (.error e) s' t
  | found {s s' : Session} {t : Stream} (a : α) : dispatch s = (.ok (some a), s') →
      Looped dispatch now s t (.ok (some a)) s' t
  | unreadable {s s' : Session} {t : Stream} {rest : List (Except TransportError (List UInt8))}
      (e : TransportError) : dispatch s = (.ok none, s') → t.recvs = .error e :: rest →
      Looped dispatch now s t (.error (.transport e)) s' { t with recvs := rest }
  | drained {s s' : Session} {t : Stream} : dispatch s = (.ok none, s') →
      (t.recvs = [] ∨ ∃ rest, t.recvs = .ok [] :: rest) →
      Looped dispatch now s t (.ok none) s' { t with recvs := t.recvs.tail }
  | landed {s s₁ s' : Session} {t t' : Stream} {r : Except SoupBinError (Option α)}
      {bytes : List UInt8} {rest : List (Except TransportError (List UInt8))} :
      dispatch s = (.ok none, s₁) → t.recvs = .ok bytes :: rest → bytes ≠ [] →
      Looped dispatch now
        { s₁ with decodeBuf := s₁.decodeBuf ++ bytes, lastRecv := now }
        { t with recvs := rest, received := t.received ++ bytes } r s' t' →
      Looped dispatch now s t r s' t'

theorem pollLoop_looped {α : Type}
    (dispatch : Session → Except SoupBinError (Option α) × Session) (now : Instant) (fuel : ℕ)
    (s : Session) (t : Stream) (hfuel : t.recvs.length ≤ fuel) :
    Looped dispatch now s t (pollLoop dispatch now fuel s t).1
      (pollLoop dispatch now fuel s t).2.1 (pollLoop dispatch now fuel s t).2.2 := by
  unfold pollLoop
  rcases hdispatch : dispatch s with ⟨e | _ | a, s₁⟩
  · exact .failed e hdispatch
  · dsimp only
    rcases s₁.ingest_cases t now with
      ⟨e, rest, hrecvs, hingest⟩ | ⟨hrecvs, hingest⟩ | ⟨bytes, rest, hne, hrecvs, hingest⟩
    · rw [hingest]
      exact .unreadable e hdispatch hrecvs
    · rw [hingest]
      exact .drained hdispatch hrecvs
    · rw [hingest]
      rw [hrecvs, List.length_cons] at hfuel
      cases fuel with
      | zero => omega
      | succ fuel =>
          exact .landed hdispatch hrecvs hne
            (pollLoop_looped dispatch now fuel _ _ (Nat.le_of_succ_le_succ hfuel))
  · exact .found a hdispatch

/-- What the receive loop leaves: some bytes landed, then the effect of the last dispatch. -/
theorem Looped.effect {α : Type} {dispatch : Session → Except SoupBinError (Option α) × Session}
    {E : Session → Except SoupBinError (Option α) → Session → Prop} {now : Instant}
    {s s' : Session} {t t' : Stream} {r : Except SoupBinError (Option α)}
    (h : Looped dispatch now s t r s' t') (hdispatch : ∀ s, E s (dispatch s).1 (dispatch s).2)
    (hnone : ∀ s s', E s (.ok none) s' → ∃ buf, s' = { s with decodeBuf := buf }) :
    t'.sent = t.sent ∧ ∃ buf lastRecv,
      E { s with decodeBuf := buf, lastRecv := lastRecv } r s' ∨
        (∃ e, r = .error (.transport e)) ∧
          s' = { s with decodeBuf := buf, lastRecv := lastRecv } := by
  have heffect : ∀ {s : Session} {r : Except SoupBinError (Option α)} {s' : Session},
      dispatch s = (r, s') → E s r s' := by
    intro s r s' h
    have := hdispatch s
    rwa [h] at this
  induction h with
  | failed e h => exact ⟨rfl, _, _, Or.inl (heffect h)⟩
  | found a h => exact ⟨rfl, _, _, Or.inl (heffect h)⟩
  | unreadable e h =>
      obtain ⟨buf, rfl⟩ := hnone _ _ (heffect h)
      exact ⟨rfl, buf, _, Or.inr ⟨⟨e, rfl⟩, rfl⟩⟩
  | drained h => exact ⟨rfl, _, _, Or.inl (heffect h)⟩
  | landed h _ _ _ ih =>
      obtain ⟨buf, rfl⟩ := hnone _ _ (heffect h)
      exact ih

/-- A loop that did not fail ends in the effect of its last dispatch. -/
theorem Looped.effect_ok {α : Type}
    {dispatch : Session → Except SoupBinError (Option α) × Session}
    {E : Session → Except SoupBinError (Option α) → Session → Prop} {now : Instant}
    {s s' : Session} {t t' : Stream} {a : Option α} (h : Looped dispatch now s t (.ok a) s' t')
    (hdispatch : ∀ s, E s (dispatch s).1 (dispatch s).2)
    (hnone : ∀ s s', E s (.ok none) s' → ∃ buf, s' = { s with decodeBuf := buf }) :
    ∃ buf lastRecv, E { s with decodeBuf := buf, lastRecv := lastRecv } (.ok a) s' := by
  obtain ⟨-, buf, lastRecv, heffect | ⟨⟨e, he⟩, -⟩⟩ := h.effect hdispatch hnone
  · exact ⟨buf, lastRecv, heffect⟩
  · cases he

def Login.event : Login → SoupBinEvent
  | accepted session sequence => .loginAccepted session sequence
  | rejected reason => .loginRejected reason

/-- The message for what was dispatched; data is borrowed from `last_frame`. -/
def Streamed.message (s : Session) : Streamed → SoupBinMessage
  | data sequence => .data s.lastFrame sequence
  | event ev => .event ev

/-- What `poll` may still return from a closed session. -/
def IsOver (r : Except SoupBinError (Option SoupBinMessage)) : Prop :=
  r = .ok none ∨ r = .error .endOfSession ∨ ∃ e, r = .error (.transport e)

namespace SoupBinClient

/-- A flush at `now` has written some front part of `out`. -/
def Flushed (c : SoupBinClient) (now : Instant) (c' : SoupBinClient) : Prop :=
  ∃ n lastSend sends, c' =
    ⟨{ c.transport with
        sends := sends
        sent := c.transport.sent ++ c.session.out.take n },
      { c.session with out := c.session.out.drop n, lastSend := lastSend }⟩ ∧
    (lastSend = c.session.lastSend ∨ lastSend = now) ∧ sends.length ≤ c.transport.sends.length

/-- Everything `poll` can do once its first flush has succeeded: what it returns, the client
it leaves and the packets it has queued on the way. -/
inductive Advanced (c : SoupBinClient) (now : Instant) :
    Except SoupBinError (Option SoupBinMessage) → SoupBinClient → List PacketFrame → Prop
  | ended : c.session.state = .closed → c.session.out = [] →
      Advanced c now (.error .endOfSession) c []
  | closing : c.session.state = .closed → c.session.out ≠ [] → Advanced c now (.ok none) c []
  | loginFailed {s : Session} {t : Stream} (e : SoupBinError) :
      c.session.state = .authenticating →
      Looped (fun s ↦ s.dispatchLogin now) now c.session c.transport (.error e) s t →
      Advanced c now (.error e) ⟨t, s⟩ []
  | loginFound {s : Session} {t : Stream} (login : Login) :
      c.session.state = .authenticating →
      Looped (fun s ↦ s.dispatchLogin now) now c.session c.transport (.ok (some login)) s t →
      Advanced c now (.ok (some (.event login.event))) ⟨t, s⟩ []
  | loginTimedOut {s : Session} {t : Stream} :
      c.session.state = .authenticating →
      Looped (fun s ↦ s.dispatchLogin now) now c.session c.transport (.ok none) s t →
      s.loginDeadline ≤ now →
      Advanced c now (.error (.loginTimeout s.cfg.loginTimeout))
        ⟨t, { s with state := .closed, out := [] }⟩ []
  | loginIdle {s : Session} {t : Stream} :
      c.session.state = .authenticating →
      Looped (fun s ↦ s.dispatchLogin now) now c.session c.transport (.ok none) s t →
      now < s.loginDeadline → Advanced c now (.ok none) ⟨t, s⟩ []
  | heartbeatUnsent {c' : SoupBinClient} (e : TransportError) :
      c.session.state = .streaming → c.session.heartbeatDue now = true →
      Flushed ⟨c.transport, c.session.queueHeartbeat.2⟩ now c' →
      Advanced c now (.error (.transport e)) c' [⟨.clientHeartbeat, []⟩]
  | heartbeatSent {c' : SoupBinClient} :
      c.session.state = .streaming → c.session.heartbeatDue now = true →
      Flushed ⟨c.transport, c.session.queueHeartbeat.2⟩ now c' →
      Advanced c now (.ok (some (.event .heartbeatSent))) c' [⟨.clientHeartbeat, []⟩]
  | streamFailed {s : Session} {t : Stream} (e : SoupBinError) :
      c.session.state = .streaming → c.session.heartbeatDue now = false →
      Looped Session.dispatchStream now c.session c.transport (.error e) s t →
      Advanced c now (.error e) ⟨t, s⟩ []
  | streamFound {s : Session} {t : Stream} (streamed : Streamed) :
      c.session.state = .streaming → c.session.heartbeatDue now = false →
      Looped Session.dispatchStream now c.session c.transport (.ok (some streamed)) s t →
      Advanced c now (.ok (some (streamed.message s))) ⟨t, s⟩ []
  | streamTimedOut {s : Session} {t : Stream} :
      c.session.state = .streaming → c.session.heartbeatDue now = false →
      Looped Session.dispatchStream now c.session c.transport (.ok none) s t →
      s.cfg.heartbeatTimeout < now - s.lastRecv →
      Advanced c now (.ok (some (.event .heartbeatTimeout)))
        ⟨t, { s with state := .closed, out := [] }⟩ []
  | streamIdle {s : Session} {t : Stream} :
      c.session.state = .streaming → c.session.heartbeatDue now = false →
      Looped Session.dispatchStream now c.session c.transport (.ok none) s t →
      now - s.lastRecv ≤ s.cfg.heartbeatTimeout → Advanced c now (.ok none) ⟨t, s⟩ []

/-- One call of `poll`: its flush fails, or it goes on behind it. -/
inductive Polled (c : SoupBinClient) (now : Instant) :
    Except SoupBinError (Option SoupBinMessage) → SoupBinClient → List PacketFrame → Prop
  | unsent {c' : SoupBinClient} (e : TransportError) : c.Flushed now c' →
      c'.transport.sends.length < c.transport.sends.length →
      Polled c now (.error (.transport e)) c' []
  | advanced {c₁ c' : SoupBinClient} {r : Except SoupBinError (Option SoupBinMessage)}
      {queued : List PacketFrame} : c.Flushed now c₁ → c₁.Advanced now r c' queued →
      Polled c now r c' queued

/-- The heartbeat `poll` queues after its flush, if one is due. -/
def heartbeats (c : SoupBinClient) (now : Instant) : List PacketFrame :=
  match c.session.flush c.transport now with
  | (.error _, _, _) => []
  | (.ok _, s, _) =>
      if s.state = .streaming ∧ s.heartbeatDue now then [⟨.clientHeartbeat, []⟩] else []

theorem flush_flushed (c : SoupBinClient) (now : Instant) :
    c.Flushed now
        ⟨(c.session.flush c.transport now).2.2, (c.session.flush c.transport now).2.1⟩ ∧
      ((c.session.flush c.transport now).1 = .ok () ∨
        ∃ e, (c.session.flush c.transport now).1 = .error (.transport e) ∧
          (c.session.flush c.transport now).2.2.sends.length < c.transport.sends.length) := by
  obtain ⟨n, lastSend, sends, hstate, hclock, hle, hresult⟩ := c.session.flush_spec c.transport now
  rw [hstate]
  exact ⟨⟨n, lastSend, sends, rfl, hclock, hle⟩, hresult⟩

theorem pollLogin_advanced {c : SoupBinClient} {now : Instant}
    (hstate : c.session.state = .authenticating) :
    c.Advanced now (c.pollLogin now).1 (c.pollLogin now).2 [] := by
  have hlooped := pollLoop_looped (fun s ↦ s.dispatchLogin now) now c.transport.recvs.length
    c.session c.transport le_rfl
  unfold pollLogin
  generalize pollLoop (fun s ↦ s.dispatchLogin now) now c.transport.recvs.length c.session
    c.transport = looped at hlooped ⊢
  obtain ⟨e | _ | login, s, t⟩ := looped
  · exact .loginFailed e hstate hlooped
  · dsimp only at hlooped ⊢
    split
    · next hdeadline => exact .loginTimedOut hstate hlooped hdeadline
    · next hdeadline => exact .loginIdle hstate hlooped (Nat.lt_of_not_le hdeadline)
  · cases login with
    | accepted session sequence => exact .loginFound (.accepted session sequence) hstate hlooped
    | rejected reason => exact .loginFound (.rejected reason) hstate hlooped

theorem pollStream_advanced {c : SoupBinClient} {now : Instant}
    (hstate : c.session.state = .streaming) :
    c.Advanced now (c.pollStream now).1 (c.pollStream now).2
      (if c.session.heartbeatDue now then [⟨.clientHeartbeat, []⟩] else []) := by
  unfold pollStream
  cases hdue : c.session.heartbeatDue now with
  | true =>
      rw [if_pos rfl, if_pos rfl]
      obtain ⟨hflushed, hresult⟩ := flush_flushed ⟨c.transport, c.session.queueHeartbeat.2⟩ now
      have hqueue : c.session.queueHeartbeat = (.ok (), c.session.queueHeartbeat.2) :=
        Prod.ext (congrArg Prod.fst (Session.queue_of_le (Nat.zero_le _))) rfl
      rw [hqueue]
      dsimp only at hflushed hresult ⊢
      generalize c.session.queueHeartbeat.2.flush c.transport now = flushed at hflushed hresult ⊢
      obtain ⟨e | _, s, t⟩ := flushed
      · obtain hok | ⟨e', he, -⟩ := hresult
        · cases hok
        · obtain rfl := Except.error.inj he
          exact .heartbeatUnsent e' hstate hdue hflushed
      · exact .heartbeatSent hstate hdue hflushed
  | false =>
      rw [if_neg (by simp), if_neg (by simp)]
      have hlooped := pollLoop_looped Session.dispatchStream now c.transport.recvs.length
        c.session c.transport le_rfl
      generalize pollLoop Session.dispatchStream now c.transport.recvs.length c.session
        c.transport = looped at hlooped ⊢
      obtain ⟨e | _ | streamed, s, t⟩ := looped
      · exact .streamFailed e hstate hdue hlooped
      · dsimp only at hlooped ⊢
        unfold Session.heartbeatTimedOut
        split
        · next hsilent =>
            split at hsilent
            · cases hsilent
            · next hlate =>
                cases hsilent
                exact .streamTimedOut hstate hdue hlooped (Nat.lt_of_not_le hlate)
        · next hsilent =>
            split at hsilent
            · next hsoon =>
                cases hsilent
                exact .streamIdle hstate hdue hlooped hsoon
            · cases hsilent
      · cases streamed with
        | data sequence => exact .streamFound (.data sequence) hstate hdue hlooped
        | event ev => exact .streamFound (.event ev) hstate hdue hlooped

theorem poll_polled (c : SoupBinClient) (now : Instant) :
    c.Polled now (c.poll now).1 (c.poll now).2 (c.heartbeats now) := by
  obtain ⟨hflushed, hresult⟩ := c.flush_flushed now
  unfold poll heartbeats
  generalize c.session.flush c.transport now = flushed at hflushed hresult ⊢
  obtain ⟨e | _, s, t⟩ := flushed
  · obtain hok | ⟨e', he, hlt⟩ := hresult
    · cases hok
    · obtain rfl := Except.error.inj he
      exact .unsent e' hflushed hlt
  · refine .advanced hflushed ?_
    dsimp only
    cases hstate : s.state with
    | authenticating =>
        have hadvanced := @pollLogin_advanced ⟨t, s⟩ now hstate
        simpa using hadvanced
    | streaming =>
        have hadvanced := @pollStream_advanced ⟨t, s⟩ now hstate
        simpa only [true_and] using hadvanced
    | closed =>
        have hqueued : ¬ (ClientState.closed = ClientState.streaming ∧ s.heartbeatDue now = true) :=
          fun h ↦ nomatch h.1
        rw [if_neg hqueued]
        dsimp only
        split
        · next hempty => exact .ended hstate (List.isEmpty_iff.mp hempty)
        · next hne => exact .closing hstate (mt List.isEmpty_iff.mpr hne)

theorem Flushed.state_eq {c c' : SoupBinClient} {now : Instant} (h : c.Flushed now c') :
    c'.session.state = c.session.state := by
  obtain ⟨n, lastSend, sends, rfl, -, -⟩ := h
  rfl

/-- A closed session is only flushed. -/
theorem poll_of_closed {c : SoupBinClient} (hclosed : c.session.state = .closed)
    (now : Instant) : IsOver (c.poll now).1 ∧ c.Flushed now (c.poll now).2 := by
  have hpolled := c.poll_polled now
  generalize (c.poll now).1 = r at hpolled ⊢
  generalize (c.poll now).2 = c' at hpolled ⊢
  generalize c.heartbeats now = queued at hpolled
  cases hpolled with
  | unsent e hflushed => exact ⟨Or.inr (Or.inr ⟨e, rfl⟩), hflushed⟩
  | advanced hflushed hadvanced =>
      have hclosed₁ := hflushed.state_eq.trans hclosed
      cases hadvanced with
      | ended => exact ⟨Or.inr (Or.inl rfl), hflushed⟩
      | closing => exact ⟨Or.inl rfl, hflushed⟩
      | _ => simp_all

theorem queueUnsequenced_cases (c : SoupBinClient) (payload : List UInt8) :
    (c.session.state = .closed ∧ c.queueUnsequenced payload = (.error .endOfSession, c)) ∨
    (c.session.state ≠ .closed ∧ 65534 < payload.length ∧
      c.queueUnsequenced payload = (.error (.frameTooLarge payload.length 65534), c)) ∨
    (c.session.state ≠ .closed ∧ payload.length ≤ 65534 ∧
      c.queueUnsequenced payload = (.ok (),
        { c with
          session :=
            { c.session with
              out := c.session.out ++ PacketFrame.bytes ⟨.unsequencedData, payload⟩ } })) := by
  unfold queueUnsequenced
  by_cases hclosed : c.session.state = .closed
  · exact Or.inl ⟨hclosed, if_pos hclosed⟩
  · rw [if_neg hclosed]
    by_cases hlong : 65534 < payload.length
    · rw [Session.queue_of_lt hlong]
      exact Or.inr (Or.inl ⟨hclosed, hlong, rfl⟩)
    · rw [Session.queue_of_le (Nat.le_of_not_lt hlong)]
      exact Or.inr (Or.inr ⟨hclosed, Nat.le_of_not_lt hlong, rfl⟩)

theorem queueLogout_cases (c : SoupBinClient) :
    (c.session.state = .closed ∧ c.queueLogout = (.error .endOfSession, c)) ∨
    (c.session.state ≠ .closed ∧ c.queueLogout = (.ok (),
      { c with
        session :=
          { c.session with
            out := c.session.out ++ PacketFrame.bytes ⟨.logoutRequest, []⟩
            state := .closed } })) := by
  unfold queueLogout
  by_cases hclosed : c.session.state = .closed
  · exact Or.inl ⟨hclosed, if_pos hclosed⟩
  · rw [if_neg hclosed, Session.queue_of_le (Nat.zero_le _)]
    exact Or.inr ⟨hclosed, rfl⟩

end SoupBinClient

/-! ## The client under a caller -/

inductive Call where
  | poll (now : Instant)
  | queueUnsequenced (payload : List UInt8)
  | queueLogout

/-- A client with what its polls returned and the packets queued without an error. -/
structure Driven where
  client : SoupBinClient
  results : List (Except SoupBinError (Option SoupBinMessage))
  queued : List PacketFrame

namespace Driven

/-- The packet a call queues itself, unless the call fails. -/
def accepted (r : Except SoupBinError Unit) (p : PacketFrame) : List PacketFrame :=
  match r with
  | .ok _ => [p]
  | .error _ => []

def next (d : Driven) : Call → Option Driven
  | .poll now =>
      some
        { client := (d.client.poll now).2
          results := d.results ++ [(d.client.poll now).1]
          queued := d.queued ++ d.client.heartbeats now }
  | .queueUnsequenced payload =>
      some
        { d with
          client := (d.client.queueUnsequenced payload).2
          queued := d.queued ++
            accepted (d.client.queueUnsequenced payload).1 ⟨.unsequencedData, payload⟩ }
  | .queueLogout =>
      some
        { d with
          client := d.client.queueLogout.2
          queued := d.queued ++ accepted d.client.queueLogout.1 ⟨.logoutRequest, []⟩ }

def machine : Machine Driven Call := .ofNext next

/-- The state `start` leaves over a stream that will answer so, whether or not its first
write succeeded. -/
def start (recvs : List (Except TransportError (List UInt8)))
    (sends : List (Except TransportError ℕ)) (cfg : SoupBinClientConfig) (now created : Instant) :
    Driven where
  client := (SoupBinClient.start { recvs := recvs, sends := sends } cfg now created).2
  results := []
  queued := [⟨.loginRequest, loginRequest cfg⟩]

/-- Runs with no condition on their calls. -/
abbrev Reaches (d d' : Driven) : Prop := machine.Run (fun _ _ ↦ True) d d'

end Driven

end SoupBin
