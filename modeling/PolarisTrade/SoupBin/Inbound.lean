import PolarisTrade.SoupBin.Lifecycle

/-!
# Inbound order of the synchronous client

A byte stream is first cut into packets and the packets are then read one after another in
the phase the session is in: that is what the inbound answers of `poll` should be.  The
client does both at once on a buffer that grows by whatever the transport lands.  What it
has answered, followed by what decoding its buffer from its present state will still give,
is the decoding of all bytes received, and stays so when more bytes arrive.
-/

namespace SoupBin

open Transport Word

/-! ## Decoding a whole stream -/

abbrev Outcome := Except SoupBinError SoupBinMessage

/-- The outcomes behind which a session reads nothing more: a framing error or a close. -/
def Final : Outcome → Prop
  | .ok (.event (.loginRejected _)) => True
  | .ok (.event .endOfSession) => True
  | .ok _ => False
  | .error e => e.IsFraming

instance : DecidablePred Final
  | .ok (.data ..) => .isFalse id
  | .ok (.event (.loginAccepted ..)) => .isFalse id
  | .ok (.event (.loginRejected _)) => .isTrue trivial
  | .ok (.event .heartbeatReceived) => .isFalse id
  | .ok (.event .heartbeatSent) => .isFalse id
  | .ok (.event .heartbeatTimeout) => .isFalse id
  | .ok (.event .endOfSession) => .isTrue trivial
  | .error e => inferInstanceAs (Decidable e.IsFraming)

/-- The outcomes up to the first final one. -/
def upToFinal : List Outcome → List Outcome
  | [] => []
  | o :: os => if Final o then [o] else o :: upToFinal os

inductive Phase where
  | authenticating
  | streaming (next : ℕ)
  | closed
  deriving DecidableEq

namespace Phase

/-- What one packet means in a phase: an outcome, unless it is dropped, and the next phase. -/
def step : Phase → PacketFrame → Option Outcome × Phase
  | authenticating, ⟨.loginAccepted, payload⟩ =>
      match parseLoginAccepted payload with
      | .error e => (some (.error e), authenticating)
      | .ok (session, sequence) =>
          match parseAsciiField session.1 with
          | .error e => (some (.error e), authenticating)
          | .ok _ => (some (.ok (.event (.loginAccepted session sequence))), streaming sequence)
  | authenticating, ⟨.loginRejected, reason :: _⟩ =>
      (some (.ok (.event (.loginRejected reason))), closed)
  | authenticating, ⟨.loginRejected, []⟩ =>
      (some (.error (.protocolViolation .loginRejectedWithoutReason)), authenticating)
  | authenticating, ⟨.debug, _⟩ => (none, authenticating)
  | authenticating, ⟨.serverHeartbeat, _⟩ => (none, authenticating)
  | authenticating, ⟨other, _⟩ =>
      (some (.error (.protocolViolation (.unexpectedDuringLogin other))), authenticating)
  | streaming next, ⟨.sequencedData, payload⟩ =>
      (some (.ok (.data payload next)), streaming (wrappingAdd next 1))
  | streaming next, ⟨.serverHeartbeat, _⟩ =>
      (some (.ok (.event .heartbeatReceived)), streaming next)
  | streaming _, ⟨.endOfSession, _⟩ => (some (.ok (.event .endOfSession)), closed)
  | streaming next, ⟨.debug, _⟩ => (none, streaming next)
  | streaming next, ⟨other, _⟩ =>
      (some (.error (.protocolViolation (.unexpectedInStreaming other))), streaming next)
  | closed, _ => (none, closed)

/-- Packets read one after another. -/
def read : Phase → List PacketFrame → List Outcome × Phase
  | p, [] => ([], p)
  | p, q :: qs => ((p.step q).1.toList ++ ((p.step q).2.read qs).1, ((p.step q).2.read qs).2)

@[simp] theorem read_closed (qs : List PacketFrame) : closed.read qs = ([], closed) := by
  induction qs with
  | nil => rfl
  | cons q qs ih => simp [read, step, ih]

/-- The failure that stopped the cutting is met only by an open session. -/
def failed : Phase → Option SoupBinError → List Outcome
  | closed, _ => []
  | _, none => []
  | _, some e => [.error e]

@[simp] theorem failed_none (p : Phase) : p.failed none = [] := by
  cases p <;> rfl

theorem failed_some {p : Phase} (hopen : p ≠ closed) (e : SoupBinError) :
    p.failed (some e) = [.error e] := by
  cases p with
  | closed => exact (hopen rfl).elim
  | _ => rfl

/-- A buffer cut into packets and read from a phase. -/
def decode (maxFrameSize : ℕ) (p : Phase) (buf : List UInt8) : List Outcome :=
  let packets := (sessionFramer maxFrameSize).cut buf
  let reading := p.read packets.1
  reading.1 ++ reading.2.failed packets.2.1

variable {maxFrameSize : ℕ} {buf : List UInt8}

@[simp] theorem decode_closed : closed.decode maxFrameSize buf = [] := by
  simp [decode, failed]

theorem decode_of_more (p : Phase) (h : (sessionFramer maxFrameSize).frame buf = .more) :
    p.decode maxFrameSize buf = [] := by
  simp [decode, Framer.cut_of_more h, read]

theorem decode_of_bad {p : Phase} (hopen : p ≠ closed) {e : SoupBinError}
    (h : (sessionFramer maxFrameSize).frame buf = .bad e) :
    p.decode maxFrameSize buf = [.error e] := by
  simp [decode, Framer.cut_of_bad h, read, failed_some hopen]

theorem decode_of_item (p : Phase) {q : PacketFrame} {n : ℕ}
    (h : (sessionFramer maxFrameSize).frame buf = .item q n) :
    p.decode maxFrameSize buf =
      (p.step q).1.toList ++ (p.step q).2.decode maxFrameSize (buf.drop n) := by
  simp [decode, Framer.cut_of_item h, read]

end Phase

/-- The outcomes of a whole inbound stream. -/
def decode (maxFrameSize : ℕ) (bytes : List UInt8) : List Outcome :=
  upToFinal (Phase.authenticating.decode maxFrameSize bytes)

/-- The decoding of packets within the size limit is the reading of these packets. -/
theorem decode_packets {maxFrameSize : ℕ} {packets : List PacketFrame}
    (hfits : ∀ p ∈ packets, p.payload.length < 65535 ∧ 3 + p.payload.length ≤ maxFrameSize) :
    decode maxFrameSize (packets.flatMap PacketFrame.bytes) =
      upToFinal (Phase.authenticating.read packets).1 := by
  unfold decode Phase.decode
  rw [cut_sessionFramer hfits]
  dsimp only
  rw [Phase.failed_none, List.append_nil]

theorem upToFinal_append_of_final {os : List Outcome} (h : ∃ o ∈ os, Final o)
    (more : List Outcome) : upToFinal (os ++ more) = upToFinal os := by
  induction os with
  | nil => simp at h
  | cons o os ih =>
      by_cases ho : Final o
      · simp [upToFinal, ho]
      · have hos : ∃ o ∈ os, Final o := by simpa [ho] using h
        simp [upToFinal, ho, ih hos]

theorem upToFinal_append_of_not {os : List Outcome} (h : ∀ o ∈ os, ¬ Final o)
    (more : List Outcome) : upToFinal (os ++ more) = os ++ upToFinal more := by
  induction os with
  | nil => rfl
  | cons o os ih =>
      rw [List.forall_mem_cons] at h
      simp [upToFinal, h.1, ih h.2]

theorem upToFinal_append_isPrefix (os more : List Outcome) :
    upToFinal os <+: upToFinal (os ++ more) := by
  by_cases h : ∃ o ∈ os, Final o
  · rw [upToFinal_append_of_final h]
  · push Not at h
    have hself : upToFinal os = os := by simpa [upToFinal] using upToFinal_append_of_not h []
    rw [upToFinal_append_of_not h, hself]
    exact List.prefix_append _ _

theorem upToFinal_isPrefix (os : List Outcome) : upToFinal os <+: os := by
  induction os with
  | nil => exact List.prefix_rfl
  | cons o os ih =>
      unfold upToFinal
      split
      · exact ⟨os, rfl⟩
      · exact (List.cons_prefix_cons).mpr ⟨rfl, ih⟩

/-! ## The client against the decoding -/

/-- The inbound part of an answer of `poll`. -/
def inbound : Except SoupBinError (Option SoupBinMessage) → Option Outcome
  | .ok none => none
  | .ok (some (.event .heartbeatSent)) => none
  | .ok (some (.event .heartbeatTimeout)) => none
  | .ok (some m) => some (.ok m)
  | .error e => if e.IsProtocol then some (.error e) else none

theorem SoupBinError.IsProtocol.inbound_eq {e : SoupBinError} (h : e.IsProtocol) :
    inbound (.error e) = some (.error e) := if_pos h

theorem IsOver.inbound_eq {r : Except SoupBinError (Option SoupBinMessage)} (h : IsOver r) :
    inbound r = none := by
  rcases h with rfl | rfl | ⟨e, rfl⟩
  · rfl
  · rfl
  · rfl

namespace Session

def phase (s : Session) : Phase :=
  match s.state with
  | .authenticating => .authenticating
  | .streaming => .streaming s.nextExpectedSequence
  | .closed => .closed

theorem phase_ne_closed {s : Session} (h : s.state ≠ .closed) : s.phase ≠ .closed := by
  unfold phase
  cases hstate : s.state with
  | closed => exact (h hstate).elim
  | _ => simp

/-- What decoding the buffer of a session, and anything behind it, will give. -/
def ahead (s : Session) (tail : List UInt8) : List Outcome :=
  s.phase.decode s.cfg.maxFrameSize (s.decodeBuf ++ tail)

/-- No whole packet is buffered. -/
def Drained (s : Session) : Prop :=
  (sessionFramer s.cfg.maxFrameSize).frame s.decodeBuf = .more

theorem Drained.ahead_nil {s : Session} (h : s.Drained) : s.ahead [] = [] :=
  Phase.decode_of_more _ (by rwa [List.append_nil])

/-- From `s`, with `bytes` landed behind its buffer, `answer` is what comes next, and what
is ahead of `s'` comes behind it. -/
structure Reads (s : Session) (bytes : List UInt8)
    (answer : Except SoupBinError (Option SoupBinMessage)) (s' : Session) : Prop where
  maxFrameSize : s'.cfg.maxFrameSize = s.cfg.maxFrameSize
  splits : ∀ before tail, upToFinal (before ++ s.ahead (bytes ++ tail)) =
    upToFinal (before ++ (inbound answer).toList ++ s'.ahead tail)
  waits : answer = .ok none → s'.state = s.state ∧ s'.Drained

/-- What a packet does to the session is what it does to the phase. -/
structure Follows {α : Type}
    (decide : PacketFrame → Session → Option (Except SoupBinError α × Session))
    (message : Session → α → SoupBinMessage) (state : ClientState) : Prop where
  dropped : ∀ q s, s.state = state → decide q s = none → s.phase.step q = (none, s.phase)
  decided : ∀ q s r s', s.state = state → decide q s = some (r, s') →
    s.phase.step q = (inbound (r.map fun a ↦ some (message s' a)), s'.phase) ∧
      s'.decodeBuf = s.decodeBuf ∧ s'.cfg = s.cfg

theorem loginPacket_follows (now : Instant) :
    Follows (loginPacket now) (fun _ login ↦ .event login.event) .authenticating where
  dropped := by
    rintro ⟨ty, payload⟩ s hstate h
    simp only [phase, hstate]
    cases ty with
    | loginAccepted =>
        simp only [loginPacket] at h
        cases hparse : parseLoginAccepted payload with
        | error e => simp [hparse] at h
        | ok fields => cases hfield : parseAsciiField fields.1.1 <;> simp [hparse, hfield] at h
    | loginRejected => cases payload <;> simp [loginPacket] at h
    | debug => rfl
    | serverHeartbeat => rfl
    | _ => cases h
  decided := by
    rintro ⟨ty, payload⟩ s r s' hstate h
    simp only [phase, hstate]
    cases ty with
    | loginAccepted =>
        simp only [loginPacket] at h
        cases hparse : parseLoginAccepted payload with
        | error e =>
            rw [hparse] at h
            cases h
            simp [Phase.step, hparse, Except.map, hstate,
              (parseLoginAccepted_error hparse).1.inbound_eq]
        | ok fields =>
            cases hfield : parseAsciiField fields.1.1 with
            | error e =>
                simp only [hparse, hfield] at h
                cases h
                obtain rfl := parseAsciiField_error hfield
                simp [Phase.step, hparse, hfield, Except.map, hstate, inbound,
                  SoupBinError.IsProtocol]
            | ok id =>
                simp only [hparse, hfield] at h
                cases h
                simp [Phase.step, hparse, hfield, Except.map, inbound, Login.event]
    | loginRejected =>
        cases payload with
        | nil => cases h; simp [Phase.step, hstate, Except.map, inbound, SoupBinError.IsProtocol]
        | cons reason rest => cases h; exact ⟨rfl, rfl, rfl⟩
    | debug => cases h
    | serverHeartbeat => cases h
    | _ => cases h; simp [Phase.step, hstate, Except.map, inbound, SoupBinError.IsProtocol]

theorem streamPacket_follows :
    Follows streamPacket (fun s streamed ↦ streamed.message s) .streaming where
  dropped := by
    rintro ⟨ty, payload⟩ s hstate h
    simp only [phase, hstate]
    cases ty with
    | debug => rfl
    | _ => cases h
  decided := by
    rintro ⟨ty, payload⟩ s r s' hstate h
    simp only [phase, hstate]
    cases ty with
    | sequencedData => cases h; simp [Phase.step, hstate, Except.map, inbound, Streamed.message]
    | serverHeartbeat => cases h; simp [Phase.step, hstate, Except.map, inbound, Streamed.message]
    | endOfSession => cases h; exact ⟨rfl, rfl, rfl⟩
    | debug => cases h
    | _ => cases h; simp [Phase.step, hstate, Except.map, inbound, SoupBinError.IsProtocol]

theorem ahead_of_item {s : Session} {q : PacketFrame} {n : ℕ}
    (h : (sessionFramer s.cfg.maxFrameSize).frame s.decodeBuf = .item q n) (tail : List UInt8) :
    s.ahead tail = (s.phase.step q).1.toList ++
      (s.phase.step q).2.decode s.cfg.maxFrameSize (s.decodeBuf.drop n ++ tail) := by
  unfold ahead
  rw [Phase.decode_of_item _ ((sessionFramer _).item_append tail h),
    List.drop_append_of_le_length ((sessionFramer _).consumed_le h)]

theorem Dispatched.reads {α : Type}
    {decide : PacketFrame → Session → Option (Except SoupBinError α × Session)}
    {message : Session → α → SoupBinMessage} {state : ClientState}
    (hfollows : Follows decide message state) (hopen : state ≠ .closed) {s s' : Session}
    {r : Except SoupBinError (Option α)} (h : Dispatched decide s r s') (hstate : s.state = state) :
    s.Reads [] (r.map (Option.map (message s'))) s' := by
  induction h with
  | waiting hframe =>
      exact ⟨rfl, fun before tail ↦ by simp [Except.map, inbound], fun _ ↦ ⟨rfl, hframe⟩⟩
  | @broken s e hframe =>
      have hframing := (takeFrame_error (toFramed_bad.mp hframe)).1
      refine ⟨rfl, fun before tail ↦ ?_, nofun⟩
      -- the failure stays in front of the buffer, to be met again
      have hahead : s.ahead tail = [.error e] := Phase.decode_of_bad
        (phase_ne_closed (hstate ▸ hopen)) ((sessionFramer _).bad_append tail hframe)
      rw [List.nil_append, hahead, Except.map, hframing.isProtocol.inbound_eq]
      exact (upToFinal_append_of_final ⟨.error e, by simp, hframing⟩ _).symm
  | @dropped s s' r q n hframe hdecide _ ih =>
      obtain ⟨hmax, hsplits, hwaits⟩ := ih hstate
      refine ⟨hmax, fun before tail ↦ ?_, hwaits⟩
      have hstep : s.phase.step q = (none, s.phase) :=
        hfollows.dropped q { s with decodeBuf := s.decodeBuf.drop n } hstate hdecide
      rw [← hsplits before tail, List.nil_append, ahead_of_item hframe, hstep]
      rfl
  | @decided s s' r q n hframe hdecide =>
      obtain ⟨hstep, hbuf, hcfg⟩ :=
        hfollows.decided q { s with decodeBuf := s.decodeBuf.drop n } r s' hstate hdecide
      refine ⟨by rw [hcfg], fun before tail ↦ ?_, fun h ↦ ?_⟩
      · have hstep' : s.phase.step q = _ := hstep
        rw [List.nil_append, ahead_of_item hframe, hstep', List.append_assoc, ahead, hbuf, hcfg]
        cases r <;> rfl
      · cases r <;> cases h

end Session

/-- The bytes a transport still has to land. -/
def landing (recvs : List (Except TransportError (List UInt8))) : List UInt8 :=
  recvs.flatMap fun
    | .ok bytes => bytes
    | .error _ => []

/-- The receive loop reads on from where the session is. -/
theorem Looped.reads {α : Type} {dispatch : Session → Except SoupBinError (Option α) × Session}
    {message : Session → α → SoupBinMessage} {state : ClientState} {now : Instant}
    {s s' : Session} {t t' : Stream} {r : Except SoupBinError (Option α)}
    (h : Looped dispatch now s t r s' t') (hstate : s.state = state)
    (hdispatch : ∀ s : Session, s.state = state →
      s.Reads [] ((dispatch s).1.map (Option.map (message (dispatch s).2))) (dispatch s).2) :
    ∃ bytes, t'.received = t.received ++ bytes ∧ landing t.recvs = bytes ++ landing t'.recvs ∧
      s.Reads bytes (r.map (Option.map (message s'))) s' := by
  have hreads : ∀ {s : Session} {r : Except SoupBinError (Option α)} {s' : Session},
      s.state = state → dispatch s = (r, s') →
        s.Reads [] (r.map (Option.map (message s'))) s' := by
    intro s r s' hs hd
    have := hdispatch s hs
    rwa [hd] at this
  induction h with
  | failed e hd => exact ⟨[], by simp, by simp, hreads hstate hd⟩
  | found a hd => exact ⟨[], by simp, by simp, hreads hstate hd⟩
  | unreadable e hd hrecvs =>
      obtain ⟨hmax, hsplits, -⟩ := hreads hstate hd
      exact ⟨[], by simp, by simp [landing, hrecvs], hmax, hsplits, nofun⟩
  | drained hd hrecvs =>
      refine ⟨[], by simp, ?_, hreads hstate hd⟩
      rcases hrecvs with hrecvs | ⟨rest, hrecvs⟩
      · simp [hrecvs]
      · simp [landing, hrecvs]
  | @landed s s₁ s' t t' r bytes rest hd hrecvs _ _ ih =>
      obtain ⟨hmax₁, hsplits₁, hwaits₁⟩ := hreads hstate hd
      obtain ⟨hstate₁, -⟩ := hwaits₁ rfl
      obtain ⟨more, hreceived, hlanding, hmax, hsplits, hwaits⟩ := ih (hstate₁.trans hstate)
      refine ⟨bytes ++ more, by simp [hreceived], ?_, hmax.trans hmax₁, fun before tail ↦ ?_, ?_⟩
      · rw [hrecvs]
        simpa [landing] using hlanding
      · rw [List.append_assoc bytes, ← hsplits before tail]
        have hahead : ∀ tail, s₁.ahead (bytes ++ tail) =
            Session.ahead { s₁ with decodeBuf := s₁.decodeBuf ++ bytes, lastRecv := now } tail := by
          intro tail
          unfold Session.ahead
          rw [← List.append_assoc]
          rfl
        rw [← hahead, ← List.nil_append (bytes ++ (more ++ tail)), hsplits₁ before]
        simp [Except.map, inbound]
      · intro h
        obtain ⟨hs, hdrained⟩ := hwaits h
        exact ⟨hs.trans hstate₁, hdrained⟩

/-! ## Timers, and what a poll uses up -/

/-- No timer has run out at `now`. -/
structure Session.Calm (s : Session) (now : Instant) : Prop where
  login : s.state = .authenticating → now < s.loginDeadline
  send : now - s.lastSend ≤ s.cfg.heartbeatInterval
  recv : now - s.lastRecv ≤ s.cfg.heartbeatTimeout

/-- The answers of a poll that closes the session by a timer. -/
def TimedOut (r : Except SoupBinError (Option SoupBinMessage)) : Prop :=
  (∃ timeout, r = .error (.loginTimeout timeout)) ∨ r = .ok (some (.event .heartbeatTimeout))

theorem Session.calm_dispatchLogin {s : Session} {now : Instant} (h : s.Calm now) :
    (s.dispatchLogin now).2.Calm now := by
  have heffect := s.dispatchLogin_effect now
  generalize (s.dispatchLogin now).1 = r at heffect
  generalize (s.dispatchLogin now).2 = s' at heffect ⊢
  obtain ⟨hlogin, hsend, hrecv⟩ := h
  rcases r with e | _ | login
  · obtain ⟨-, buf, rfl⟩ := heffect
    exact ⟨hlogin, hsend, hrecv⟩
  · obtain ⟨buf, rfl⟩ := heffect
    exact ⟨hlogin, hsend, hrecv⟩
  · cases login with
    | accepted session sequence =>
        obtain ⟨-, buf, id, rfl⟩ := heffect
        exact ⟨nofun, hsend, by simp⟩
    | rejected reason =>
        obtain ⟨buf, rfl⟩ := heffect
        exact ⟨nofun, hsend, hrecv⟩

theorem Session.calm_dispatchStream {s : Session} {now : Instant} (h : s.Calm now) :
    s.dispatchStream.2.Calm now := by
  have heffect := s.dispatchStream_effect
  generalize s.dispatchStream.1 = r at heffect
  generalize s.dispatchStream.2 = s' at heffect ⊢
  obtain ⟨hlogin, hsend, hrecv⟩ := h
  rcases r with e | _ | streamed
  · obtain ⟨-, buf, rfl⟩ := heffect
    exact ⟨hlogin, hsend, hrecv⟩
  · obtain ⟨buf, rfl⟩ := heffect
    exact ⟨hlogin, hsend, hrecv⟩
  · cases streamed with
    | data sequence =>
        obtain ⟨-, buf, frame, rfl⟩ := heffect
        exact ⟨hlogin, hsend, hrecv⟩
    | event ev =>
        cases ev with
        | heartbeatReceived =>
            obtain ⟨buf, rfl⟩ := heffect
            exact ⟨hlogin, hsend, hrecv⟩
        | endOfSession =>
            obtain ⟨buf, rfl⟩ := heffect
            exact ⟨nofun, hsend, hrecv⟩
        | _ => exact heffect.elim

theorem Looped.calm {α : Type} {dispatch : Session → Except SoupBinError (Option α) × Session}
    {now : Instant} {s s' : Session} {t t' : Stream} {r : Except SoupBinError (Option α)}
    (h : Looped dispatch now s t r s' t')
    (hdispatch : ∀ s : Session, s.Calm now → (dispatch s).2.Calm now) (hcalm : s.Calm now) :
    s'.Calm now := by
  have hd : ∀ {s r s'}, dispatch s = (r, s') → s.Calm now → s'.Calm now := by
    intro s r s' h hs
    have := hdispatch s hs
    rwa [h] at this
  induction h with
  | failed e h => exact hd h hcalm
  | found a h => exact hd h hcalm
  | unreadable e h => exact hd h hcalm
  | drained h => exact hd h hcalm
  | landed h _ _ _ ih =>
      obtain ⟨hlogin, hsend, -⟩ := hd h hcalm
      exact ih ⟨hlogin, hsend, by simp⟩

/-- Answers of the transport that a loop uses up: one at least if it finds nothing while
there is one, and if it cannot read. -/
structure Uses {α : Type} (t : Stream) (r : Except SoupBinError (Option α)) (t' : Stream) :
    Prop where
  sends : t'.sends = t.sends
  recvs : t'.recvs.length ≤ t.recvs.length
  failed : ∀ e, r = .error e →
    e.IsProtocol ∨ ((∃ e', e = .transport e') ∧ t'.recvs.length < t.recvs.length)
  drained : r = .ok none → t'.recvs = [] ∨ t'.recvs.length < t.recvs.length

theorem Looped.uses {α : Type} {dispatch : Session → Except SoupBinError (Option α) × Session}
    {now : Instant} {s s' : Session} {t t' : Stream} {r : Except SoupBinError (Option α)}
    (h : Looped dispatch now s t r s' t')
    (hdispatch : ∀ (s s' : Session) (e : SoupBinError), dispatch s = (.error e, s') →
      e.IsProtocol) : Uses t r t' := by
  induction h with
  | failed e h =>
      refine ⟨rfl, le_rfl, fun e' he ↦ Or.inl ?_, nofun⟩
      exact Except.error.inj he ▸ hdispatch _ _ _ h
  | found a h => exact ⟨rfl, le_rfl, nofun, nofun⟩
  | unreadable e h hrecvs =>
      refine ⟨rfl, by simp [hrecvs], fun e' he ↦ Or.inr ⟨⟨e, ?_⟩, by simp [hrecvs]⟩, nofun⟩
      exact (Except.error.inj he).symm
  | drained h hrecvs =>
      refine ⟨rfl, by simp, nofun, fun _ ↦ ?_⟩
      rcases hrecvs with hrecvs | ⟨rest, hrecvs⟩
      · exact Or.inl (by simp [hrecvs])
      · exact Or.inr (by simp [hrecvs])
  | landed h hrecvs _ _ ih =>
      obtain ⟨hsends, hle, hfailed, hnone⟩ := ih
      dsimp only at hsends hle hfailed hnone
      refine ⟨hsends, ?_, fun e he ↦ ?_, fun h ↦ ?_⟩
      · rw [hrecvs, List.length_cons]
        omega
      · rw [hrecvs, List.length_cons]
        exact (hfailed e he).imp_right (And.imp_right (by omega))
      · rw [hrecvs, List.length_cons]
        exact (hnone h).imp_right (by omega)

namespace SoupBinClient

variable {c c' : SoupBinClient} {now : Instant}

theorem dispatchLogin_isProtocol (s s' : Session) (e : SoupBinError)
    (h : s.dispatchLogin now = (.error e, s')) : e.IsProtocol := by
  have heffect := s.dispatchLogin_effect now
  rw [h] at heffect
  exact heffect.1

theorem dispatchStream_isProtocol (s s' : Session) (e : SoupBinError)
    (h : s.dispatchStream = (.error e, s')) : e.IsProtocol := by
  have heffect := s.dispatchStream_effect
  rw [h] at heffect
  exact heffect.1

theorem Flushed.ahead_eq (h : c.Flushed now c') (tail : List UInt8) :
    c'.session.ahead tail = c.session.ahead tail := by
  obtain ⟨n, lastSend, sends, rfl, -, -⟩ := h
  rfl

theorem Flushed.calm (h : c.Flushed now c') (hcalm : c.session.Calm now) :
    c'.session.Calm now := by
  obtain ⟨n, lastSend, sends, rfl, hclock, -⟩ := h
  obtain ⟨hlogin, hsend, hrecv⟩ := hcalm
  refine ⟨hlogin, ?_, hrecv⟩
  rcases hclock with rfl | rfl
  · exact hsend
  · simp

/-- A call that reads nothing and answers nothing inbound. -/
theorem Flushed.reads (h : c.Flushed now c')
    {answer : Except SoupBinError (Option SoupBinMessage)} (hinbound : inbound answer = none)
    (hanswer : answer ≠ .ok none) : c.session.Reads [] answer c'.session := by
  refine ⟨?_, fun before tail ↦ ?_, fun hnone ↦ (hanswer hnone).elim⟩
  · obtain ⟨n, lastSend, sends, rfl, -, -⟩ := h
    rfl
  · rw [hinbound, h.ahead_eq]
    simp

/-- What a poll of an open session does on the inbound side: it reads, unless a timer closes
the session behind what it has read. -/
def Pulls (c : SoupBinClient) (answer : Except SoupBinError (Option SoupBinMessage))
    (c' : SoupBinClient) : Prop :=
  ∃ bytes, c'.transport.received = c.transport.received ++ bytes ∧
    landing c.transport.recvs = bytes ++ landing c'.transport.recvs ∧
    (c.session.Reads bytes answer c'.session ∨
      (c'.session.state = .closed ∧ TimedOut answer ∧ inbound answer = none ∧
        c'.session.cfg.maxFrameSize = c.session.cfg.maxFrameSize ∧
        ∃ s, c.session.Reads bytes (.ok none) s))

theorem Advanced.pulls {answer : Except SoupBinError (Option SoupBinMessage)}
    {queued : List PacketFrame} (h : c.Advanced now answer c' queued)
    (hopen : c.session.state ≠ .closed) : c.Pulls answer c' := by
  have hlogin : ∀ {s r t}, c.session.state = .authenticating →
      Looped (fun s ↦ s.dispatchLogin now) now c.session c.transport r s t →
      ∃ bytes, t.received = c.transport.received ++ bytes ∧
        landing c.transport.recvs = bytes ++ landing t.recvs ∧
        c.session.Reads bytes (r.map (Option.map fun login ↦ .event login.event)) s :=
    fun hstate hlooped ↦ @Looped.reads Login _ (fun _ login ↦ .event login.event) _ _ _ _ _ _ _
      hlooped hstate fun s hs ↦ (s.dispatchLogin_dispatched now).reads
        (Session.loginPacket_follows now) (by simp) hs
  have hstream : ∀ {s r t}, c.session.state = .streaming →
      Looped Session.dispatchStream now c.session c.transport r s t →
      ∃ bytes, t.received = c.transport.received ++ bytes ∧
        landing c.transport.recvs = bytes ++ landing t.recvs ∧
        c.session.Reads bytes (r.map (Option.map fun streamed ↦ streamed.message s)) s :=
    fun hstate hlooped ↦ hlooped.reads hstate fun s hs ↦ s.dispatchStream_dispatched.reads
      Session.streamPacket_follows (by simp) hs
  have hheartbeat : ∀ {c'} {answer : Except SoupBinError (Option SoupBinMessage)},
      Flushed ⟨c.transport, c.session.queueHeartbeat.2⟩ now c' → inbound answer = none →
      answer ≠ .ok none → c.Pulls answer c' := by
    intro c' answer hflushed hinbound hanswer
    have hreads := hflushed.reads hinbound hanswer
    have hqueue := congrArg Prod.snd
      (@Session.queue_of_le c.session .clientHeartbeat [] (Nat.zero_le _))
    obtain ⟨n, lastSend, sends, rfl, -, -⟩ := hflushed
    refine ⟨[], by simp, by simp, Or.inl ?_⟩
    dsimp only [Session.queueHeartbeat] at hreads ⊢
    rw [hqueue] at hreads ⊢
    exact ⟨hreads.maxFrameSize, hreads.splits, hreads.waits⟩
  cases h with
  | ended hclosed => exact (hopen hclosed).elim
  | closing hclosed => exact (hopen hclosed).elim
  | loginFailed e hstate hlooped =>
      obtain ⟨bytes, hreceived, hlanding, hreads⟩ := hlogin hstate hlooped
      exact ⟨bytes, hreceived, hlanding, Or.inl hreads⟩
  | loginFound login hstate hlooped =>
      obtain ⟨bytes, hreceived, hlanding, hreads⟩ := hlogin hstate hlooped
      exact ⟨bytes, hreceived, hlanding, Or.inl hreads⟩
  | loginIdle hstate hlooped =>
      obtain ⟨bytes, hreceived, hlanding, hreads⟩ := hlogin hstate hlooped
      exact ⟨bytes, hreceived, hlanding, Or.inl hreads⟩
  | loginTimedOut hstate hlooped =>
      obtain ⟨bytes, hreceived, hlanding, hreads⟩ := hlogin hstate hlooped
      exact ⟨bytes, hreceived, hlanding,
        Or.inr ⟨rfl, Or.inl ⟨_, rfl⟩, rfl, hreads.maxFrameSize, _, hreads⟩⟩
  | heartbeatUnsent e _ _ hflushed => exact hheartbeat hflushed rfl (by simp)
  | heartbeatSent _ _ hflushed => exact hheartbeat hflushed rfl (by simp)
  | streamFailed e hstate _ hlooped =>
      obtain ⟨bytes, hreceived, hlanding, hreads⟩ := hstream hstate hlooped
      exact ⟨bytes, hreceived, hlanding, Or.inl hreads⟩
  | streamFound streamed hstate _ hlooped =>
      obtain ⟨bytes, hreceived, hlanding, hreads⟩ := hstream hstate hlooped
      exact ⟨bytes, hreceived, hlanding, Or.inl hreads⟩
  | streamIdle hstate _ hlooped =>
      obtain ⟨bytes, hreceived, hlanding, hreads⟩ := hstream hstate hlooped
      exact ⟨bytes, hreceived, hlanding, Or.inl hreads⟩
  | streamTimedOut hstate _ hlooped =>
      obtain ⟨bytes, hreceived, hlanding, hreads⟩ := hstream hstate hlooped
      exact ⟨bytes, hreceived, hlanding,
        Or.inr ⟨rfl, Or.inr rfl, rfl, hreads.maxFrameSize, _, hreads⟩⟩

theorem poll_pulls (hopen : c.session.state ≠ .closed) (now : Instant) :
    c.Pulls (c.poll now).1 (c.poll now).2 := by
  have hpolled := c.poll_polled now
  generalize (c.poll now).1 = answer at hpolled ⊢
  generalize (c.poll now).2 = c' at hpolled ⊢
  generalize c.heartbeats now = queued at hpolled
  cases hpolled with
  | unsent e hflushed =>
      have hreads := @Flushed.reads c c' now hflushed (.error (.transport e)) rfl (by simp)
      obtain ⟨n, lastSend, sends, rfl, -, -⟩ := hflushed
      exact ⟨[], by simp, by simp, Or.inl hreads⟩
  | advanced hflushed hadvanced =>
      have hpulls := hadvanced.pulls (hflushed.state_eq ▸ hopen)
      obtain ⟨n, lastSend, sends, rfl, -, -⟩ := hflushed
      obtain ⟨bytes, hreceived, hlanding, hreads | ⟨hclosed, hout, hinbound, hmax, s, hreads⟩⟩ :=
        hpulls
      · exact ⟨bytes, hreceived, hlanding,
          Or.inl ⟨hreads.maxFrameSize, hreads.splits, hreads.waits⟩⟩
      · exact ⟨bytes, hreceived, hlanding, Or.inr ⟨hclosed, hout, hinbound, hmax, s,
          hreads.maxFrameSize, hreads.splits, hreads.waits⟩⟩

end SoupBinClient

end SoupBin
