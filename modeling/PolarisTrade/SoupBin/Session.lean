import PolarisTrade.SoupBin.Wire

/-!
# The session state machine

Login, sequence, outbound buffer and heartbeat deadlines, shared by both drivers.  The
stream transport is the environment: a `Stream` holds what it will answer, call by call,
and what has gone through it so far.  Once its answers are used up nothing is ready any
more.  The uncompressed build is modelled.
-/

namespace SoupBin

open Transport Word

inductive ClientState where
  | authenticating
  | streaming
  | closed
  deriving DecidableEq

structure SoupBinClientConfig where
  username : String := ""
  password : String := ""
  requestedSession : String := ""
  requestedSequenceNumber : UInt64 := 1
  loginTimeout : ℕ := 30 * 10 ^ 9
  heartbeatInterval : ℕ := 10 ^ 9
  heartbeatTimeout : ℕ := 15 * 10 ^ 9
  maxFrameSize : ℕ := 64 * 1024
  decodeBufCapacity : ℕ := 64 * 1024

/-- Session id as sent, space padded. -/
abbrev SessionId := { c : List UInt8 // c.length = 10 }

inductive SoupBinEvent where
  | loginAccepted (session : SessionId) (sequence : ℕ)
  | loginRejected (reason : UInt8)
  | heartbeatReceived
  | heartbeatSent
  | heartbeatTimeout
  | endOfSession
  deriving DecidableEq

inductive SoupBinMessage where
  | data (payload : List UInt8) (sequence : ℕ)
  | event (ev : SoupBinEvent)
  deriving DecidableEq

inductive Login where
  | accepted (session : SessionId) (sequence : ℕ)
  | rejected (reason : UInt8)

inductive Streamed where
  | data (sequence : ℕ)
  | event (ev : SoupBinEvent)

/-! ## The transport -/

/-- A connected stream: its answers to come, the bytes it has landed and accepted. -/
structure Stream where
  recvs : List (Except TransportError (List UInt8))
  sends : List (Except TransportError ℕ)
  received : List UInt8 := []
  sent : List UInt8 := []

namespace Stream

/-- `recv_into`; an empty list is `Ok(0)`. -/
def recvInto (t : Stream) : Except TransportError (List UInt8) × Stream :=
  match t.recvs with
  | [] => (.ok [], t)
  | .error e :: rest => (.error e, { t with recvs := rest })
  | .ok bytes :: rest => (.ok bytes, { t with recvs := rest, received := t.received ++ bytes })

/-- `try_send`, which takes at most what it is offered. -/
def trySend (t : Stream) (buf : List UInt8) : Except TransportError ℕ × Stream :=
  match t.sends with
  | [] => (.ok 0, t)
  | .error e :: rest => (.error e, { t with sends := rest })
  | .ok n :: rest =>
      (.ok (min n buf.length), { t with sends := rest, sent := t.sent ++ buf.take n })

end Stream

/-! ## Fields of the login packets -/

/-- The characters with the Unicode property `White_Space`. -/
def isWhitespace (c : Char) : Bool :=
  let n := c.toNat
  (9 ≤ n && n ≤ 13) || n == 0x20 || n == 0x85 || n == 0xA0 || n == 0x1680 ||
    (0x2000 ≤ n && n ≤ 0x200A) || n == 0x2028 || n == 0x2029 || n == 0x202F ||
    n == 0x205F || n == 0x3000

/-- `str::trim`. -/
def trim (s : List Char) : List Char := (s.dropWhile isWhitespace).rdropWhile isWhitespace

/-- `str::parse::<u64>`: digits, after at most one plus sign. -/
def parseU64 (s : List Char) : Option ℕ :=
  let digits := match s with
    | '+' :: d :: ds => d :: ds
    | _ => s
  if digits ≠ [] ∧ digits.all Char.isDigit then
    let n := digits.foldl (fun acc d ↦ acc * 10 + (d.toNat - '0'.toNat)) 0
    if n < 2 ^ 64 then some n else none
  else none

def parseAsciiField (bytes : List UInt8) : Except SoupBinError (List Char) :=
  match String.fromUTF8? ⟨bytes.toArray⟩ with
  | none => .error (.protocolViolation .nonAsciiField)
  | some s => .ok (trim s.toList)

def parseAsciiNumeric (bytes : List UInt8) : Except SoupBinError ℕ :=
  match parseAsciiField bytes with
  | .error e => .error e
  | .ok [] => .ok 0
  | .ok s => okOr (parseU64 s) (.protocolViolation (.badNumericField s))

/-- `Login Accepted` payload: session (10), then sequence (20, ASCII). -/
def parseLoginAccepted (bytes : List UInt8) : Except SoupBinError (SessionId × ℕ) := do
  let (session, rest) ← okOr (splitFirstChunk 10 bytes) (.protocolViolation .loginAcceptedTooShort)
  let (sequence, _) ← okOr (splitFirstChunk 20 rest) (.protocolViolation .loginAcceptedTooShort)
  let n ← parseAsciiNumeric sequence.1
  pure (session, n)

/-- `str::as_bytes`. -/
def asBytes (s : String) : List UInt8 := s.toByteArray.data.toList

def asciiLeftJustify (out : List UInt8) (s : String) (width : ℕ) : List UInt8 :=
  let bytes := (asBytes s).take (min (asBytes s).length width)
  out ++ bytes ++ List.replicate (width - bytes.length) ' '.toUInt8

def asciiRightJustify (out : List UInt8) (s : String) (width : ℕ) : List UInt8 :=
  let bytes := (asBytes s).drop ((asBytes s).length - width)
  out ++ List.replicate (width - bytes.length) ' '.toUInt8 ++ bytes

def loginRequest (cfg : SoupBinClientConfig) : List UInt8 :=
  let payload := asciiLeftJustify [] cfg.username 6
  let payload := asciiLeftJustify payload cfg.password 10
  let payload := asciiLeftJustify payload cfg.requestedSession 10
  asciiRightJustify payload (toString cfg.requestedSequenceNumber.toNat) 20

theorem length_asciiLeftJustify (out : List UInt8) (s : String) (width : ℕ) :
    (asciiLeftJustify out s width).length = out.length + width := by
  simp only [asciiLeftJustify, List.length_append, List.length_take, List.length_replicate]
  omega

theorem length_asciiRightJustify (out : List UInt8) (s : String) (width : ℕ) :
    (asciiRightJustify out s width).length = out.length + width := by
  simp only [asciiRightJustify, List.length_append, List.length_drop, List.length_replicate]
  omega

theorem length_loginRequest (cfg : SoupBinClientConfig) : (loginRequest cfg).length = 46 := by
  simp only [loginRequest, length_asciiRightJustify, length_asciiLeftJustify, List.length_nil]

/-! ## The session -/

structure Session where
  state : ClientState
  cfg : SoupBinClientConfig
  decodeBuf : List UInt8
  lastFrame : List UInt8
  out : List UInt8
  assignedId : String
  nextExpectedSequence : ℕ
  lastSend : Instant
  lastRecv : Instant
  loginDeadline : Instant

namespace Session

def new (cfg : SoupBinClientConfig) (now : Instant) : Session where
  state := .authenticating
  cfg := cfg
  decodeBuf := []
  lastFrame := []
  out := []
  assignedId := ""
  nextExpectedSequence := 0
  lastSend := now
  lastRecv := now
  loginDeadline := now

def nextDeadline (s : Session) : Instant :=
  match s.state with
  | .authenticating => s.loginDeadline
  | .streaming | .closed =>
      let recvDue := s.lastRecv + s.cfg.heartbeatTimeout
      if s.out.isEmpty then min recvDue (s.lastSend + s.cfg.heartbeatInterval) else recvDue

/-- Append one packet to the outbound buffer; nothing on error. -/
def queue (s : Session) (ty : PacketType) (payload : List UInt8) :
    Except SoupBinError Unit × Session :=
  if 1 + payload.length ≤ 65535 then
    (.ok (), { s with out := s.out ++ PacketFrame.bytes ⟨ty, payload⟩ })
  else (.error (.frameTooLarge payload.length (65535 - 1)), s)

def queueLogin (s : Session) (now : Instant) : Except SoupBinError Unit × Session :=
  match s.queue .loginRequest (loginRequest s.cfg) with
  | (.error e, s) => (.error e, s)
  | (.ok _, s) => (.ok (), { s with loginDeadline := now + s.cfg.loginTimeout })

def queueHeartbeat (s : Session) : Except SoupBinError Unit × Session :=
  s.queue .clientHeartbeat []

def closeLogout (s : Session) : Session := { s with state := .closed }

def loginTimedOut (s : Session) : SoupBinError × Session :=
  (.loginTimeout s.cfg.loginTimeout, { s with state := .closed, out := [] })

def sentAll (s : Session) (now : Instant) : Session := { s with out := [], lastSend := now }

/-- The loop of `flush`: every round that goes on takes at least one byte off `out`. -/
def flushLoop (now : Instant) : ℕ → Session → Stream → Except SoupBinError Unit × Session × Stream
  | 0, s, t => (.ok (), s, t)
  | fuel + 1, s, t =>
      if s.out.isEmpty then (.ok (), s, t)
      else
        match t.trySend s.out with
        | (.error e, t) => (.error (.transport e), s, t)
        | (.ok 0, t) => (.ok (), s, t)
        | (.ok n, t) =>
            let out := s.out.drop n
            flushLoop now fuel
              { s with out := out, lastSend := if out.isEmpty then now else s.lastSend } t

def flush (s : Session) (t : Stream) (now : Instant) :
    Except SoupBinError Unit × Session × Stream :=
  flushLoop now s.out.length s t

def heartbeatDue (s : Session) (now : Instant) : Bool :=
  s.out.isEmpty && decide (s.cfg.heartbeatInterval < now - s.lastSend)

def heartbeatTimedOut (s : Session) (now : Instant) : Bool × Session :=
  if now - s.lastRecv ≤ s.cfg.heartbeatTimeout then (false, s)
  else (true, { s with state := .closed, out := [] })

/-- One `recv_into` behind what is buffered; whether anything was read.  The room reserved
first bounds what one call lands, and any bound does here. -/
def ingest (s : Session) (t : Stream) (now : Instant) :
    Except SoupBinError Bool × Session × Stream :=
  match t.recvInto with
  | (.error e, t) => (.error (.transport e), s, t)
  | (.ok bytes, t) =>
      let read := !bytes.isEmpty
      (.ok read,
        { s with
          decodeBuf := s.decodeBuf ++ bytes
          lastRecv := if read then now else s.lastRecv }, t)

/-! ## Taking packets off the decode buffer -/

end Session

/-- The next whole packet, its size checked on the length field first. -/
def takeFrame (maxFrameSize : ℕ) (buf : List UInt8) :
    Except SoupBinError (Option (PacketFrame × ℕ)) :=
  match buf with
  | hi :: lo :: _ =>
      let total := 2 + fromBeBytes [hi, lo]
      if maxFrameSize < total then .error (.frameTooLarge total maxFrameSize)
      else parsePacket buf
  | _ => parsePacket buf

namespace Session

def takePacket (s : Session) : Except SoupBinError (Option (PacketFrame × Session)) :=
  match takeFrame s.cfg.maxFrameSize s.decodeBuf with
  | .error e => .error e
  | .ok none => .ok none
  | .ok (some (p, consumed)) =>
      .ok (some (p, { s with decodeBuf := s.decodeBuf.drop consumed }))

/-- The loop of both dispatchers: packets are taken until `decide` answers for one.  Every
packet takes bytes off `decode_buf`. -/
def dispatchLoop {α : Type}
    (decide : PacketFrame → Session → Option (Except SoupBinError α × Session)) :
    ℕ → Session → Except SoupBinError (Option α) × Session
  | 0, s => (.ok none, s)
  | fuel + 1, s =>
      match s.takePacket with
      | .error e => (.error e, s)
      | .ok none => (.ok none, s)
      | .ok (some (p, s)) =>
          match decide p s with
          | none => dispatchLoop decide fuel s
          | some (r, s) => (r.map some, s)

/-- One packet while authenticating; `none` drops it. -/
def loginPacket (now : Instant) (p : PacketFrame) (s : Session) :
    Option (Except SoupBinError Login × Session) :=
  match p.ty with
  | .loginAccepted =>
      match parseLoginAccepted p.payload with
      | .error e => some (.error e, s)
      | .ok (session, sequence) =>
          match parseAsciiField session.1 with
          | .error e => some (.error e, s)
          | .ok id =>
              some (.ok (.accepted session sequence),
                { s with
                  assignedId := String.ofList id
                  nextExpectedSequence := sequence
                  lastRecv := now
                  state := .streaming })
  | .loginRejected =>
      match p.payload with
      | [] => some (.error (.protocolViolation .loginRejectedWithoutReason), s)
      | reason :: _ => some (.ok (.rejected reason), { s with state := .closed })
  | .debug | .serverHeartbeat => none
  | other => some (.error (.protocolViolation (.unexpectedDuringLogin other)), s)

/-- One packet while streaming; `none` drops it. -/
def streamPacket (p : PacketFrame) (s : Session) :
    Option (Except SoupBinError Streamed × Session) :=
  match p.ty with
  | .sequencedData =>
      some (.ok (.data s.nextExpectedSequence),
        { s with
          nextExpectedSequence := wrappingAdd s.nextExpectedSequence 1
          lastFrame := p.payload })
  | .serverHeartbeat => some (.ok (.event .heartbeatReceived), s)
  | .endOfSession => some (.ok (.event .endOfSession), { s with state := .closed, out := [] })
  | .debug => none
  | other => some (.error (.protocolViolation (.unexpectedInStreaming other)), s)

def dispatchLogin (s : Session) (now : Instant) : Except SoupBinError (Option Login) × Session :=
  dispatchLoop (loginPacket now) s.decodeBuf.length s

def dispatchStream (s : Session) : Except SoupBinError (Option Streamed) × Session :=
  dispatchLoop streamPacket s.decodeBuf.length s

/-! ## What each piece does -/

/-- A flush writes a front part of `out` and stops at its end, at a full socket or at an
error, which uses up an answer of the transport. -/
theorem flushLoop_spec (now : Instant) (fuel : ℕ) :
    ∀ (s : Session) (t : Stream), ∃ n lastSend sends,
      (flushLoop now fuel s t).2 =
        ({ s with out := s.out.drop n, lastSend := lastSend },
          { t with sends := sends, sent := t.sent ++ s.out.take n }) ∧
      (lastSend = s.lastSend ∨ lastSend = now) ∧ sends.length ≤ t.sends.length ∧
      ((flushLoop now fuel s t).1 = .ok () ∨
        ∃ e, (flushLoop now fuel s t).1 = .error (.transport e) ∧
          sends.length < t.sends.length) := by
  induction fuel with
  | zero =>
      exact fun s t ↦ ⟨0, s.lastSend, t.sends, by simp [flushLoop], Or.inl rfl, le_rfl, Or.inl rfl⟩
  | succ fuel ih =>
      intro s t
      unfold flushLoop
      by_cases hempty : s.out.isEmpty
      · rw [if_pos hempty]
        exact ⟨0, s.lastSend, t.sends, by simp, Or.inl rfl, le_rfl, Or.inl rfl⟩
      rw [if_neg hempty]
      unfold Stream.trySend
      rcases hsends : t.sends with _ | ⟨e | n, rest⟩
      · exact ⟨0, s.lastSend, t.sends, by simp, Or.inl rfl, by simp [hsends], Or.inl rfl⟩
      · exact ⟨0, s.lastSend, rest, by simp, Or.inl rfl, by simp, Or.inr ⟨e, rfl, by simp⟩⟩
      · dsimp only
        rcases hn : min n s.out.length with _ | m
        · have hzero : s.out.take n = [] := by
            rw [List.take_eq_nil_iff]
            rcases Nat.min_eq_zero_iff.mp hn with h | h
            · exact Or.inl h
            · exact Or.inr (List.length_eq_zero_iff.mp h)
          exact ⟨0, s.lastSend, rest, by simp [hzero], Or.inl rfl, by simp, Or.inl rfl⟩
        · obtain ⟨k, lastSend, sends, hstate, hclock, hle, hresult⟩ := ih
            { s with
              out := s.out.drop (m + 1)
              lastSend := if (s.out.drop (m + 1)).isEmpty then now else s.lastSend }
            { t with sends := rest, sent := t.sent ++ s.out.take n }
          have htake : s.out.take n = s.out.take (m + 1) := by
            rw [← hn, ← List.take_take, List.take_length]
          refine ⟨m + 1 + k, lastSend, sends, hstate.trans ?_, ?_, Nat.le_succ_of_le hle, ?_⟩
          · rw [htake, List.drop_drop, List.append_assoc, ← List.take_add]
          · rcases hclock with rfl | rfl
            · dsimp only
              split
              · exact Or.inr rfl
              · exact Or.inl rfl
            · exact Or.inr rfl
          · rcases hresult with hok | ⟨e, he, hlt⟩
            · exact Or.inl hok
            · exact Or.inr ⟨e, he, Nat.lt_succ_of_lt hlt⟩

/-- A payload up to the limit of the length field is queued. -/
theorem queue_of_le {s : Session} {ty : PacketType} {payload : List UInt8}
    (h : payload.length ≤ 65534) :
    s.queue ty payload = (.ok (), { s with out := s.out ++ PacketFrame.bytes ⟨ty, payload⟩ }) :=
  if_pos (by omega)

theorem queue_of_lt {s : Session} {ty : PacketType} {payload : List UInt8}
    (h : 65534 < payload.length) :
    s.queue ty payload = (.error (.frameTooLarge payload.length 65534), s) :=
  if_neg (by omega)

/-- The login request always fits. -/
theorem queueLogin_eq (s : Session) (now : Instant) :
    s.queueLogin now = (.ok (),
      { s with
        out := s.out ++ PacketFrame.bytes ⟨.loginRequest, loginRequest s.cfg⟩
        loginDeadline := now + s.cfg.loginTimeout }) := by
  have hlen := length_loginRequest s.cfg
  unfold queueLogin
  rw [queue_of_le (by omega)]

/-- The three answers of `recv_into`. -/
theorem ingest_cases (s : Session) (t : Stream) (now : Instant) :
    (∃ e rest, t.recvs = .error e :: rest ∧
      s.ingest t now = (.error (.transport e), s, { t with recvs := rest })) ∨
    ((t.recvs = [] ∨ ∃ rest, t.recvs = .ok [] :: rest) ∧
      s.ingest t now = (.ok false, s, { t with recvs := t.recvs.tail })) ∨
    ∃ bytes rest, bytes ≠ [] ∧ t.recvs = .ok bytes :: rest ∧
      s.ingest t now = (.ok true, { s with decodeBuf := s.decodeBuf ++ bytes, lastRecv := now },
        { t with recvs := rest, received := t.received ++ bytes }) := by
  obtain ⟨recvs, sends, received, sent⟩ := t
  unfold ingest Stream.recvInto
  rcases recvs with _ | ⟨e | bytes, rest⟩
  · exact Or.inr (Or.inl ⟨Or.inl rfl, by simp⟩)
  · exact Or.inl ⟨e, rest, rfl, rfl⟩
  · cases bytes with
    | nil => exact Or.inr (Or.inl ⟨Or.inr ⟨rest, rfl⟩, by simp⟩)
    | cons b bytes => exact Or.inr (Or.inr ⟨b :: bytes, rest, by simp, rfl, rfl⟩)

theorem flush_spec (s : Session) (t : Stream) (now : Instant) :
    ∃ n lastSend sends,
      (s.flush t now).2 =
        ({ s with out := s.out.drop n, lastSend := lastSend },
          { t with sends := sends, sent := t.sent ++ s.out.take n }) ∧
      (lastSend = s.lastSend ∨ lastSend = now) ∧ sends.length ≤ t.sends.length ∧
      ((s.flush t now).1 = .ok () ∨
        ∃ e, (s.flush t now).1 = .error (.transport e) ∧ sends.length < t.sends.length) :=
  flushLoop_spec now s.out.length s t

end Session

/-- The size check looks at two bytes only, so it comes out alike when more arrives. -/
theorem takeFrame_cases (maxFrameSize : ℕ) (buf : List UInt8) :
    takeFrame maxFrameSize buf = .ok none ∨
    (∃ size, ∀ tail, takeFrame maxFrameSize (buf ++ tail) =
      .error (.frameTooLarge size maxFrameSize)) ∨
    ∀ tail, takeFrame maxFrameSize (buf ++ tail) = parsePacket (buf ++ tail) := by
  match buf with
  | [] => exact Or.inl rfl
  | [_] => exact Or.inl rfl
  | hi :: lo :: rest =>
      right
      by_cases hsize : maxFrameSize < 2 + fromBeBytes [hi, lo]
      · exact Or.inl ⟨_, fun tail ↦ if_pos hsize⟩
      · exact Or.inr fun tail ↦ if_neg hsize

theorem takeFrame_ok {maxFrameSize : ℕ} {buf : List UInt8} {p : PacketFrame} {n : ℕ}
    (h : takeFrame maxFrameSize buf = .ok (some (p, n))) :
    3 ≤ n ∧ n ≤ buf.length ∧
      ∀ tail, takeFrame maxFrameSize (buf ++ tail) = .ok (some (p, n)) := by
  rcases takeFrame_cases maxFrameSize buf with hnone | ⟨size, hbad⟩ | hparse
  · rw [hnone] at h
    cases h
  · rw [← List.append_nil buf, hbad] at h
    cases h
  · have hparse₀ := hparse []
    rw [List.append_nil, h] at hparse₀
    obtain ⟨hpos, hle, -, happend⟩ := parsePacket_ok hparse₀.symm
    exact ⟨hpos, hle, fun tail ↦ (hparse tail).trans (happend tail)⟩

/-- The failures that leave the buffer as it is, to be met again by every later call. -/
def SoupBinError.IsFraming : SoupBinError → Prop
  | .frameTooLarge .. => True
  | .unknownPacketType _ => True
  | .protocolViolation .zeroLengthPacket => True
  | _ => False

instance : DecidablePred SoupBinError.IsFraming
  | .transport _ => .isFalse id
  | .loginRejected _ => .isFalse id
  | .loginTimeout _ => .isFalse id
  | .frameTooLarge .. => .isTrue trivial
  | .protocolViolation .zeroLengthPacket => .isTrue trivial
  | .protocolViolation .loginRejectedWithoutReason => .isFalse id
  | .protocolViolation (.unexpectedDuringLogin _) => .isFalse id
  | .protocolViolation (.unexpectedInStreaming _) => .isFalse id
  | .protocolViolation .loginAcceptedTooShort => .isFalse id
  | .protocolViolation .nonAsciiField => .isFalse id
  | .protocolViolation (.badNumericField _) => .isFalse id
  | .unknownPacketType _ => .isTrue trivial
  | .endOfSession => .isFalse id

theorem takeFrame_error {maxFrameSize : ℕ} {buf : List UInt8} {e : SoupBinError}
    (h : takeFrame maxFrameSize buf = .error e) :
    e.IsFraming ∧ ∀ tail, takeFrame maxFrameSize (buf ++ tail) = .error e := by
  rcases takeFrame_cases maxFrameSize buf with hnone | ⟨size, hbad⟩ | hparse
  · rw [hnone] at h
    cases h
  · have hbad₀ := hbad []
    rw [List.append_nil, h] at hbad₀
    cases hbad₀
    exact ⟨trivial, hbad⟩
  · have hparse₀ := hparse []
    rw [List.append_nil, h] at hparse₀
    obtain ⟨hkind, happend⟩ := parsePacket_error hparse₀.symm
    refine ⟨?_, fun tail ↦ (hparse tail).trans (happend tail)⟩
    rcases hkind with rfl | ⟨b, rfl⟩
    · trivial
    · trivial

/-- The inbound byte stream as a stream of packets. -/
def sessionFramer (maxFrameSize : ℕ) : Framer UInt8 PacketFrame SoupBinError where
  frame buf := toFramed (takeFrame maxFrameSize buf)
  consumed_pos h := (Nat.succ_pos 2).trans_le (takeFrame_ok (toFramed_item.mp h)).1
  consumed_le h := (takeFrame_ok (toFramed_item.mp h)).2.1
  item_append tail h := toFramed_item.mpr ((takeFrame_ok (toFramed_item.mp h)).2.2 tail)
  bad_append tail h := toFramed_bad.mpr ((takeFrame_error (toFramed_bad.mp h)).2 tail)

theorem takeFrame_bytes {maxFrameSize : ℕ} {p : PacketFrame} (hfits : p.payload.length < 65535)
    (hmax : 3 + p.payload.length ≤ maxFrameSize) (tail : List UInt8) :
    takeFrame maxFrameSize (p.bytes ++ tail) = .ok (some (p, p.bytes.length)) := by
  have hlen : fromBeBytes (toBeBytes 2 (1 + p.payload.length)) = 1 + p.payload.length :=
    fromBeBytes_toBeBytes (by omega)
  have hheader := length_toBeBytes 2 (1 + p.payload.length)
  have hparse := parsePacket_bytes hfits tail
  unfold PacketFrame.bytes at hparse ⊢
  generalize toBeBytes 2 (1 + p.payload.length) = header at hlen hheader hparse ⊢
  obtain ⟨hi, lo, rfl⟩ := List.length_eq_two.mp hheader
  rw [← hparse]
  exact if_neg (by rw [hlen]; omega)

/-- Packets within the size limit are read back. -/
theorem cut_sessionFramer {maxFrameSize : ℕ} {ps : List PacketFrame}
    (hfits : ∀ p ∈ ps, p.payload.length < 65535 ∧ 3 + p.payload.length ≤ maxFrameSize) :
    (sessionFramer maxFrameSize).cut (ps.flatMap PacketFrame.bytes) = (ps, none, []) :=
  Framer.cut_flatMap PacketFrame.bytes rfl fun p hp tail ↦
    toFramed_item.mpr (takeFrame_bytes (hfits p hp).1 (hfits p hp).2 tail)

namespace Session

/-- The three answers of `take_packet`. -/
theorem takePacket_cases (s : Session) :
    ((sessionFramer s.cfg.maxFrameSize).frame s.decodeBuf = .more ∧ s.takePacket = .ok none) ∨
    (∃ e, (sessionFramer s.cfg.maxFrameSize).frame s.decodeBuf = .bad e ∧
      s.takePacket = .error e) ∨
    ∃ p n, (sessionFramer s.cfg.maxFrameSize).frame s.decodeBuf = .item p n ∧
      s.takePacket = .ok (some (p, { s with decodeBuf := s.decodeBuf.drop n })) := by
  unfold takePacket sessionFramer
  dsimp only
  rcases takeFrame s.cfg.maxFrameSize s.decodeBuf with e | _ | ⟨p, n⟩
  · exact Or.inr (Or.inl ⟨e, rfl, rfl⟩)
  · exact Or.inl ⟨rfl, rfl⟩
  · exact Or.inr (Or.inr ⟨p, n, rfl, rfl⟩)

/-- Everything a dispatcher can do: wait for more bytes, fail on the framing, or answer for
the first packet it does not drop. -/
inductive Dispatched {α : Type}
    (decide : PacketFrame → Session → Option (Except SoupBinError α × Session)) :
    Session → Except SoupBinError (Option α) → Session → Prop
  | waiting {s : Session} : (sessionFramer s.cfg.maxFrameSize).frame s.decodeBuf = .more →
      Dispatched decide s (.ok none) s
  | broken {s : Session} (e : SoupBinError) :
      (sessionFramer s.cfg.maxFrameSize).frame s.decodeBuf = .bad e →
      Dispatched decide s (.error e) s
  | dropped {s s' : Session} {r : Except SoupBinError (Option α)} (p : PacketFrame) (n : ℕ) :
      (sessionFramer s.cfg.maxFrameSize).frame s.decodeBuf = .item p n →
      decide p { s with decodeBuf := s.decodeBuf.drop n } = none →
      Dispatched decide { s with decodeBuf := s.decodeBuf.drop n } r s' →
      Dispatched decide s r s'
  | decided {s s' : Session} {r : Except SoupBinError α} (p : PacketFrame) (n : ℕ) :
      (sessionFramer s.cfg.maxFrameSize).frame s.decodeBuf = .item p n →
      decide p { s with decodeBuf := s.decodeBuf.drop n } = some (r, s') →
      Dispatched decide s (r.map some) s'

theorem dispatchLoop_dispatched {α : Type}
    {decide : PacketFrame → Session → Option (Except SoupBinError α × Session)} {fuel : ℕ} :
    ∀ {s : Session}, s.decodeBuf.length ≤ fuel →
      Dispatched decide s (dispatchLoop decide fuel s).1 (dispatchLoop decide fuel s).2 := by
  induction fuel with
  | zero =>
      intro s hfuel
      refine .waiting ?_
      rw [List.length_eq_zero_iff.mp (Nat.le_zero.mp hfuel)]
      rfl
  | succ fuel ih =>
      intro s hfuel
      unfold dispatchLoop
      rcases s.takePacket_cases with ⟨hframe, htake⟩ | ⟨e, hframe, htake⟩ | ⟨p, n, hframe, htake⟩
      · rw [htake]
        exact .waiting hframe
      · rw [htake]
        exact .broken e hframe
      · rw [htake]
        dsimp only
        rcases hdecide : decide p { s with decodeBuf := s.decodeBuf.drop n } with _ | ⟨r, s'⟩
        · have hlt := Framer.length_drop_lt hframe
          exact .dropped p n hframe hdecide (ih (by dsimp only; omega))
        · exact .decided p n hframe hdecide

/-- A property of a session's dispatch that holds for every buffer, once it holds for the
three ways of ending it. -/
theorem Dispatched.effect {α : Type}
    {decide : PacketFrame → Session → Option (Except SoupBinError α × Session)}
    {E : Session → Except SoupBinError (Option α) → Session → Prop} {s s' : Session}
    {r : Except SoupBinError (Option α)} (h : Dispatched decide s r s')
    (hwaiting : ∀ s, E s (.ok none) s)
    (hbroken : ∀ s (e : SoupBinError), e.IsFraming → E s (.error e) s)
    (hdecided : ∀ s p r s', decide p s = some (r, s') → E s (r.map some) s')
    (hbuf : ∀ s buf r s', E { s with decodeBuf := buf } r s' → E s r s') : E s r s' := by
  induction h with
  | waiting => exact hwaiting _
  | broken e hframe => exact hbroken _ e (takeFrame_error (toFramed_bad.mp hframe)).1
  | dropped p n _ _ _ ih => exact hbuf _ _ _ _ ih
  | decided p n _ hdecide => exact hbuf _ _ _ _ (hdecided _ p _ _ hdecide)

end Session

/-- The failures that come from the packets read. -/
def SoupBinError.IsProtocol : SoupBinError → Prop
  | .frameTooLarge .. => True
  | .unknownPacketType _ => True
  | .protocolViolation _ => True
  | _ => False

instance : DecidablePred SoupBinError.IsProtocol
  | .transport _ => .isFalse id
  | .loginRejected _ => .isFalse id
  | .loginTimeout _ => .isFalse id
  | .frameTooLarge .. => .isTrue trivial
  | .protocolViolation _ => .isTrue trivial
  | .unknownPacketType _ => .isTrue trivial
  | .endOfSession => .isFalse id

theorem SoupBinError.IsFraming.isProtocol {e : SoupBinError} (h : e.IsFraming) :
    e.IsProtocol := by
  cases e with
  | frameTooLarge => trivial
  | protocolViolation => trivial
  | unknownPacketType => trivial
  | _ => exact h.elim

theorem parseAsciiField_error {bytes : List UInt8} {e : SoupBinError}
    (h : parseAsciiField bytes = .error e) : e = .protocolViolation .nonAsciiField := by
  unfold parseAsciiField at h
  split at h
  · exact (Except.error.inj h).symm
  · cases h

theorem parseAsciiNumeric_error {bytes : List UInt8} {e : SoupBinError}
    (h : parseAsciiNumeric bytes = .error e) :
    e = .protocolViolation .nonAsciiField ∨ ∃ s, e = .protocolViolation (.badNumericField s) := by
  unfold parseAsciiNumeric at h
  split at h
  · next hfield => exact Or.inl (Except.error.inj h ▸ parseAsciiField_error hfield)
  · cases h
  · next s _ _ =>
      cases hparse : parseU64 s with
      | none =>
          rw [hparse] at h
          exact Or.inr ⟨s, (Except.error.inj h).symm⟩
      | some n =>
          rw [hparse] at h
          cases h

theorem parseU64_lt {s : List Char} {n : ℕ} (h : parseU64 s = some n) : n < 2 ^ 64 := by
  simp only [parseU64, Option.ite_none_right_eq_some, Option.some.injEq] at h
  obtain ⟨-, hlt, rfl⟩ := h
  exact hlt

theorem parseAsciiNumeric_lt {bytes : List UInt8} {n : ℕ} (h : parseAsciiNumeric bytes = .ok n) :
    n < 2 ^ 64 := by
  unfold parseAsciiNumeric at h
  split at h
  · cases h
  · cases h
    exact Nat.two_pow_pos 64
  · next s _ _ =>
      cases hparse : parseU64 s with
      | none =>
          rw [hparse] at h
          cases h
      | some m =>
          rw [hparse] at h
          cases h
          exact parseU64_lt hparse

/-- A login answer is too short, or what it gives hangs on its sequence field. -/
theorem parseLoginAccepted_cases (bytes : List UInt8) :
    parseLoginAccepted bytes = .error (.protocolViolation .loginAcceptedTooShort) ∨
    ∃ session sequence, parseLoginAccepted bytes =
      (parseAsciiNumeric sequence).map fun n ↦ (session, n) := by
  unfold parseLoginAccepted
  cases splitFirstChunk 10 bytes with
  | none => exact Or.inl rfl
  | some session =>
      dsimp only [okOr, bind, Except.bind]
      cases splitFirstChunk 20 session.2 with
      | none => exact Or.inl rfl
      | some sequence => exact Or.inr ⟨session.1, sequence.1.1, rfl⟩

/-- It is rejected for its fields, not for its framing. -/
theorem parseLoginAccepted_error {bytes : List UInt8} {e : SoupBinError}
    (h : parseLoginAccepted bytes = .error e) : e.IsProtocol ∧ ¬ e.IsFraming := by
  rcases parseLoginAccepted_cases bytes with hparse | ⟨session, sequence, hparse⟩
  · rw [hparse] at h
    cases h
    exact ⟨trivial, id⟩
  · rw [hparse] at h
    cases hnumeric : parseAsciiNumeric sequence with
    | ok n =>
        rw [hnumeric] at h
        cases h
    | error e' =>
        rw [hnumeric] at h
        cases h
        rcases parseAsciiNumeric_error hnumeric with rfl | ⟨s, rfl⟩
        · exact ⟨trivial, id⟩
        · exact ⟨trivial, id⟩

/-- Its sequence is a `u64`. -/
theorem parseLoginAccepted_lt {bytes : List UInt8} {fields : SessionId × ℕ}
    (h : parseLoginAccepted bytes = .ok fields) : fields.2 < 2 ^ 64 := by
  rcases parseLoginAccepted_cases bytes with hparse | ⟨session, sequence, hparse⟩
  · rw [hparse] at h
    cases h
  · rw [hparse] at h
    cases hnumeric : parseAsciiNumeric sequence with
    | error e =>
        rw [hnumeric] at h
        cases h
    | ok n =>
        rw [hnumeric] at h
        cases h
        exact parseAsciiNumeric_lt hnumeric

namespace Session

/-- What dispatching a login answer leaves. -/
def LoginEffect (now : Instant) (s : Session) (r : Except SoupBinError (Option Login))
    (s' : Session) : Prop :=
  match r with
  | .ok none => ∃ buf, s' = { s with decodeBuf := buf }
  | .error e => e.IsProtocol ∧ ∃ buf, s' = { s with decodeBuf := buf }
  | .ok (some (.accepted _ sequence)) => sequence < 2 ^ 64 ∧ ∃ buf id, s' =
      { s with
        decodeBuf := buf
        assignedId := id
        nextExpectedSequence := sequence
        lastRecv := now
        state := .streaming }
  | .ok (some (.rejected _)) => ∃ buf, s' = { s with decodeBuf := buf, state := .closed }

/-- What dispatching a packet of the stream leaves. -/
def StreamEffect (s : Session) (r : Except SoupBinError (Option Streamed)) (s' : Session) :
    Prop :=
  match r with
  | .ok none => ∃ buf, s' = { s with decodeBuf := buf }
  | .error e => e.IsProtocol ∧ ∃ buf, s' = { s with decodeBuf := buf }
  | .ok (some (.data sequence)) => sequence = s.nextExpectedSequence ∧ ∃ buf frame, s' =
      { s with
        decodeBuf := buf
        nextExpectedSequence := wrappingAdd sequence 1
        lastFrame := frame }
  | .ok (some (.event .heartbeatReceived)) => ∃ buf, s' = { s with decodeBuf := buf }
  | .ok (some (.event .endOfSession)) =>
      ∃ buf, s' = { s with decodeBuf := buf, state := .closed, out := [] }
  | .ok (some (.event _)) => False

theorem loginPacket_effect {now : Instant} {p : PacketFrame} {s s' : Session}
    {r : Except SoupBinError Login} (h : loginPacket now p s = some (r, s')) :
    LoginEffect now s (r.map some) s' := by
  obtain ⟨ty, payload⟩ := p
  cases ty with
  | loginAccepted =>
      simp only [loginPacket] at h
      cases hparse : parseLoginAccepted payload with
      | error e =>
          rw [hparse] at h
          cases h
          exact ⟨(parseLoginAccepted_error hparse).1, _, rfl⟩
      | ok fields =>
          rw [hparse] at h
          dsimp only at h
          cases hfield : parseAsciiField fields.1.1 with
          | error e =>
              rw [hfield] at h
              cases h
              exact ⟨parseAsciiField_error hfield ▸ trivial, _, rfl⟩
          | ok id =>
              rw [hfield] at h
              cases h
              exact ⟨parseLoginAccepted_lt hparse, _, _, rfl⟩
  | loginRejected =>
      cases payload with
      | nil => cases h; exact ⟨trivial, _, rfl⟩
      | cons reason rest => cases h; exact ⟨_, rfl⟩
  | debug => cases h
  | serverHeartbeat => cases h
  | _ => cases h; exact ⟨trivial, _, rfl⟩

theorem streamPacket_effect {p : PacketFrame} {s s' : Session}
    {r : Except SoupBinError Streamed} (h : streamPacket p s = some (r, s')) :
    StreamEffect s (r.map some) s' := by
  obtain ⟨ty, payload⟩ := p
  cases ty with
  | sequencedData => cases h; exact ⟨rfl, _, _, rfl⟩
  | serverHeartbeat => cases h; exact ⟨_, rfl⟩
  | endOfSession => cases h; exact ⟨_, rfl⟩
  | debug => cases h
  | _ => cases h; exact ⟨trivial, _, rfl⟩

theorem dispatchLogin_dispatched (s : Session) (now : Instant) :
    Dispatched (loginPacket now) s (s.dispatchLogin now).1 (s.dispatchLogin now).2 :=
  dispatchLoop_dispatched le_rfl

theorem dispatchStream_dispatched (s : Session) :
    Dispatched streamPacket s s.dispatchStream.1 s.dispatchStream.2 :=
  dispatchLoop_dispatched le_rfl

theorem dispatchLogin_effect (s : Session) (now : Instant) :
    LoginEffect now s (s.dispatchLogin now).1 (s.dispatchLogin now).2 := by
  refine (s.dispatchLogin_dispatched now).effect (fun s ↦ ⟨_, rfl⟩)
    (fun s e he ↦ ⟨he.isProtocol, _, rfl⟩) (fun s p r s' ↦ loginPacket_effect) ?_
  rintro s buf (e | _ | login) s' h
  · exact h
  · exact h
  · cases login <;> exact h

theorem dispatchStream_effect (s : Session) :
    StreamEffect s s.dispatchStream.1 s.dispatchStream.2 := by
  refine s.dispatchStream_dispatched.effect (fun s ↦ ⟨_, rfl⟩)
    (fun s e he ↦ ⟨he.isProtocol, _, rfl⟩) (fun s p r s' ↦ streamPacket_effect) ?_
  rintro s buf (e | _ | streamed) s' h
  · exact h
  · exact h
  · cases streamed with
    | data sequence => exact h
    | event ev => cases ev <;> exact h

end Session

end SoupBin
