import PolarisTrade.SoupBin.Client

/-!
# Outbound order of the asynchronous client

`connect`, `send_unsequenced`, `tick_heartbeat`, `logout` and `recv`.  A `send_all` may
finish, fail or be dropped by its caller, each of the last two behind any front part of the
buffer; what was written stays written, and the outbound buffer is cleared only behind a
send that finished.  A later call then sends the written bytes again.
-/

namespace SoupBin

open Transport Word

/-- How one `send_all` ends. -/
inductive Sending where
  | finished
  | failed (e : TransportError) (written : ℕ)
  | dropped (written : ℕ)

/-- No byte of the buffer gets out. -/
def Sending.writesNone : Sending → Bool
  | .finished => false
  | .failed _ written | .dropped written => written = 0

/-- Bytes that got out of a send that did not finish. -/
def Sending.written : Sending → Option ℕ
  | .finished => none
  | .failed _ written | .dropped written => some written

theorem Sending.written_eq_zero {sending : Option Sending} {n : ℕ}
    (hnone : sending.all writesNone = true) (h : sending.bind written = some n) : n = 0 := by
  rcases sending with _ | ⟨_ | ⟨e, m⟩ | m⟩
  · cases h
  · cases h
  · cases h
    exact of_decide_eq_true hnone
  · cases h
    exact of_decide_eq_true hnone

/-- One round of the wait in `login`: the clock before and behind the dispatch, and what
`ready` and `recv_into` gave, if not the deadline. -/
structure Round where
  dispatched : Instant
  checked : Instant
  arrival : Option (Except TransportError (List UInt8))
  landed : Instant

/-- A client with the bytes its transport has written. -/
structure AsyncClient where
  session : Session
  wire : List UInt8

/-- `land` and the clock of `ingest`, for a read that gave `bytes`. -/
def Session.land (s : Session) (bytes : List UInt8) (now : Instant) : Session :=
  { s with
    decodeBuf := s.decodeBuf ++ bytes
    lastRecv := if bytes.isEmpty then s.lastRecv else now }

namespace AsyncClient

/-- The future's result is `none` once its caller has dropped it. -/
def writeOut (c : AsyncClient) (sending : Sending) (now : Instant) :
    Option (Except SoupBinError Unit) × AsyncClient :=
  match sending with
  | .finished => (some (.ok ()), ⟨c.session.sentAll now, c.wire ++ c.session.out⟩)
  | .failed e written =>
      (some (.error (.transport e)), { c with wire := c.wire ++ c.session.out.take written })
  | .dropped written => (none, { c with wire := c.wire ++ c.session.out.take written })

/-- The wait for the login answer, dropped once the rounds are used up. -/
def login (deadline : Instant) : List Round → Session →
    Option (Except SoupBinError Unit) × Session
  | [], s => (none, s)
  | round :: rounds, s =>
      match s.dispatchLogin round.dispatched with
      | (.error e, s) => (some (.error e), s)
      | (.ok (some (.accepted ..)), s) => (some (.ok ()), s)
      | (.ok (some (.rejected reason)), s) =>
          (some (.error (.loginRejected (Char.ofNat reason.toNat))), s)
      | (.ok none, s) =>
          if deadline ≤ round.checked then (some (.error s.loginTimedOut.1), s.loginTimedOut.2)
          else
            match round.arrival with
            | none => (some (.error s.loginTimedOut.1), s.loginTimedOut.2)
            | some (.error e) => (some (.error (.transport e)), s)
            | some (.ok bytes) => login deadline rounds (s.land bytes round.landed)

/-- The transport goes with the client on an error. -/
def connect (cfg : SoupBinClientConfig) (created now : Instant) (sending : Sending)
    (sent : Instant) (rounds : List Round) : Option (Except SoupBinError AsyncClient) :=
  match (Session.new cfg created).queueLogin now with
  | (.error e, _) => some (.error e)
  | (.ok _, s) =>
      match writeOut ⟨s, []⟩ sending sent with
      | (none, _) => none
      | (some (.error e), _) => some (.error e)
      | (some (.ok _), c) =>
          match login c.session.loginDeadline rounds c.session with
          | (none, _) => none
          | (some (.error e), _) => some (.error e)
          | (some (.ok _), s) => some (.ok { c with session := s })

def ensureOpen (c : AsyncClient) : Except SoupBinError Unit :=
  if c.session.state = .closed then .error .endOfSession else .ok ()

def sendUnsequenced (c : AsyncClient) (payload : List UInt8) (sending : Sending)
    (now : Instant) : Option (Except SoupBinError Unit) × AsyncClient :=
  match c.ensureOpen with
  | .error e => (some (.error e), c)
  | .ok _ =>
      match c.session.queue .unsequencedData payload with
      | (.error e, s) => (some (.error e), { c with session := s })
      | (.ok _, s) => writeOut { c with session := s } sending now

def logout (c : AsyncClient) (sending : Sending) (now : Instant) :
    Option (Except SoupBinError Unit) × AsyncClient :=
  if c.session.state = .closed then (some (.ok ()), c)
  else
    match c.session.queue .logoutRequest [] with
    | (.error e, s) => (some (.error e), { c with session := s })
    | (.ok _, s) =>
        match writeOut { c with session := s } sending now with
        | (some (.ok _), c) => (some (.ok ()), { c with session := c.session.closeLogout })
        | (r, c) => (r, c)

/-- `now` is the clock of the checks, `sent` the clock behind the send. -/
def tickHeartbeat (c : AsyncClient) (now : Instant) (sending : Sending) (sent : Instant) :
    Option (Except SoupBinError (Option SoupBinEvent)) × AsyncClient :=
  match c.ensureOpen with
  | .error e => (some (.error e), c)
  | .ok _ =>
      match c.session.heartbeatTimedOut now with
      | (true, s) => (some (.ok (some .heartbeatTimeout)), { c with session := s })
      | (false, s) =>
          if s.heartbeatDue now then
            match s.queueHeartbeat with
            | (.error e, s) => (some (.error e), { c with session := s })
            | (.ok _, s) =>
                match writeOut { c with session := s } sending sent with
                | (some (.ok _), c) => (some (.ok (some .heartbeatSent)), c)
                | (some (.error e), c) => (some (.error e), c)
                | (none, c) => (none, c)
          else (some (.ok none), { c with session := s })

/-- The loop of `recv` over what arrives while it waits; dropped once that is used up. -/
def recvLoop : List (Except TransportError (List UInt8) × Instant) → Session →
    Option (Except SoupBinError Streamed) × Session
  | arrivals, s =>
      match s.dispatchStream with
      | (.error e, s) => (some (.error e), s)
      | (.ok (some streamed), s) => (some (.ok streamed), s)
      | (.ok none, s) =>
          match arrivals with
          | [] => (none, s)
          | (.error e, _) :: _ => (some (.error (.transport e)), s)
          | (.ok bytes, now) :: arrivals => recvLoop arrivals (s.land bytes now)

def recv (c : AsyncClient) (arrivals : List (Except TransportError (List UInt8) × Instant)) :
    Option (Except SoupBinError SoupBinMessage) × AsyncClient :=
  match c.ensureOpen with
  | .error e => (some (.error e), c)
  | .ok _ =>
      let (r, s) := recvLoop arrivals c.session
      (r.map (Except.map (Streamed.message s)), { c with session := s })

/-! ## What each call does -/

/-- Everything a call can do to the outbound side, with the packet it queues and the end of its
send, if it makes one. -/
inductive Sends (c : AsyncClient) (sending : Option Sending) :
    AsyncClient → List PacketFrame → Prop
  | idle {s : Session} : s.out = c.session.out →
      (c.session.state = .closed → s.state = .closed) → Sends c sending ⟨s, c.wire⟩ []
  | cleared {s : Session} : s.out = [] → s.state = .closed → Sends c sending ⟨s, c.wire⟩ []
  | wrote {s : Session} (p : PacketFrame) (n : ℕ) : c.session.state ≠ .closed →
      s.out = c.session.out ++ p.bytes → sending.bind Sending.written = some n →
      Sends c sending ⟨s, c.wire ++ s.out.take n⟩ [p]
  | finished {s : Session} (p : PacketFrame) : c.session.state ≠ .closed → s.out = [] →
      sending = some .finished → Sends c sending ⟨s, c.wire ++ (c.session.out ++ p.bytes)⟩ [p]

theorem writeOut_sends {c : AsyncClient} {s : Session} {p : PacketFrame}
    (hopen : c.session.state ≠ .closed) (hout : s.out = c.session.out ++ p.bytes)
    (sending : Sending) (now : Instant) :
    c.Sends (some sending) (writeOut ⟨s, c.wire⟩ sending now).2 [p] := by
  cases sending with
  | finished =>
      dsimp only [writeOut]
      rw [hout]
      exact .finished p hopen rfl rfl
  | failed e written => exact .wrote p written hopen hout rfl
  | dropped written => exact .wrote p written hopen hout rfl

/-- What a dispatch leaves of the outbound buffer. -/
theorem dispatchStream_out (s : Session) :
    (s.dispatchStream.2.out = s.out ∧ s.dispatchStream.2.state = s.state) ∨
      (s.dispatchStream.2.out = [] ∧ s.dispatchStream.2.state = .closed ∧
        s.dispatchStream.1 ≠ .ok none) := by
  have heffect := s.dispatchStream_effect
  generalize s.dispatchStream.1 = r at heffect ⊢
  generalize s.dispatchStream.2 = s' at heffect ⊢
  rcases r with e | _ | streamed
  · obtain ⟨-, buf, rfl⟩ := heffect
    exact Or.inl ⟨rfl, rfl⟩
  · obtain ⟨buf, rfl⟩ := heffect
    exact Or.inl ⟨rfl, rfl⟩
  · cases streamed with
    | data sequence =>
        obtain ⟨-, buf, frame, rfl⟩ := heffect
        exact Or.inl ⟨rfl, rfl⟩
    | event ev =>
        cases ev with
        | heartbeatReceived =>
            obtain ⟨buf, rfl⟩ := heffect
            exact Or.inl ⟨rfl, rfl⟩
        | endOfSession =>
            obtain ⟨buf, rfl⟩ := heffect
            exact Or.inr ⟨rfl, rfl, by simp⟩
        | _ => exact heffect.elim

theorem recvLoop_out (arrivals : List (Except TransportError (List UInt8) × Instant)) :
    ∀ s : Session,
      ((recvLoop arrivals s).2.out = s.out ∧ (recvLoop arrivals s).2.state = s.state) ∨
        ((recvLoop arrivals s).2.out = [] ∧ (recvLoop arrivals s).2.state = .closed) := by
  induction arrivals with
  | nil =>
      intro s
      have hout := (dispatchStream_out s).imp_right fun h ↦ And.intro h.1 h.2.1
      unfold recvLoop
      generalize s.dispatchStream = dispatched at hout ⊢
      obtain ⟨e | _ | streamed, s₁⟩ := dispatched <;> exact hout
  | cons arrival arrivals ih =>
      intro s
      have hout := dispatchStream_out s
      unfold recvLoop
      generalize s.dispatchStream = dispatched at hout ⊢
      obtain ⟨e | _ | streamed, s₁⟩ := dispatched
      · exact hout.imp_right fun h ↦ ⟨h.1, h.2.1⟩
      · obtain ⟨hout, hstate⟩ | ⟨-, -, hnone⟩ := hout
        · obtain ⟨e | bytes, now⟩ := arrival
          · exact Or.inl ⟨hout, hstate⟩
          · rcases ih (s₁.land bytes now) with ⟨hout', hstate'⟩ | hcleared
            · exact Or.inl ⟨hout'.trans hout, hstate'.trans hstate⟩
            · exact Or.inr hcleared
        · exact (hnone rfl).elim
      · exact hout.imp_right fun h ↦ ⟨h.1, h.2.1⟩

end AsyncClient

/-! ## The client under a caller -/

inductive AsyncCall where
  | sendUnsequenced (payload : List UInt8) (sending : Sending) (now : Instant)
  | tickHeartbeat (now : Instant) (sending : Sending) (sent : Instant)
  | logout (sending : Sending) (now : Instant)
  | recv (arrivals : List (Except TransportError (List UInt8) × Instant))

/-- How the send of a call ends, if it makes one. -/
def AsyncCall.sending : AsyncCall → Option Sending
  | .sendUnsequenced _ sending _ | .tickHeartbeat _ sending _ | .logout sending _ => some sending
  | .recv _ => none

namespace AsyncClient

def call (c : AsyncClient) : AsyncCall → AsyncClient
  | .sendUnsequenced payload sending now => (c.sendUnsequenced payload sending now).2
  | .tickHeartbeat now sending sent => (c.tickHeartbeat now sending sent).2
  | .logout sending now => (c.logout sending now).2
  | .recv arrivals => (c.recv arrivals).2

/-- The packet a call queues, whatever becomes of its send. -/
def queues (c : AsyncClient) : AsyncCall → List PacketFrame
  | .sendUnsequenced payload .. =>
      if c.session.state ≠ .closed ∧ payload.length ≤ 65534 then [⟨.unsequencedData, payload⟩]
      else []
  | .tickHeartbeat now .. =>
      if c.session.state ≠ .closed ∧ (c.session.heartbeatTimedOut now).1 = false ∧
        c.session.heartbeatDue now then [⟨.clientHeartbeat, []⟩]
      else []
  | .logout .. => if c.session.state ≠ .closed then [⟨.logoutRequest, []⟩] else []
  | .recv _ => []

theorem sends_unchanged (c : AsyncClient) (sending : Option Sending) : c.Sends sending c [] :=
  .idle rfl id

theorem call_sends (c : AsyncClient) (call : AsyncCall) :
    c.Sends call.sending (c.call call) (c.queues call) := by
  by_cases hclosed : c.session.state = .closed
  · have hensure : c.ensureOpen = .error .endOfSession := if_pos hclosed
    cases call with
    | sendUnsequenced payload sending now =>
        simpa [AsyncClient.call, sendUnsequenced, hensure, queues, hclosed]
          using c.sends_unchanged _
    | tickHeartbeat now sending sent =>
        simpa [AsyncClient.call, tickHeartbeat, hensure, queues, hclosed] using c.sends_unchanged _
    | logout sending now =>
        simpa [AsyncClient.call, logout, queues, hclosed] using c.sends_unchanged _
    | recv arrivals =>
        simpa [AsyncClient.call, recv, hensure, queues, hclosed] using c.sends_unchanged _
  · have hensure : c.ensureOpen = .ok () := if_neg hclosed
    cases call with
    | sendUnsequenced payload sending now =>
        by_cases hfits : payload.length ≤ 65534
        · have hqueues : c.queues (.sendUnsequenced payload sending now) =
            [⟨.unsequencedData, payload⟩] := if_pos ⟨hclosed, hfits⟩
          rw [hqueues]
          simp only [AsyncClient.call, sendUnsequenced, hensure, Session.queue_of_le hfits]
          exact writeOut_sends hclosed rfl sending now
        · have hqueues : c.queues (.sendUnsequenced payload sending now) = [] :=
            if_neg fun h ↦ hfits h.2
          rw [hqueues]
          simp only [AsyncClient.call, sendUnsequenced, hensure,
            Session.queue_of_lt (Nat.lt_of_not_le hfits)]
          exact .idle rfl id
    | tickHeartbeat now sending sent =>
        by_cases hlate : now - c.session.lastRecv ≤ c.session.cfg.heartbeatTimeout
        · have hsilent : c.session.heartbeatTimedOut now = (false, c.session) := if_pos hlate
          cases hdue : c.session.heartbeatDue now with
          | true =>
              have hqueues : c.queues (.tickHeartbeat now sending sent) =
                [⟨.clientHeartbeat, []⟩] := if_pos ⟨hclosed, by rw [hsilent], hdue⟩
              have hqueue := @Session.queue_of_le c.session .clientHeartbeat [] (Nat.zero_le _)
              rw [hqueues]
              simp only [AsyncClient.call, tickHeartbeat, hensure, hsilent, hdue, if_pos,
                Session.queueHeartbeat, hqueue]
              cases sending with
              | finished => exact .finished ⟨.clientHeartbeat, []⟩ hclosed rfl rfl
              | failed e written => exact .wrote ⟨.clientHeartbeat, []⟩ written hclosed rfl rfl
              | dropped written => exact .wrote ⟨.clientHeartbeat, []⟩ written hclosed rfl rfl
          | false =>
              have hqueues : c.queues (.tickHeartbeat now sending sent) = [] :=
                if_neg (by simp [hdue])
              rw [hqueues]
              simp only [AsyncClient.call, tickHeartbeat, hensure, hsilent, hdue]
              exact c.sends_unchanged _
        · have hsilent : c.session.heartbeatTimedOut now =
            (true, { c.session with state := .closed, out := [] }) := if_neg hlate
          have hqueues : c.queues (.tickHeartbeat now sending sent) = [] :=
            if_neg (by simp [hsilent])
          rw [hqueues]
          simp only [AsyncClient.call, tickHeartbeat, hensure, hsilent]
          exact .cleared rfl rfl
    | logout sending now =>
        have hqueues : c.queues (.logout sending now) = [⟨.logoutRequest, []⟩] := if_pos hclosed
        have hqueue := @Session.queue_of_le c.session .logoutRequest [] (Nat.zero_le _)
        rw [hqueues]
        simp only [AsyncClient.call, logout, if_neg hclosed, hqueue]
        cases sending with
        | finished => exact .finished ⟨.logoutRequest, []⟩ hclosed rfl rfl
        | failed e written => exact .wrote ⟨.logoutRequest, []⟩ written hclosed rfl rfl
        | dropped written => exact .wrote ⟨.logoutRequest, []⟩ written hclosed rfl rfl
    | recv arrivals =>
        simp only [AsyncClient.call, recv, hensure, queues]
        rcases recvLoop_out arrivals c.session with ⟨hout, hstate⟩ | ⟨hout, hstate⟩
        · exact .idle hout fun h ↦ hstate.trans h
        · exact .cleared hout hstate

/-- A call that queues nothing, or whose send writes nothing, leaves the wire alone. -/
theorem wire_call (c : AsyncClient) {call : AsyncCall}
    (h : c.queues call = [] ∨ call.sending.all Sending.writesNone = true) :
    (c.call call).wire = c.wire := by
  have hsends := c.call_sends call
  generalize c.call call = c' at hsends ⊢
  generalize c.queues call = queued at hsends h
  cases hsends with
  | idle hout hstate => rfl
  | cleared hout hstate => rfl
  | wrote p n hopen hout hends =>
      have hnone := h.resolve_left (List.cons_ne_nil _ _)
      obtain rfl := Sending.written_eq_zero hnone hends
      exact List.append_nil _
  | finished p hopen hout hends =>
      rw [hends] at h
      cases h.resolve_left (List.cons_ne_nil _ _)

/-- A packet whose send failed or was dropped stays queued. -/
theorem pending_of_unfinished (c : AsyncClient) {call : AsyncCall} (hqueues : c.queues call ≠ [])
    (hsending : call.sending ≠ some .finished) : (c.call call).session.out ≠ [] := by
  have hsends := c.call_sends call
  generalize c.call call = c' at hsends ⊢
  generalize c.queues call = queued at hsends hqueues
  cases hsends with
  | idle hout hstate => exact (hqueues rfl).elim
  | cleared hout hstate => exact (hqueues rfl).elim
  | wrote p n hopen hout hends =>
      rw [hout]
      simp [PacketFrame.bytes]
  | finished p hopen hout hends => exact (hsending hends).elim

end AsyncClient

/-- Bytes at the front of `out` that are on the wire behind a call, if `ahead` of them were
before it: what a call writes is a front part of `out`. -/
def AsyncClient.aheadOf (c : AsyncClient) (ahead : ℕ) (c' : AsyncClient) : ℕ :=
  if c'.session.out.isEmpty then 0 else max ahead (c'.wire.length - c.wire.length)

/-- A client with the packets queued since its connection was made, and how many bytes at the
front of `out` are on the wire already. -/
structure Issued where
  client : AsyncClient
  queued : List PacketFrame
  ahead : ℕ

namespace Issued

def next (d : Issued) (call : AsyncCall) : Option Issued :=
  some
    { client := d.client.call call
      queued := d.queued ++ d.client.queues call
      ahead := d.client.aheadOf d.ahead (d.client.call call) }

def machine : Machine Issued AsyncCall := .ofNext next

/-- A client as `connect` returns it. -/
def start (cfg : SoupBinClientConfig) (c : AsyncClient) : Issued where
  client := c
  queued := [⟨.loginRequest, loginRequest cfg⟩]
  ahead := 0

/-- A call that finds none of its buffer on the wire already, queues nothing, or whose send writes
nothing. -/
def Fresh (d : Issued) (call : AsyncCall) : Prop :=
  d.ahead = 0 ∨ d.client.queues call = [] ∨ call.sending.all Sending.writesNone = true

instance (d : Issued) (call : AsyncCall) : Decidable (d.Fresh call) :=
  inferInstanceAs (Decidable (_ ∨ _ ∨ _))

end Issued

/-- The first `ahead` bytes of `out` are the last ones on the wire, and the wire with the rest
of `out` is `bytes`. -/
structure Behind (wire out : List UInt8) (ahead : ℕ) (bytes : List UInt8) : Prop where
  le : ahead ≤ out.length
  written : out.take ahead <:+ wire
  rest : wire ++ out.drop ahead = bytes

namespace Behind

variable {wire out bytes : List UInt8} {ahead : ℕ}

theorem append (h : Behind wire out ahead bytes) (more : List UInt8) :
    Behind wire (out ++ more) ahead (bytes ++ more) := by
  refine ⟨h.le.trans (by simp), ?_, ?_⟩
  · rw [List.take_append_of_le_length h.le]
    exact h.written
  · rw [List.drop_append_of_le_length h.le, ← List.append_assoc, h.rest]

theorem write (h : Behind wire out 0 bytes) (n : ℕ) :
    Behind (wire ++ out.take n) out (out.take n).length bytes := by
  have hrest := h.rest
  rw [List.drop_zero] at hrest
  refine ⟨List.length_take_le' n out, ?_, ?_⟩
  · rw [List.length_take, ← List.take_take, List.take_length]
    exact List.suffix_append _ _
  · rw [List.length_take, List.append_assoc, ← hrest]
    congr 1
    rcases Nat.le_total n out.length with hle | hle
    · rw [Nat.min_eq_left hle, List.take_append_drop]
    · rw [Nat.min_eq_right hle, List.take_of_length_le hle, List.drop_length, List.append_nil]

theorem finish (h : Behind wire out 0 bytes) : Behind (wire ++ out) [] 0 bytes := by
  have hrest := h.rest
  rw [List.drop_zero] at hrest
  exact ⟨le_rfl, List.nil_suffix, by simpa using hrest⟩

end Behind

namespace Issued

/-- The wire and what is still to be written of `out` are the packets queued, unless the
session was closed and dropped what was pending. -/
def Ordered (d : Issued) : Prop :=
  Behind d.client.wire d.client.session.out d.ahead (d.queued.flatMap PacketFrame.bytes) ∨
    (d.client.session.state = .closed ∧ d.client.session.out = [] ∧
      d.client.wire <+: d.queued.flatMap PacketFrame.bytes)

theorem Ordered.isPrefix {d : Issued} (h : d.Ordered) :
    d.client.wire <+: d.queued.flatMap PacketFrame.bytes := by
  rcases h with h | ⟨-, -, h⟩
  · exact ⟨_, h.rest⟩
  · exact h

theorem Ordered.written {d : Issued} (h : d.Ordered) :
    d.client.session.out.take d.ahead <:+ d.client.wire := by
  rcases h with h | ⟨-, hout, -⟩
  · exact h.written
  · simp [hout]

theorem aheadOf_of_wire_eq {c c' : AsyncClient} {ahead : ℕ} (hwire : c'.wire = c.wire)
    (hle : ahead ≤ c'.session.out.length) : c.aheadOf ahead c' = ahead := by
  unfold AsyncClient.aheadOf
  rw [hwire, Nat.sub_self, Nat.max_zero]
  split
  · next hempty =>
      rw [List.isEmpty_iff.mp hempty] at hle
      exact (Nat.le_zero.mp hle).symm
  · rfl

theorem Ordered.next {d d' : Issued} {call : AsyncCall} (h : d.Ordered) (hfresh : d.Fresh call)
    (hnext : d.next call = some d') : d'.Ordered := by
  have hprefix := h.isPrefix
  have hsends := d.client.call_sends call
  cases hnext
  have hfresh := hfresh.imp_right d.client.wire_call
  unfold Ordered
  dsimp only
  generalize d.client.call call = c' at hsends hfresh ⊢
  generalize d.client.queues call = queued at hsends ⊢
  rw [List.flatMap_append]
  cases hsends with
  | @idle s hout hstate =>
      rw [List.flatMap_nil, List.append_nil]
      rcases h with h | ⟨hclosed, hempty, -⟩
      · left
        rw [@aheadOf_of_wire_eq d.client ⟨s, d.client.wire⟩ d.ahead rfl (hout ▸ h.le)]
        exact hout ▸ h
      · exact Or.inr ⟨hstate hclosed, hout.trans hempty, hprefix⟩
  | cleared hout hstate =>
      rw [List.flatMap_nil, List.append_nil]
      exact Or.inr ⟨hstate, hout, hprefix⟩
  | @wrote s p n hopen hout hends =>
      left
      rw [List.flatMap_singleton]
      have hbehind : Behind d.client.wire s.out d.ahead
          (d.queued.flatMap PacketFrame.bytes ++ p.bytes) := by
        rcases h with h | ⟨hclosed, -⟩
        · exact hout ▸ h.append p.bytes
        · exact (hopen hclosed).elim
      rcases hfresh with hzero | hsilent
      · -- the first bytes of `out` go out, and are counted
        have hne : s.out.isEmpty = false := by
          rw [hout]
          simp [PacketFrame.bytes]
        have hahead : d.client.aheadOf d.ahead ⟨s, d.client.wire ++ s.out.take n⟩ =
            (s.out.take n).length := by
          simp [AsyncClient.aheadOf, hne, hzero]
        rw [hahead]
        rw [hzero] at hbehind
        exact hbehind.write n
      · rw [aheadOf_of_wire_eq hsilent hbehind.le]
        exact hsilent.symm ▸ hbehind
  | @finished s p hopen hout hends =>
      left
      rw [List.flatMap_singleton]
      have hbehind : Behind d.client.wire (d.client.session.out ++ p.bytes) d.ahead
          (d.queued.flatMap PacketFrame.bytes ++ p.bytes) := by
        rcases h with h | ⟨hclosed, -⟩
        · exact h.append p.bytes
        · exact (hopen hclosed).elim
      have hzero : d.ahead = 0 := by
        rcases hfresh with hzero | hsilent
        · exact hzero
        · simp [PacketFrame.bytes] at hsilent
      have hahead : d.client.aheadOf d.ahead
          ⟨s, d.client.wire ++ (d.client.session.out ++ p.bytes)⟩ = 0 := by
        simp [AsyncClient.aheadOf, hout]
      rw [hahead, hout]
      rw [hzero] at hbehind
      exact hbehind.finish

end Issued

/-- The wait for the login leaves the outbound buffer alone. -/
theorem AsyncClient.login_out {deadline : Instant} {rounds : List Round} {s s' : Session}
    (h : login deadline rounds s = (some (.ok ()), s')) : s'.out = s.out := by
  induction rounds generalizing s with
  | nil => cases h
  | cons round rounds ih =>
      have heffect := s.dispatchLogin_effect round.dispatched
      unfold login at h
      generalize s.dispatchLogin round.dispatched = dispatched at heffect h
      obtain ⟨e | _ | login, s₁⟩ := dispatched
      · cases h
      · obtain ⟨buf, rfl⟩ := heffect
        dsimp only at h
        split at h
        · cases h
        · split at h
          · cases h
          · cases h
          · have hout := ih h
            exact hout
      · cases login with
        | accepted session sequence =>
            obtain ⟨-, buf, id, rfl⟩ := heffect
            cases h
            rfl
        | rejected reason => cases h

/-- A connection that was made has its login on the wire and nothing pending. -/
theorem AsyncClient.connect_ok {cfg : SoupBinClientConfig} {created now sent : Instant}
    {sending : Sending} {rounds : List Round} {c : AsyncClient}
    (h : connect cfg created now sending sent rounds = some (.ok c)) :
    c.session.out = [] ∧ c.wire = PacketFrame.bytes ⟨.loginRequest, loginRequest cfg⟩ := by
  unfold connect at h
  rw [Session.queueLogin_eq] at h
  cases sending with
  | finished =>
      dsimp only [writeOut] at h
      split at h
      · cases h
      · cases h
      · next s hlogin =>
          cases h
          exact ⟨login_out hlogin, by simp [Session.new]⟩
  | failed e written => cases h
  | dropped written => cases h

namespace Issued

/-- Outbound order of the asynchronous client, as long as no call writes while part of its
buffer is on the wire already: the bytes on the wire are a front part of the packets
queued. -/
theorem async_outbound_in_order {cfg : SoupBinClientConfig} {created now sent : Instant}
    {sending : Sending} {rounds : List Round} {c : AsyncClient} {d : Issued}
    (hconnect : AsyncClient.connect cfg created now sending sent rounds = some (.ok c))
    (hrun : machine.Run Fresh (start cfg c) d) :
    d.client.wire <+: d.queued.flatMap PacketFrame.bytes ∧
      d.client.session.out.take d.ahead <:+ d.client.wire := by
  obtain ⟨hout, hwire⟩ := AsyncClient.connect_ok hconnect
  have hstart : (start cfg c).Ordered := by
    left
    simp only [start, hout, hwire, List.flatMap_singleton]
    exact ⟨le_rfl, List.nil_suffix, by simp⟩
  have hordered : d.Ordered := hrun.invariant hstart fun _ _ _ h hfresh hstep ↦ h.next hfresh hstep
  exact ⟨hordered.isPrefix, hordered.written⟩

/-- A connection whose login answer comes in one read. -/
def sampleConnect : Option (Except SoupBinError AsyncClient) :=
  AsyncClient.connect {} 0 0 .finished 0
    [⟨0, 0, some (.ok (PacketFrame.bytes
      ⟨.loginAccepted, List.replicate 29 ' '.toUInt8 ++ ['5'.toUInt8]⟩)), 0⟩, ⟨0, 0, none, 0⟩]

/-- Calls on that connection, each of them allowed in the state where it is made. -/
def sampleCalls (allowed : Issued → AsyncCall → Prop) [∀ d call, Decidable (allowed d call)]
    (calls : List AsyncCall) : Option Issued :=
  match sampleConnect with
  | some (.ok c) =>
      if Machine.AllowedAlong next allowed (start {} c) calls then
        Machine.follow next (start {} c) calls
      else none
  | _ => none

/-- A send that fails before its first byte is made up for by the next one, and one that is
dropped behind two bytes is the last. -/
theorem async_outbound_in_order_unwritten :
    ∃ d ∈ sampleCalls Fresh
        [.sendUnsequenced [1, 2] (.failed .peerClosed 0) 0, .sendUnsequenced [3] .finished 0,
          .logout (.dropped 2) 0],
      d.client.wire.length = 60 ∧ d.ahead = 2 ∧
      d.client.wire <+: d.queued.flatMap PacketFrame.bytes := by
  have hend : ∃ d ∈ sampleCalls Fresh
        [.sendUnsequenced [1, 2] (.failed .peerClosed 0) 0, .sendUnsequenced [3] .finished 0,
          .logout (.dropped 2) 0],
      d.client.wire.length = 60 ∧ d.ahead = 2 := by decide +kernel
  obtain ⟨d, hd, hlength, hahead⟩ := hend
  refine ⟨d, hd, hlength, hahead, ?_⟩
  unfold sampleCalls at hd
  split at hd
  · next c hconnect =>
      split at hd
      · next hallowed => exact (async_outbound_in_order hconnect (.of_follow hallowed hd)).1
      · cases hd
  · cases hd

/-- A send that fails behind three bytes: the next call sends them again. -/
theorem resent_after_partial_write :
    ∃ d ∈ sampleCalls (fun _ _ ↦ True)
        [.sendUnsequenced [1, 2] (.failed .peerClosed 3) 0, .sendUnsequenced [3] .finished 0],
      ¬ d.client.wire <+: d.queued.flatMap PacketFrame.bytes := by
  decide +kernel

end Issued

end SoupBin
