import PolarisTrade.SoupBin.Async
import PolarisTrade.SoupBin.Resume

/-!
# Inbound side of the asynchronous client

`connect`, `recv` and `recv_managed` read the same session as the synchronous driver.  However
the bytes arrive and wherever a caller drops the future it waits on, what the calls answer is a
front part of the decoding of the bytes landed so far, and all of it where a call was dropped
while it waited.  `recv_managed` selects between bytes and a timer that fires at
`next_deadline` or later; a heartbeat goes out there only if nothing is left over from a send
that was cut short.
-/

namespace SoupBin

open Transport Word

/-- What wakes `recv_managed`: `ready` and what the read then gave, or the timer, some time behind
the deadline, and how the send of a heartbeat ends. -/
inductive Wake where
  | ready (arrival : Except TransportError (List UInt8)) (now : Instant)
  | elapsed (late : ℕ) (sending : Sending) (sent : Instant)

namespace AsyncClient

/-- The loop of `recv_managed`; dropped once nothing wakes it any more. -/
def recvManagedLoop : List Wake → AsyncClient →
    Option (Except SoupBinError SoupBinMessage) × AsyncClient
  | wakes, c =>
      match c.session.dispatchStream with
      | (.error e, s) => (some (.error e), { c with session := s })
      | (.ok (some streamed), s) => (some (.ok (streamed.message s)), { c with session := s })
      | (.ok none, s) =>
          match wakes with
          | [] => (none, { c with session := s })
          | .ready (.error e) _ :: _ => (some (.error (.transport e)), { c with session := s })
          | .ready (.ok bytes) now :: wakes =>
              recvManagedLoop wakes { c with session := s.land bytes now }
          | .elapsed late sending sent :: wakes =>
              match tickHeartbeat { c with session := s } (s.nextDeadline + late) sending sent with
              | (none, c) => (none, c)
              | (some (.error e), c) => (some (.error e), c)
              | (some (.ok (some .heartbeatTimeout)), c) =>
                  (some (.ok (.event .heartbeatTimeout)), c)
              | (some (.ok _), c) => recvManagedLoop wakes c

def recvManaged (c : AsyncClient) (wakes : List Wake) :
    Option (Except SoupBinError SoupBinMessage) × AsyncClient :=
  match c.ensureOpen with
  | .error e => (some (.error e), c)
  | .ok _ => recvManagedLoop wakes c

/-! ## Bytes a call lands -/

def loginLanded (deadline : Instant) : List Round → Session → List UInt8
  | [], _ => []
  | round :: rounds, s =>
      match s.dispatchLogin round.dispatched with
      | (.ok none, s) =>
          if deadline ≤ round.checked then []
          else
            match round.arrival with
            | some (.ok bytes) => bytes ++ loginLanded deadline rounds (s.land bytes round.landed)
            | _ => []
      | _ => []

def recvLanded : List (Except TransportError (List UInt8) × Instant) → Session → List UInt8
  | [], _ => []
  | (arrival, now) :: arrivals, s =>
      match s.dispatchStream with
      | (.ok none, s) =>
          match arrival with
          | .error _ => []
          | .ok bytes => bytes ++ recvLanded arrivals (s.land bytes now)
      | _ => []

def managedLanded : List Wake → AsyncClient → List UInt8
  | [], _ => []
  | wake :: wakes, c =>
      match c.session.dispatchStream with
      | (.ok none, s) =>
          match wake with
          | .ready (.error _) _ => []
          | .ready (.ok bytes) now =>
              bytes ++ managedLanded wakes { c with session := s.land bytes now }
          | .elapsed late sending sent =>
              match tickHeartbeat { c with session := s } (s.nextDeadline + late) sending sent with
              | (some (.ok (some .heartbeatTimeout)), _) => []
              | (some (.ok _), c) => managedLanded wakes c
              | _ => []
      | _ => []

end AsyncClient

/-! ## Reading on -/

namespace Session

/-- With `bytes` landed behind the buffer of `s`, the outcomes `os` come next and what is ahead
of `s'` behind them. -/
structure Splits (s : Session) (bytes : List UInt8) (os : List Outcome) (s' : Session) : Prop where
  maxFrameSize : s'.cfg.maxFrameSize = s.cfg.maxFrameSize
  splits : ∀ before tail, upToFinal (before ++ s.ahead (bytes ++ tail)) =
    upToFinal (before ++ os ++ s'.ahead tail)

variable {s s' s'' : Session} {bytes bytes' : List UInt8} {os os' : List Outcome}

theorem Splits.trans (h : s.Splits bytes os s') (h' : s'.Splits bytes' os' s'') :
    s.Splits (bytes ++ bytes') (os ++ os') s'' := by
  refine ⟨h'.maxFrameSize.trans h.maxFrameSize, fun before tail ↦ ?_⟩
  rw [List.append_assoc, h.splits, h'.splits, List.append_assoc before]

theorem Reads.splits_toList {answer : Except SoupBinError (Option SoupBinMessage)}
    (h : s.Reads bytes answer s') : s.Splits bytes (inbound answer).toList s' :=
  ⟨h.maxFrameSize, h.splits⟩

theorem splits_land (s : Session) (bytes : List UInt8) (now : Instant) :
    s.Splits bytes [] (s.land bytes now) := by
  refine ⟨rfl, fun before tail ↦ ?_⟩
  have hahead : s.ahead (bytes ++ tail) = (s.land bytes now).ahead tail := by
    unfold ahead
    rw [← List.append_assoc]
    rfl
  rw [hahead, List.append_nil]

/-- The inbound side of a session: a call that sends may close it, and changes nothing else. -/
structure Aside (s s' : Session) : Prop where
  cfg : s'.cfg = s.cfg
  decodeBuf : s'.decodeBuf = s.decodeBuf
  next : s'.nextExpectedSequence = s.nextExpectedSequence
  state : s'.state = s.state ∨ s'.state = .closed

theorem Aside.refl (s : Session) : s.Aside s := ⟨rfl, rfl, rfl, Or.inl rfl⟩

theorem Aside.ahead_eq (h : s.Aside s') (hopen : s'.state ≠ .closed) : s'.ahead = s.ahead := by
  funext tail
  unfold ahead phase
  rw [h.cfg, h.decodeBuf, h.next, h.state.resolve_right hopen]

theorem Aside.splits (h : s.Aside s') (hopen : s'.state ≠ .closed) : s.Splits [] [] s' := by
  refine ⟨by rw [h.cfg], fun before tail ↦ ?_⟩
  rw [h.ahead_eq hopen, List.append_nil, List.nil_append]

theorem Aside.drained (h : s.Aside s') (hdrained : s.Drained) : s'.Drained := by
  unfold Drained
  rwa [h.cfg, h.decodeBuf]

theorem reads_dispatchStream (hstate : s.state = .streaming) :
    s.Reads [] (s.dispatchStream.1.map (Option.map (Streamed.message s.dispatchStream.2)))
      s.dispatchStream.2 :=
  s.dispatchStream_dispatched.reads streamPacket_follows (by simp) hstate

theorem reads_dispatchLogin (hstate : s.state = .authenticating) (now : Instant) :
    s.Reads [] ((s.dispatchLogin now).1.map (Option.map fun login ↦ .event login.event))
      (s.dispatchLogin now).2 :=
  (s.dispatchLogin_dispatched now).reads (loginPacket_follows now) (by simp) hstate

end Session

namespace AsyncClient

/-! ## Calls that send -/

theorem writeOut_aside (c : AsyncClient) (sending : Sending) (now : Instant) :
    c.session.Aside (c.writeOut sending now).2.session := by
  cases sending <;> exact ⟨rfl, rfl, rfl, Or.inl rfl⟩

/-- The heartbeat tick of an open session: silence closes it, a heartbeat that is due is
written behind an empty buffer, and otherwise nothing happens. -/
theorem tickHeartbeat_cases {c : AsyncClient} (hopen : c.session.state ≠ .closed) (now : Instant)
    (sending : Sending) (sent : Instant) :
    (c.session.cfg.heartbeatTimeout < now - c.session.lastRecv ∧
      c.tickHeartbeat now sending sent = (some (.ok (some .heartbeatTimeout)),
        { c with session := { c.session with state := .closed, out := [] } })) ∨
    (c.session.out = [] ∧ c.session.cfg.heartbeatInterval < now - c.session.lastSend ∧
      ∃ c₁ : AsyncClient, c₁ =
          { c with session := { c.session with out := PacketFrame.bytes ⟨.clientHeartbeat, []⟩ } } ∧
        c.tickHeartbeat now sending sent =
          ((c₁.writeOut sending sent).1.map (Except.map fun _ ↦ some .heartbeatSent),
            (c₁.writeOut sending sent).2)) ∨
    (now - c.session.lastRecv ≤ c.session.cfg.heartbeatTimeout ∧
      (c.session.out = [] → now - c.session.lastSend ≤ c.session.cfg.heartbeatInterval) ∧
      c.tickHeartbeat now sending sent = (some (.ok none), c)) := by
  have hensure : c.ensureOpen = .ok () := if_neg hopen
  by_cases hlate : now - c.session.lastRecv ≤ c.session.cfg.heartbeatTimeout
  · have hsilent : c.session.heartbeatTimedOut now = (false, c.session) := if_pos hlate
    by_cases hdue : c.session.heartbeatDue now = true
    · obtain ⟨hempty, hlong⟩ := (Bool.and_eq_true _ _).mp hdue
      have hout := List.isEmpty_iff.mp hempty
      have hqueue := @Session.queue_of_le c.session .clientHeartbeat [] (Nat.zero_le _)
      refine Or.inr (Or.inl ⟨hout, of_decide_eq_true hlong, _, rfl, ?_⟩)
      simp only [tickHeartbeat, hensure, hsilent, hdue, if_pos, Session.queueHeartbeat, hqueue,
        hout, List.nil_append]
      cases sending <;> rfl
    · have hidle : c.session.out = [] →
          now - c.session.lastSend ≤ c.session.cfg.heartbeatInterval := by
        intro hout
        rw [Session.heartbeatDue, hout, List.isEmpty_nil, Bool.true_and, decide_eq_true_eq] at hdue
        exact Nat.le_of_not_lt hdue
      refine Or.inr (Or.inr ⟨hlate, hidle, ?_⟩)
      simp only [tickHeartbeat, hensure, hsilent, if_neg hdue]
  · have hsilent : c.session.heartbeatTimedOut now =
        (true, { c.session with state := .closed, out := [] }) := if_neg hlate
    refine Or.inl ⟨Nat.lt_of_not_le hlate, ?_⟩
    simp only [tickHeartbeat, hensure, hsilent]

theorem ensureOpen_of_closed {c : AsyncClient} (h : c.session.state = .closed) :
    c.ensureOpen = .error .endOfSession := if_pos h

theorem ensureOpen_of_open {c : AsyncClient} (h : c.session.state ≠ .closed) :
    c.ensureOpen = .ok () := if_neg h

theorem tickHeartbeat_aside (c : AsyncClient) (now : Instant) (sending : Sending)
    (sent : Instant) : c.session.Aside (c.tickHeartbeat now sending sent).2.session := by
  by_cases hclosed : c.session.state = .closed
  · rw [tickHeartbeat, ensureOpen_of_closed hclosed]
    exact .refl _
  · rcases tickHeartbeat_cases hclosed now sending sent with
      ⟨-, htick⟩ | ⟨-, -, c₁, rfl, htick⟩ | ⟨-, -, htick⟩
    · rw [htick]
      exact ⟨rfl, rfl, rfl, Or.inr rfl⟩
    · rw [htick]
      obtain ⟨hcfg, hbuf, hnext, hstate⟩ := writeOut_aside { c with
        session := { c.session with out := PacketFrame.bytes ⟨.clientHeartbeat, []⟩ } } sending sent
      exact ⟨hcfg, hbuf, hnext, hstate⟩
    · rw [htick]
      exact .refl _

theorem sendUnsequenced_aside (c : AsyncClient) (payload : List UInt8) (sending : Sending)
    (now : Instant) : c.session.Aside (c.sendUnsequenced payload sending now).2.session := by
  by_cases hclosed : c.session.state = .closed
  · rw [sendUnsequenced, ensureOpen_of_closed hclosed]
    exact .refl _
  · rw [sendUnsequenced, ensureOpen_of_open hclosed]
    dsimp only
    by_cases hfits : payload.length ≤ 65534
    · rw [Session.queue_of_le hfits]
      obtain ⟨hcfg, hbuf, hnext, hstate⟩ := writeOut_aside { c with session := { c.session with
        out := c.session.out ++ PacketFrame.bytes ⟨.unsequencedData, payload⟩ } } sending now
      exact ⟨hcfg, hbuf, hnext, hstate⟩
    · rw [Session.queue_of_lt (Nat.lt_of_not_le hfits)]
      exact .refl _

theorem logout_aside (c : AsyncClient) (sending : Sending) (now : Instant) :
    c.session.Aside (c.logout sending now).2.session := by
  unfold logout
  by_cases hclosed : c.session.state = .closed
  · rw [if_pos hclosed]
    exact .refl _
  · rw [if_neg hclosed, Session.queue_of_le (Nat.zero_le _)]
    cases sending with
    | finished => exact ⟨rfl, rfl, rfl, Or.inr rfl⟩
    | failed e written => exact ⟨rfl, rfl, rfl, Or.inl rfl⟩
    | dropped written => exact ⟨rfl, rfl, rfl, Or.inl rfl⟩

/-! ## Calls that receive -/

/-- The answer of a call as one of `poll`: a dropped call has found nothing. -/
def settled : Option (Except SoupBinError SoupBinMessage) →
    Except SoupBinError (Option SoupBinMessage)
  | none => .ok none
  | some (.ok m) => .ok (some m)
  | some (.error e) => .error e

/-- The inbound part of an answer. -/
def outcomes (r : Option (Except SoupBinError SoupBinMessage)) : List Outcome :=
  (inbound (settled r)).toList

/-- What a receiving call does on the inbound side: it reads on, unless a timer closes the
session behind what was read, and nothing is left in the buffer where it was dropped. -/
structure Gives (c : AsyncClient) (bytes : List UInt8)
    (r : Option (Except SoupBinError SoupBinMessage)) (c' : AsyncClient) : Prop where
  reads : ∃ s, c.session.Splits bytes (outcomes r) s ∧
    (c'.session.state ≠ .closed → c'.session.ahead = s.ahead)
  maxFrameSize : c'.session.cfg.maxFrameSize = c.session.cfg.maxFrameSize
  started : c'.session.state = .streaming ∨ c'.session.state = .closed
  waits : r = none → c'.session.Drained

variable {c c₁ c' : AsyncClient} {bytes more : List UInt8}
  {r : Option (Except SoupBinError SoupBinMessage)}

theorem Gives.of_splits (h : c.session.Splits bytes (outcomes r) c'.session)
    (hstarted : c'.session.state = .streaming ∨ c'.session.state = .closed)
    (hwaits : r = none → c'.session.Drained) : c.Gives bytes r c' :=
  ⟨⟨_, h, fun _ ↦ rfl⟩, h.maxFrameSize, hstarted, hwaits⟩

theorem Gives.answered {r : Except SoupBinError SoupBinMessage}
    (h : c.session.Splits bytes (outcomes (some r)) c'.session)
    (hstarted : c'.session.state = .streaming ∨ c'.session.state = .closed) :
    c.Gives bytes (some r) c' := by
  apply Gives.of_splits h hstarted
  intro hnone
  cases hnone

/-- A round that found nothing, and the rounds behind it. -/
theorem Gives.cons (c₁ : AsyncClient) (hround : c.session.Splits bytes [] c₁.session)
    (h : c₁.Gives more r c') : c.Gives (bytes ++ more) r c' := by
  obtain ⟨⟨s, hs, hahead⟩, hmax, hstarted, hwaits⟩ := h
  exact ⟨⟨s, hround.trans hs, hahead⟩, hmax.trans hround.maxFrameSize, hstarted, hwaits⟩

/-- A dispatch that found nothing leaves a streaming session with nothing to decode. -/
theorem waiting_of_dispatch {s s₁ : Session} (hstate : s.state = .streaming)
    (hd : s.dispatchStream = (.ok none, s₁)) :
    s.Splits [] [] s₁ ∧ s₁.state = .streaming ∧ s₁.Drained := by
  have hreads := Session.reads_dispatchStream hstate
  rw [hd] at hreads
  obtain ⟨hstate₁, hdrained⟩ := hreads.waits rfl
  exact ⟨hreads.splits_toList, hstate₁.trans hstate, hdrained⟩

theorem started_of_dispatch {s : Session} (hstate : s.state = .streaming) :
    s.dispatchStream.2.state = .streaming ∨ s.dispatchStream.2.state = .closed :=
  (dispatchStream_out s).imp (fun h ↦ h.2.trans hstate) fun h ↦ h.2.1

theorem recvLoop_gives (wire : List UInt8)
    (arrivals : List (Except TransportError (List UInt8) × Instant)) :
    ∀ s : Session, s.state = .streaming →
      Gives ⟨s, wire⟩ (recvLanded arrivals s)
        ((recvLoop arrivals s).1.map (Except.map (Streamed.message (recvLoop arrivals s).2)))
        ⟨(recvLoop arrivals s).2, wire⟩ := by
  induction arrivals with
  | nil =>
      intro s hstate
      have hreads := Session.reads_dispatchStream hstate
      have hstarted := started_of_dispatch hstate
      unfold recvLoop
      rcases hd : s.dispatchStream with ⟨e | _ | streamed, s₁⟩
      · rw [hd] at hreads hstarted
        exact .answered hreads.splits_toList hstarted
      · obtain ⟨hsplits, hstate₁, hdrained⟩ := waiting_of_dispatch hstate hd
        exact .of_splits hsplits (Or.inl hstate₁) fun _ ↦ hdrained
      · rw [hd] at hreads hstarted
        exact .answered hreads.splits_toList hstarted
  | cons arrival arrivals ih =>
      intro s hstate
      have hreads := Session.reads_dispatchStream hstate
      have hstarted := started_of_dispatch hstate
      obtain ⟨arrival, now⟩ := arrival
      unfold recvLoop recvLanded
      rcases hd : s.dispatchStream with ⟨e | _ | streamed, s₁⟩
      · rw [hd] at hreads hstarted
        exact .answered hreads.splits_toList hstarted
      · obtain ⟨hsplits, hstate₁, -⟩ := waiting_of_dispatch hstate hd
        cases arrival with
        | error e => exact .answered hsplits (Or.inl hstate₁)
        | ok bytes =>
            have hland := hsplits.trans (s₁.splits_land bytes now)
            exact .cons ⟨s₁.land bytes now, wire⟩ hland (ih _ hstate₁)
      · rw [hd] at hreads hstarted
        exact .answered hreads.splits_toList hstarted

/-- Bytes a call of `recv` lands. -/
def landedByRecv (c : AsyncClient)
    (arrivals : List (Except TransportError (List UInt8) × Instant)) : List UInt8 :=
  if c.session.state = .closed then [] else recvLanded arrivals c.session

def landedByManaged (c : AsyncClient) (wakes : List Wake) : List UInt8 :=
  if c.session.state = .closed then [] else managedLanded wakes c

theorem recvManagedLoop_gives (wakes : List Wake) :
    ∀ c : AsyncClient, c.session.state = .streaming →
      c.Gives (managedLanded wakes c) (recvManagedLoop wakes c).1 (recvManagedLoop wakes c).2 := by
  induction wakes with
  | nil =>
      intro c hstate
      have hreads := Session.reads_dispatchStream hstate
      have hstarted := started_of_dispatch hstate
      unfold recvManagedLoop
      rcases hd : c.session.dispatchStream with ⟨e | _ | streamed, s₁⟩
      · rw [hd] at hreads hstarted
        exact .answered hreads.splits_toList hstarted
      · obtain ⟨hsplits, hstate₁, hdrained⟩ := waiting_of_dispatch hstate hd
        exact .of_splits hsplits (Or.inl hstate₁) fun _ ↦ hdrained
      · rw [hd] at hreads hstarted
        exact .answered hreads.splits_toList hstarted
  | cons wake wakes ih =>
      intro c hstate
      have hreads := Session.reads_dispatchStream hstate
      have hstarted := started_of_dispatch hstate
      unfold recvManagedLoop managedLanded
      rcases hd : c.session.dispatchStream with ⟨e | _ | streamed, s₁⟩
      · rw [hd] at hreads hstarted
        exact .answered hreads.splits_toList hstarted
      · obtain ⟨hsplits, hstate₁, hdrained⟩ := waiting_of_dispatch hstate hd
        cases wake with
        | ready arrival now =>
            cases arrival with
            | error e => exact .answered hsplits (Or.inl hstate₁)
            | ok bytes =>
                have hland := hsplits.trans (s₁.splits_land bytes now)
                exact .cons ⟨s₁.land bytes now, c.wire⟩ hland (ih _ hstate₁)
        | elapsed late sending sent =>
            have hopen : s₁.state ≠ .closed := by simp [hstate₁]
            dsimp only
            rcases @tickHeartbeat_cases ⟨s₁, c.wire⟩ hopen (s₁.nextDeadline + late) sending sent
              with ⟨-, htick⟩ | ⟨-, -, c₁, rfl, htick⟩ | ⟨-, -, htick⟩
            · rw [htick]
              exact ⟨⟨s₁, hsplits, fun hopen' ↦ (hopen' rfl).elim⟩, hsplits.maxFrameSize,
                Or.inr rfl, nofun⟩
            · rw [htick]
              -- the heartbeat changes the outbound side alone
              have haside : ∀ out lastSend,
                  s₁.Aside { s₁ with out := out, lastSend := lastSend } :=
                fun _ _ ↦ ⟨rfl, rfl, rfl, Or.inl rfl⟩
              cases sending with
              | finished =>
                  have hsent := hsplits.trans ((haside [] sent).splits hopen)
                  exact .cons ⟨{ s₁ with out := [], lastSend := sent }, _⟩ hsent
                    (ih _ hstate₁)
              | failed e written =>
                  exact .answered (hsplits.trans ((haside _ s₁.lastSend).splits hopen))
                    (Or.inl hstate₁)
              | dropped written =>
                  exact .of_splits (hsplits.trans ((haside _ s₁.lastSend).splits hopen))
                    (Or.inl hstate₁) fun _ ↦ (haside _ s₁.lastSend).drained hdrained
            · rw [htick]
              exact .cons ⟨s₁, c.wire⟩ hsplits (ih _ hstate₁)
      · rw [hd] at hreads hstarted
        exact .answered hreads.splits_toList hstarted

theorem recv_gives (hstate : c.session.state = .streaming)
    (arrivals : List (Except TransportError (List UInt8) × Instant)) :
    c.Gives (c.landedByRecv arrivals) (c.recv arrivals).1 (c.recv arrivals).2 := by
  have hopen : c.session.state ≠ .closed := by simp [hstate]
  rw [recv, ensureOpen_of_open hopen, landedByRecv, if_neg hopen]
  exact recvLoop_gives c.wire arrivals c.session hstate

theorem recvManaged_gives (hstate : c.session.state = .streaming) (wakes : List Wake) :
    c.Gives (c.landedByManaged wakes) (c.recvManaged wakes).1 (c.recvManaged wakes).2 := by
  have hopen : c.session.state ≠ .closed := by simp [hstate]
  rw [recvManaged, ensureOpen_of_open hopen, landedByManaged, if_neg hopen]
  exact recvManagedLoop_gives wakes c hstate

/-! ## The login -/

/-- A login that succeeds has read the packet that accepts it. -/
theorem login_splits {deadline : Instant} {rounds : List Round} {s s' : Session}
    (hstate : s.state = .authenticating)
    (h : login deadline rounds s = (some (.ok ()), s')) :
    s'.state = .streaming ∧ ∃ session, s.Splits (loginLanded deadline rounds s)
      [.ok (.event (.loginAccepted session s'.nextExpectedSequence))] s' := by
  induction rounds generalizing s with
  | nil => cases h
  | cons round rounds ih =>
      have hreads := Session.reads_dispatchLogin hstate round.dispatched
      have heffect := s.dispatchLogin_effect round.dispatched
      unfold login at h
      unfold loginLanded
      rcases hd : s.dispatchLogin round.dispatched with ⟨e | _ | login, s₁⟩
      · rw [hd] at h
        cases h
      · rw [hd] at h hreads
        obtain ⟨hstate₁, -⟩ := hreads.waits rfl
        dsimp only at h ⊢
        by_cases hlate : deadline ≤ round.checked
        · rw [if_pos hlate] at h
          cases h
        · rw [if_neg hlate] at h ⊢
          rcases harrival : round.arrival with _ | e | bytes
          · rw [harrival] at h
            cases h
          · rw [harrival] at h
            cases h
          · rw [harrival] at h
            obtain ⟨hstate', session, hsplits⟩ :=
              @ih (s₁.land bytes round.landed) (hstate₁.trans hstate) h
            refine ⟨hstate', session, ?_⟩
            have hland := hreads.splits_toList.trans (s₁.splits_land bytes round.landed)
            exact hland.trans hsplits
      · rw [hd] at h hreads heffect
        cases login with
        | accepted session sequence =>
            cases h
            obtain ⟨-, buf, id, rfl⟩ := heffect
            exact ⟨rfl, session, hreads.splits_toList⟩
        | rejected reason => cases h

/-- The session that waits for the login, once the request is written. -/
def loggingIn (cfg : SoupBinClientConfig) (created now sent : Instant) : Session :=
  ((Session.new cfg created).queueLogin now).2.sentAll sent

/-- Bytes that `connect` lands. -/
def connectLanded (cfg : SoupBinClientConfig) (created now sent : Instant)
    (rounds : List Round) : List UInt8 :=
  loginLanded (now + cfg.loginTimeout) rounds (loggingIn cfg created now sent)

theorem connect_splits {cfg : SoupBinClientConfig} {created now sent : Instant}
    {sending : Sending} {rounds : List Round}
    (h : connect cfg created now sending sent rounds = some (.ok c)) :
    c.session.state = .streaming ∧ ∃ session,
      (loggingIn cfg created now sent).Splits (connectLanded cfg created now sent rounds)
        [.ok (.event (.loginAccepted session c.session.nextExpectedSequence))] c.session := by
  unfold connectLanded loggingIn
  unfold connect at h
  rw [Session.queueLogin_eq] at h ⊢
  cases sending with
  | finished =>
      dsimp only [writeOut] at h
      split at h
      · cases h
      · cases h
      · next s hlogin =>
          cases h
          exact login_splits rfl hlogin
  | failed e written => cases h
  | dropped written => cases h

end AsyncClient

/-! ## Whole runs -/

inductive ManagedCall where
  | plain (call : AsyncCall)
  | recvManaged (wakes : List Wake)

/-- A client with the bytes it has landed and what the receiving calls answered, `none` for
one that was dropped. -/
structure Heard where
  client : AsyncClient
  received : List UInt8
  results : List (Option (Except SoupBinError SoupBinMessage))

namespace Heard

def next (h : Heard) : ManagedCall → Option Heard
  | .plain (.recv arrivals) =>
      some
        { client := (h.client.recv arrivals).2
          received := h.received ++ h.client.landedByRecv arrivals
          results := h.results ++ [(h.client.recv arrivals).1] }
  | .plain call => some { h with client := h.client.call call }
  | .recvManaged wakes =>
      some
        { client := (h.client.recvManaged wakes).2
          received := h.received ++ h.client.landedByManaged wakes
          results := h.results ++ [(h.client.recvManaged wakes).1] }

def machine : Machine Heard ManagedCall := .ofNext next

/-- A client as `connect` returns it, with the bytes that call has landed. -/
def start (landed : List UInt8) (c : AsyncClient) : Heard := ⟨c, landed, []⟩

/-- The inbound answers so far. -/
def trace (h : Heard) : List Outcome := h.results.flatMap AsyncClient.outcomes

/-- The answers behind a login against the decoding of the bytes received. -/
structure Hears (maxFrameSize : ℕ) (login : Outcome) (h : Heard) : Prop where
  size : h.client.session.cfg.maxFrameSize = maxFrameSize
  started : h.client.session.state ≠ .authenticating
  reads : ∃ ahead, (∀ tail, upToFinal (login :: h.trace ++ ahead tail) =
      decode maxFrameSize (h.received ++ tail)) ∧
    (h.client.session.state ≠ .closed → h.client.session.ahead = ahead)
  waits : h.results.getLast? = some none → h.client.session.Drained

variable {maxFrameSize : ℕ} {login : Outcome} {h h' : Heard}

theorem Hears.keep {c : AsyncClient} (hears : h.Hears maxFrameSize login)
    (haside : h.client.session.Aside c.session) :
    Hears maxFrameSize login { h with client := c } := by
  obtain ⟨ahead, hahead, hlive⟩ := hears.reads
  refine ⟨by rw [haside.cfg, hears.size], ?_, ⟨ahead, hahead, fun hopen ↦ ?_⟩,
    fun hlast ↦ haside.drained (hears.waits hlast)⟩
  · rcases haside.state with hstate | hstate
    · rw [hstate]
      exact hears.started
    · simp [hstate]
  · have hopen' : h.client.session.state ≠ .closed := by
      rcases haside.state with hstate | hstate
      · rwa [← hstate]
      · exact (hopen hstate).elim
    rw [haside.ahead_eq hopen, hlive hopen']

/-- A receiving call of an open session. -/
theorem Hears.gives {c : AsyncClient} {bytes : List UInt8}
    {r : Option (Except SoupBinError SoupBinMessage)} (hears : h.Hears maxFrameSize login)
    (hopen : h.client.session.state ≠ .closed) (hgives : h.client.Gives bytes r c) :
    Hears maxFrameSize login ⟨c, h.received ++ bytes, h.results ++ [r]⟩ := by
  obtain ⟨ahead, hahead, hlive⟩ := hears.reads
  obtain ⟨⟨s, hsplits, hs⟩, hmax, hstarted, hwaits⟩ := hgives
  refine ⟨hmax.trans hears.size, ?_, ⟨s.ahead, fun tail ↦ ?_, hs⟩, fun hlast ↦ ?_⟩
  · rcases hstarted with hstate | hstate <;> simp [hstate]
  · have hread := hsplits.splits (login :: h.trace) tail
    rw [hlive hopen, hahead, ← List.append_assoc] at hread
    rw [hread, trace, trace, List.flatMap_append, List.flatMap_singleton]
    simp
  · exact hwaits (by simpa using hlast)

/-- A receiving call of a closed session. -/
theorem Hears.over (hears : h.Hears maxFrameSize login) :
    Hears maxFrameSize login
      ⟨h.client, h.received ++ [], h.results ++ [some (.error .endOfSession)]⟩ := by
  obtain ⟨ahead, hahead, hlive⟩ := hears.reads
  refine ⟨hears.size, hears.started, ⟨ahead, fun tail ↦ ?_, hlive⟩, fun hlast ↦ ?_⟩
  · rw [List.append_nil, ← hahead tail, trace, trace, List.flatMap_append, List.flatMap_singleton]
    simp [AsyncClient.outcomes, AsyncClient.settled, inbound, SoupBinError.IsProtocol]
  · simp at hlast

theorem Hears.streaming (hears : h.Hears maxFrameSize login)
    (hopen : h.client.session.state ≠ .closed) : h.client.session.state = .streaming := by
  cases hstate : h.client.session.state with
  | authenticating => exact (hears.started hstate).elim
  | streaming => rfl
  | closed => exact (hopen hstate).elim

theorem Hears.next {call : ManagedCall} (hears : h.Hears maxFrameSize login)
    (hnext : h.next call = some h') : h'.Hears maxFrameSize login := by
  cases call with
  | plain call =>
      cases call with
      | sendUnsequenced payload sending now =>
          cases hnext
          exact hears.keep (h.client.sendUnsequenced_aside payload sending now)
      | tickHeartbeat now sending sent =>
          cases hnext
          exact hears.keep (h.client.tickHeartbeat_aside now sending sent)
      | logout sending now =>
          cases hnext
          exact hears.keep (h.client.logout_aside sending now)
      | recv arrivals =>
          cases hnext
          by_cases hclosed : h.client.session.state = .closed
          · rw [AsyncClient.recv, AsyncClient.ensureOpen_of_closed hclosed,
              AsyncClient.landedByRecv, if_pos hclosed]
            exact hears.over
          · exact hears.gives hclosed (AsyncClient.recv_gives (hears.streaming hclosed) arrivals)
  | recvManaged wakes =>
      cases hnext
      by_cases hclosed : h.client.session.state = .closed
      · rw [AsyncClient.recvManaged, AsyncClient.ensureOpen_of_closed hclosed,
          AsyncClient.landedByManaged, if_pos hclosed]
        exact hears.over
      · exact hears.gives hclosed (AsyncClient.recvManaged_gives (hears.streaming hclosed) wakes)

variable {cfg : SoupBinClientConfig} {created now sent : Instant} {sending : Sending}
  {rounds : List Round} {c : AsyncClient}

theorem hears_of_run
    (hconnect : AsyncClient.connect cfg created now sending sent rounds = some (.ok c))
    (hrun : machine.Run (fun _ _ ↦ True)
      (start (AsyncClient.connectLanded cfg created now sent rounds) c) h) :
    ∃ session, h.Hears cfg.maxFrameSize
      (.ok (.event (.loginAccepted session c.session.nextExpectedSequence))) := by
  obtain ⟨hstate, session, hsplits⟩ := AsyncClient.connect_splits hconnect
  refine ⟨session, hrun.invariant ?_ fun _ _ _ h _ hstep ↦ h.next hstep⟩
  have hcfg : (AsyncClient.loggingIn cfg created now sent).cfg = cfg := by
    rw [AsyncClient.loggingIn, Session.queueLogin_eq]
    rfl
  refine ⟨by rw [← hcfg]; exact hsplits.maxFrameSize, by simp [start, hstate],
    ⟨c.session.ahead, fun tail ↦ ?_, fun _ ↦ rfl⟩, nofun⟩
  have hread := hsplits.splits [] tail
  rw [List.nil_append, List.nil_append] at hread
  have hlogin : ∀ bytes, upToFinal ((AsyncClient.loggingIn cfg created now sent).ahead bytes) =
      decode cfg.maxFrameSize bytes := by
    intro bytes
    rw [AsyncClient.loggingIn, Session.queueLogin_eq]
    rfl
  rw [hlogin] at hread
  exact hread.symm

/-- The asynchronous client against the decoding.  However the bytes arrive, whichever of `recv`
and `recv_managed` is called and wherever a call is dropped, the login and the answers behind it
are a front part of the decoding of the bytes landed so far, whatever still follows them; they
are all of it behind a framing error or a close, and behind a call that was dropped while it
waited.  A synchronous client over the same bytes answers alike, as far as both have come. -/
theorem async_inbound_decodes
    (hconnect : AsyncClient.connect cfg created now sending sent rounds = some (.ok c))
    (hrun : machine.Run (fun _ _ ↦ True)
      (start (AsyncClient.connectLanded cfg created now sent rounds) c) h) :
    ∃ session trace,
      trace = .ok (.event (.loginAccepted session c.session.nextExpectedSequence)) :: h.trace ∧
      (∀ tail, upToFinal trace <+: decode cfg.maxFrameSize (h.received ++ tail)) ∧
      ((∃ o ∈ trace, Final o) →
        ∀ tail, upToFinal trace = decode cfg.maxFrameSize (h.received ++ tail)) ∧
      (h.client.session.state ≠ .closed → h.results.getLast? = some none →
        upToFinal trace = decode cfg.maxFrameSize h.received) ∧
      ∀ recvs sends now' created' d,
        Driven.Reaches (Driven.start recvs sends cfg now' created') d →
        h.received <+: landing recvs →
        upToFinal trace <+: upToFinal d.trace ∨ upToFinal d.trace <+: upToFinal trace := by
  obtain ⟨session, hears⟩ := hears_of_run hconnect hrun
  obtain ⟨ahead, hahead, hlive⟩ := hears.reads
  have hfront : ∀ tail, upToFinal
      (.ok (.event (.loginAccepted session c.session.nextExpectedSequence)) :: h.trace) <+:
        decode cfg.maxFrameSize (h.received ++ tail) := by
    intro tail
    rw [← hahead tail]
    exact upToFinal_append_isPrefix _ _
  refine ⟨session, _, rfl, hfront, fun hfinal tail ↦ ?_, fun hopen hlast ↦ ?_, ?_⟩
  · rw [← hahead tail, upToFinal_append_of_final hfinal]
  · have hnil := hahead []
    rwa [← hlive hopen, (hears.waits hlast).ahead_nil, List.append_nil, List.append_nil] at hnil
  · rintro recvs sends now' created' d hd ⟨tail, hbytes⟩
    have hdecodes := Driven.decodes_of_reaches hd
    have hfront' := hdecodes.front (landing d.client.transport.recvs)
    rw [hdecodes.script, ← hbytes] at hfront'
    exact List.prefix_or_prefix_of_prefix (hfront tail) hfront'

/-- A login answer in two reads, with the first bytes of a message behind it. -/
def sampleRounds : List Round :=
  [⟨0, 0, some (.ok [0, 31, 'A'.toUInt8]), 0⟩,
    ⟨0, 0, some (.ok (List.replicate 29 ' '.toUInt8 ++ ['5'.toUInt8, 0, 3])), 0⟩,
    ⟨0, 0, none, 0⟩]

def sampleHeard : Option Heard :=
  ((AsyncClient.connect {} 0 0 .finished 0 sampleRounds).bind Except.toOption).map
    (start (AsyncClient.connectLanded {} 0 0 0 sampleRounds))

theorem connect_of_sampleHeard {h : Heard} (hh : sampleHeard = some h) :
    AsyncClient.connect {} 0 0 .finished 0 sampleRounds = some (.ok h.client) ∧
      h = start (AsyncClient.connectLanded {} 0 0 0 sampleRounds) h.client := by
  obtain ⟨c, hc, rfl⟩ := Option.map_eq_some_iff.mp hh
  obtain ⟨r, hr, hc⟩ := Option.bind_eq_some_iff.mp hc
  rcases r with e | c'
  · cases hc
  · cases hc
    exact ⟨hr, rfl⟩

/-- A message begun in a dropped `recv` and ended in `recv_managed`, behind a heartbeat of the
client and before one of the server. -/
theorem async_inbound_decodes_dropped :
    ∃ h₀ ∈ sampleHeard, ∃ h ∈ Machine.follow next h₀
        [.plain (.recv [(.ok ['S'.toUInt8, 7], 1)]),
          .recvManaged [.elapsed 1 .finished 2, .ready (.ok [8, 0, 1, 'H'.toUInt8]) 3],
          .recvManaged [], .plain (.recv [(.error .peerClosed, 4)])],
      h.trace = [.ok (.data [7, 8] 5), .ok (.event .heartbeatReceived)] ∧
      ∃ session, upToFinal (.ok (.event (.loginAccepted session 5)) :: h.trace) <+:
        decode (64 * 1024) h.received := by
  have hend : ∃ h₀ ∈ sampleHeard, h₀.client.session.nextExpectedSequence = 5 ∧
      ∃ h ∈ Machine.follow next h₀
        [.plain (.recv [(.ok ['S'.toUInt8, 7], 1)]),
          .recvManaged [.elapsed 1 .finished 2, .ready (.ok [8, 0, 1, 'H'.toUInt8]) 3],
          .recvManaged [], .plain (.recv [(.error .peerClosed, 4)])],
        h.trace = [.ok (.data [7, 8] 5), .ok (.event .heartbeatReceived)] := by decide +kernel
  obtain ⟨h₀, hh₀, hfive, h, hh, htrace⟩ := hend
  obtain ⟨hconnect, hstart⟩ := connect_of_sampleHeard hh₀
  have hrun : machine.Run (fun _ _ ↦ True) h₀ h :=
    .of_follow (Machine.allowedAlong_of_forall (fun _ _ ↦ trivial) _ _) hh
  rw [hstart] at hrun
  obtain ⟨session, trace, rfl, hfront, -⟩ := async_inbound_decodes hconnect hrun
  have hfront' := hfront []
  rw [List.append_nil, hfive] at hfront'
  exact ⟨h₀, hh₀, h, hh, htrace, session, hfront'⟩

/-! ## A send that was cut short -/

/-- Calls that send nothing of the caller's. -/
def Listens : ManagedCall → Prop
  | .plain (.recv _) => True
  | .plain (.tickHeartbeat ..) => True
  | .recvManaged _ => True
  | _ => False

/-- The wire is as it was, and bytes are pending unless the session was closed. -/
def Held (wire : List UInt8) (c : AsyncClient) : Prop :=
  c.wire = wire ∧ (c.session.out ≠ [] ∨ c.session.state = .closed)

theorem Held.tick {wire : List UInt8} {c : AsyncClient} (hheld : Held wire c) (now : Instant)
    (sending : Sending) (sent : Instant) : Held wire (c.tickHeartbeat now sending sent).2 := by
  by_cases hclosed : c.session.state = .closed
  · rw [AsyncClient.tickHeartbeat, AsyncClient.ensureOpen_of_closed hclosed]
    exact hheld
  · have hout := hheld.2.resolve_right hclosed
    rcases AsyncClient.tickHeartbeat_cases hclosed now sending sent with
      ⟨-, htick⟩ | ⟨hempty, -⟩ | ⟨-, -, htick⟩
    · rw [htick]
      exact ⟨hheld.1, Or.inr rfl⟩
    · exact (hout hempty).elim
    · rw [htick]
      exact hheld

/-- A dispatch, or bytes that land, leave the outbound side alone or close the session. -/
theorem Held.session {wire : List UInt8} {c : AsyncClient} {s : Session} (hheld : Held wire c)
    (hsession : (s.out = c.session.out ∧ s.state = c.session.state) ∨ s.state = .closed) :
    Held wire { c with session := s } := by
  refine ⟨hheld.1, ?_⟩
  rcases hsession with ⟨hout, hstate⟩ | hclosed
  · dsimp only
    rw [hout, hstate]
    exact hheld.2
  · exact Or.inr hclosed

theorem Held.managedLoop {wire : List UInt8} (wakes : List Wake) :
    ∀ {c : AsyncClient}, Held wire c → Held wire (AsyncClient.recvManagedLoop wakes c).2 := by
  induction wakes with
  | nil =>
      intro c hheld
      have hout := (AsyncClient.dispatchStream_out c.session).imp_right fun h ↦ h.2.1
      unfold AsyncClient.recvManagedLoop
      rcases hd : c.session.dispatchStream with ⟨e | _ | streamed, s₁⟩
      all_goals
        rw [hd] at hout
        exact hheld.session hout
  | cons wake wakes ih =>
      intro c hheld
      have hout := (AsyncClient.dispatchStream_out c.session).imp_right fun h ↦ h.2.1
      unfold AsyncClient.recvManagedLoop
      rcases hd : c.session.dispatchStream with ⟨e | _ | streamed, s₁⟩
      · rw [hd] at hout
        exact hheld.session hout
      · rw [hd] at hout
        cases wake with
        | ready arrival now =>
            cases arrival with
            | error e => exact hheld.session hout
            | ok bytes => exact ih (hheld.session (s := s₁.land bytes now) hout)
        | elapsed late sending sent =>
            have htick := (hheld.session hout).tick (s₁.nextDeadline + late) sending sent
            dsimp only
            generalize AsyncClient.tickHeartbeat ⟨s₁, c.wire⟩ (s₁.nextDeadline + late) sending
              sent = ticked at htick ⊢
            obtain ⟨_ | e | _ | ev, c₁⟩ := ticked
            · exact htick
            · exact htick
            · exact ih htick
            · cases ev with
              | heartbeatTimeout => exact htick
              | _ => exact ih htick
      · rw [hd] at hout
        exact hheld.session hout

theorem Held.next {wire : List UInt8} {call : ManagedCall} (hheld : Held wire h.client)
    (hlistens : Listens call) (hnext : h.next call = some h') : Held wire h'.client := by
  cases call with
  | plain call =>
      cases call with
      | sendUnsequenced payload sending now => exact hlistens.elim
      | tickHeartbeat now sending sent =>
          cases hnext
          exact hheld.tick now sending sent
      | logout sending now => exact hlistens.elim
      | recv arrivals =>
          cases hnext
          dsimp only
          unfold AsyncClient.recv
          by_cases hclosed : h.client.session.state = .closed
          · rw [AsyncClient.ensureOpen_of_closed hclosed]
            exact hheld
          · rw [AsyncClient.ensureOpen_of_open hclosed]
            exact hheld.session
              ((AsyncClient.recvLoop_out arrivals h.client.session).imp_right And.right)
  | recvManaged wakes =>
      cases hnext
      dsimp only
      unfold AsyncClient.recvManaged
      by_cases hclosed : h.client.session.state = .closed
      · rw [AsyncClient.ensureOpen_of_closed hclosed]
        exact hheld
      · rw [AsyncClient.ensureOpen_of_open hclosed]
        exact hheld.managedLoop wakes

/-- A send that failed or was dropped silences the client: its packet stays pending, and as long
as bytes are pending no heartbeat goes out, however long `recv`, `recv_managed` and
`tick_heartbeat` are called and however late their timers fire. -/
theorem silenced_by_pending :
    (∀ call : AsyncCall, h.client.queues call ≠ [] → call.sending ≠ some .finished →
      (h.client.call call).session.out ≠ []) ∧
    (h.client.session.out ≠ [] → machine.Run (fun _ call ↦ Listens call) h h' →
      h'.client.wire = h.client.wire) := by
  refine ⟨fun call ↦ h.client.pending_of_unfinished, fun hpending hrun ↦ ?_⟩
  have hheld : Held h.client.wire h'.client :=
    hrun.invariant (I := fun h' ↦ Held h.client.wire h'.client) ⟨rfl, Or.inl hpending⟩
      fun _ _ _ hheld hlistens hstep ↦ hheld.next hlistens hstep
  exact hheld.1

/-- A message dropped behind its third byte; no heartbeat an hour later, though the server is
heard all the time. -/
theorem silenced_by_pending_dropped :
    ∃ h₀ ∈ sampleHeard,
      ∃ h ∈ Machine.follow next h₀ [.plain (.sendUnsequenced [1, 2] (.dropped 3) 0)],
      ∃ h' ∈ Machine.follow next h
        [.recvManaged [.ready (.ok [0]) (3600 * 10 ^ 9), .elapsed 0 .finished (3600 * 10 ^ 9)],
          .plain (.tickHeartbeat (3600 * 10 ^ 9) .finished (3600 * 10 ^ 9))],
      h'.client.session.state = .streaming ∧ h'.client.wire = h.client.wire := by
  have hend : ∃ h₀ ∈ sampleHeard,
      h₀.client.queues (.sendUnsequenced [1, 2] (.dropped 3) 0) ≠ [] ∧
      ∃ h ∈ Machine.follow next h₀ [.plain (.sendUnsequenced [1, 2] (.dropped 3) 0)],
      ∃ h' ∈ Machine.follow next h
        [.recvManaged [.ready (.ok [0]) (3600 * 10 ^ 9), .elapsed 0 .finished (3600 * 10 ^ 9)],
          .plain (.tickHeartbeat (3600 * 10 ^ 9) .finished (3600 * 10 ^ 9))],
      h'.client.session.state = .streaming := by decide +kernel
  obtain ⟨h₀, hh₀, hqueues, h, hh, h', hh', hstate⟩ := hend
  have hpending : h.client.session.out ≠ [] := by
    obtain rfl := Option.some.inj hh
    exact (@silenced_by_pending h₀ h₀).1 _ hqueues (fun hsending ↦ by cases hsending)
  refine ⟨h₀, hh₀, h, hh, h', hh', hstate, silenced_by_pending.2 hpending (.of_follow ?_ hh')⟩
  exact ⟨trivial, fun _ _ ↦ ⟨trivial, fun _ _ ↦ trivial⟩⟩

end Heard

end SoupBin
