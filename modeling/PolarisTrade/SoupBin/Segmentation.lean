import PolarisTrade.SoupBin.Inbound

/-!
# Framing is independent of segmentation

Along every run the inbound answers are a front part of the decoding of the whole stream,
and they are all of it once nothing more is to come.  Polling long enough while no timer
runs out gets there.  Behind an accepted login the messages are numbered without a break.
-/

namespace SoupBin

open Transport Word

/-! ## Numbering -/

/-- Payload and sequence of the data among some outcomes. -/
def dataOf (os : List Outcome) : List (List UInt8 × ℕ) :=
  os.filterMap fun
    | .ok (.data payload sequence) => some (payload, sequence)
    | _ => none

@[simp] theorem dataOf_append (os os' : List Outcome) :
    dataOf (os ++ os') = dataOf os ++ dataOf os' := List.filterMap_append

/-- The payloads of the `Sequenced Data` packets. -/
def sequenced (qs : List PacketFrame) : List (List UInt8) :=
  (qs.filter fun q ↦ q.ty = .sequencedData).map PacketFrame.payload

/-- Payloads with consecutive sequences from `n` on. -/
def numbered (n : ℕ) (payloads : List (List UInt8)) : List (List UInt8 × ℕ) :=
  payloads.mapIdx fun k payload ↦ (payload, (n + k) % 2 ^ 64)

theorem numbered_cons {n : ℕ} (hn : n < 2 ^ 64) (payload : List UInt8)
    (payloads : List (List UInt8)) :
    numbered n (payload :: payloads) = (payload, n) :: numbered (wrappingAdd n 1) payloads := by
  unfold numbered wrappingAdd
  rw [List.mapIdx_cons]
  congr 1
  · rw [Nat.add_zero, Nat.mod_eq_of_lt hn]
  · congr 1
    funext k payload
    rw [Nat.mod_add_mod, Nat.add_assoc, Nat.add_comm 1 k]

namespace Phase

/-- A packet of the stream: data, something else that leaves the count alone, or the end. -/
theorem step_streaming (n : ℕ) (q : PacketFrame) :
    (q.ty = .sequencedData ∧ (streaming n).step q =
      (some (.ok (.data q.payload n)), streaming (wrappingAdd n 1))) ∨
    (q.ty ≠ .sequencedData ∧ dataOf ((streaming n).step q).1.toList = [] ∧
      (((streaming n).step q).2 = streaming n ∨ ((streaming n).step q).2 = closed)) := by
  obtain ⟨ty, payload⟩ := q
  cases ty with
  | sequencedData => exact Or.inl ⟨rfl, rfl⟩
  | endOfSession => exact Or.inr ⟨by simp, rfl, Or.inr rfl⟩
  | _ => exact Or.inr ⟨by simp, rfl, Or.inl rfl⟩

theorem dataOf_read_streaming {n : ℕ} (hn : n < 2 ^ 64) (qs : List PacketFrame) :
    dataOf ((streaming n).read qs).1 <+: numbered n (sequenced qs) := by
  induction qs generalizing n with
  | nil => exact List.nil_prefix
  | cons q qs ih =>
      rw [read, dataOf_append]
      rcases step_streaming n q with ⟨hty, hstep⟩ | ⟨hty, hdata, hnext⟩
      · have hsequenced : sequenced (q :: qs) = q.payload :: sequenced qs := by
          simp [sequenced, hty]
        rw [hstep, hsequenced, numbered_cons hn]
        exact (List.prefix_append_right_inj [(q.payload, n)]).mpr (ih (Nat.mod_lt _ (by simp)))
      · have hsequenced : sequenced (q :: qs) = sequenced qs := by simp [sequenced, hty]
        rw [hdata, hsequenced]
        rcases hnext with hnext | hnext
        · rw [hnext]
          exact ih hn
        · rw [hnext, read_closed]
          exact List.nil_prefix

/-- A packet of the login: dropped or refused with an error, or the answer of the server. -/
theorem step_authenticating (q : PacketFrame) :
    (authenticating.step q = (none, authenticating)) ∨
    (∃ e, authenticating.step q = (some (.error e), authenticating)) ∨
    (∃ payload session n, q = ⟨.loginAccepted, payload⟩ ∧
      parseLoginAccepted payload = .ok (session, n) ∧ authenticating.step q =
        (some (.ok (.event (.loginAccepted session n))), streaming n)) ∨
    ∃ reason, authenticating.step q = (some (.ok (.event (.loginRejected reason))), closed) := by
  obtain ⟨ty, payload⟩ := q
  cases ty with
  | loginAccepted =>
      cases hparse : parseLoginAccepted payload with
      | error e => exact Or.inr (Or.inl ⟨e, by simp [step, hparse]⟩)
      | ok fields =>
          cases hfield : parseAsciiField fields.1.1 with
          | error e => exact Or.inr (Or.inl ⟨e, by simp [step, hparse, hfield]⟩)
          | ok id =>
              exact Or.inr (Or.inr (Or.inl ⟨payload, fields.1, fields.2, rfl, hparse,
                by simp [step, hparse, hfield]⟩))
  | loginRejected =>
      cases payload with
      | nil => exact Or.inr (Or.inl ⟨_, rfl⟩)
      | cons reason rest => exact Or.inr (Or.inr (Or.inr ⟨reason, rfl⟩))
  | debug => exact Or.inl rfl
  | serverHeartbeat => exact Or.inl rfl
  | _ => exact Or.inr (Or.inl ⟨_, rfl⟩)

/-- Nothing but an authenticating session accepts a login. -/
theorem not_accepted_of_streaming {n m : ℕ} {session : SessionId} {qs : List PacketFrame} :
    .ok (.event (.loginAccepted session m)) ∉ ((streaming n).read qs).1 := by
  induction qs generalizing n with
  | nil => simp [read]
  | cons q qs ih =>
      obtain ⟨ty, payload⟩ := q
      rw [read]
      cases ty with
      | endOfSession => simp [step]
      | _ => simpa [step] using ih

theorem not_accepted_of_failed {p : Phase} {m : ℕ} {session : SessionId}
    {failure : Option SoupBinError} :
    .ok (.event (.loginAccepted session m)) ∉ p.failed failure := by
  cases p <;> cases failure <;> simp [failed]

theorem dataOf_failed (p : Phase) (failure : Option SoupBinError) :
    dataOf (p.failed failure) = [] := by
  cases p <;> cases failure <;> rfl

/-- The packet that was accepted; what is read behind it is read in the streaming phase. -/
theorem read_accepted {session : SessionId} {n : ℕ} {before after tail : List Outcome}
    {qs : List PacketFrame} (htail : .ok (.event (.loginAccepted session n)) ∉ tail)
    (h : before ++ .ok (.event (.loginAccepted session n)) :: after =
      (authenticating.read qs).1 ++ tail) :
    ∃ login payload rest, qs = login ++ ⟨.loginAccepted, payload⟩ :: rest ∧
      parseLoginAccepted payload = .ok (session, n) ∧ dataOf before = [] ∧
      (authenticating.read (login ++ [⟨.loginAccepted, payload⟩])).1 =
        before ++ [.ok (.event (.loginAccepted session n))] ∧
      after = ((streaming n).read rest).1 ++ tail := by
  have hmem : ∀ {before os : List Outcome},
      before ++ .ok (.event (.loginAccepted session n)) :: after = os →
      .ok (.event (.loginAccepted session n)) ∈ os := by
    rintro before os rfl
    simp
  induction qs generalizing before with
  | nil => exact (htail (hmem h)).elim
  | cons q qs ih =>
      rw [read] at h
      rcases step_authenticating q with
        hstep | ⟨e, hstep⟩ | ⟨payload, session', n', rfl, hparse, hstep⟩ | ⟨reason, hstep⟩
      · rw [hstep] at h
        obtain ⟨login, payload, rest, rfl, hparse, hdata, hlogin, hafter⟩ := ih h
        exact ⟨q :: login, payload, rest, rfl, hparse, hdata,
          by simpa [read, hstep] using hlogin, hafter⟩
      · rw [hstep] at h
        cases before with
        | nil => cases h
        | cons o before =>
            obtain ⟨rfl, h'⟩ := List.cons.inj h
            obtain ⟨login, payload, rest, rfl, hparse, hdata, hlogin, hafter⟩ := ih h'
            exact ⟨q :: login, payload, rest, rfl, hparse, hdata,
              by simp [read, hstep, hlogin], hafter⟩
      · rw [hstep] at h
        cases before with
        | nil =>
            obtain ⟨heq, hafter⟩ := List.cons.inj h
            cases heq
            exact ⟨[], payload, qs, rfl, hparse, rfl, by simp [read, hstep], hafter⟩
        | cons o before =>
            obtain ⟨rfl, h'⟩ := List.cons.inj h
            rcases List.mem_append.mp (hmem h') with hmem' | hmem'
            · exact (not_accepted_of_streaming hmem').elim
            · exact (htail hmem').elim
      · rw [hstep, read_closed] at h
        have hmem' := hmem h
        simp [htail] at hmem'

end Phase

/-- The messages behind an accepted login, in a front part of the decoding of a stream. -/
theorem numbered_of_prefix {maxFrameSize : ℕ} {bytes : List UInt8} {session : SessionId} {n : ℕ}
    {before after : List Outcome}
    (h : before ++ .ok (.event (.loginAccepted session n)) :: after <+:
      decode maxFrameSize bytes) :
    ∃ login rest, ((sessionFramer maxFrameSize).cut bytes).1 = login ++ rest ∧
      (Phase.authenticating.read login).1 =
        before ++ [.ok (.event (.loginAccepted session n))] ∧
      dataOf after <+: numbered n (sequenced rest) := by
  obtain ⟨more, hmore⟩ := h.trans (upToFinal_isPrefix _)
  rw [List.append_assoc, List.cons_append] at hmore
  obtain ⟨login, payload, rest, hqs, hparse, -, hlogin, hafter⟩ :=
    Phase.read_accepted Phase.not_accepted_of_failed hmore
  refine ⟨login ++ [⟨.loginAccepted, payload⟩], rest, ?_, hlogin, ?_⟩
  · rw [hqs, List.append_assoc, List.singleton_append]
  have hdata := congrArg dataOf hafter
  rw [dataOf_append, dataOf_append, Phase.dataOf_failed, List.append_nil] at hdata
  exact (List.prefix_append _ _).trans
    (hdata ▸ Phase.dataOf_read_streaming (parseLoginAccepted_lt hparse) rest)

/-! ## What a poll uses up -/

namespace SoupBinClient

variable {c c' : SoupBinClient} {now : Instant}
  {answer : Except SoupBinError (Option SoupBinMessage)}

/-- Answers the transport still has. -/
def pending (c : SoupBinClient) : ℕ := c.transport.sends.length + c.transport.recvs.length

/-- A poll at a time at which no timer has run out: it answers something inbound, uses up an
answer of the transport, or there is none left to read. -/
structure Progress (c : SoupBinClient) (now : Instant)
    (answer : Except SoupBinError (Option SoupBinMessage)) (c' : SoupBinClient) : Prop where
  calm : c'.session.Calm now
  timely : ¬ TimedOut answer
  pending_le : c'.pending ≤ c.pending
  idle : inbound answer = none →
    c'.pending < c.pending ∨ (answer = .ok none ∧ c'.transport.recvs = [])

theorem Progress.of_uses {α : Type} {r : Except SoupBinError (Option α)} {s : Session}
    {t : Stream} {message : α → SoupBinMessage} (huses : Uses c.transport r t)
    (hcalm : s.Calm now)
    (hmessage : ∀ a, r = .ok (some a) → inbound (.ok (some (message a))) ≠ none) :
    c.Progress now (r.map (Option.map message)) ⟨t, s⟩ := by
  have hpending : t.recvs.length < c.transport.recvs.length →
      pending ⟨t, s⟩ < c.pending := by
    intro hlt
    simp only [pending, huses.sends]
    omega
  refine ⟨hcalm, ?_, ?_, ?_⟩
  · rcases r with e | _ | a
    · rintro (⟨timeout, h⟩ | h)
      · obtain rfl := Except.error.inj h
        rcases huses.failed _ rfl with h | ⟨⟨e', h⟩, -⟩
        · exact h
        · cases h
      · cases h
    · rintro (⟨timeout, h⟩ | h) <;> cases h
    · rintro (⟨timeout, h⟩ | h)
      · cases h
      · refine hmessage a rfl ?_
        change inbound (Except.map (Option.map message) (.ok (some a))) = none
        rw [h]
        rfl
  · have := huses.recvs
    simp only [pending, huses.sends]
    omega
  · intro hinbound
    rcases r with e | _ | a
    · rcases huses.failed e rfl with hprotocol | ⟨-, hlt⟩
      · rw [Except.map, hprotocol.inbound_eq] at hinbound
        cases hinbound
      · exact Or.inl (hpending hlt)
    · exact (huses.drained rfl).symm.imp hpending fun h ↦ ⟨rfl, h⟩
    · exact (hmessage a rfl hinbound).elim

theorem streamed_inbound {s : Session} {t : Stream} {streamed : Streamed}
    (h : Looped Session.dispatchStream now c.session c.transport (.ok (some streamed)) s t) :
    inbound (.ok (some (streamed.message s))) ≠ none := by
  obtain ⟨buf, lastRecv, heffect⟩ := h.effect_ok Session.dispatchStream_effect fun _ _ h ↦ h
  cases streamed with
  | data sequence => simp [inbound, Streamed.message]
  | event ev =>
      cases ev with
      | heartbeatSent => exact heffect.elim
      | heartbeatTimeout => exact heffect.elim
      | _ => simp [inbound, Streamed.message]

theorem Advanced.progress {queued : List PacketFrame} (h : c.Advanced now answer c' queued)
    (hopen : c.session.state ≠ .closed) (hcalm : c.session.Calm now) :
    c.Progress now answer c' := by
  have hdue : c.session.heartbeatDue now = true → False := by
    intro hdue
    have hlate := (Bool.and_eq_true _ _ ▸ hdue).2
    exact absurd hcalm.send (Nat.not_le_of_lt (of_decide_eq_true hlate))
  have hlogin : ∀ {s r t}, Looped (fun s ↦ s.dispatchLogin now) now c.session c.transport r s t →
      c.Progress now (r.map (Option.map fun login ↦ .event login.event)) ⟨t, s⟩ :=
    fun hlooped ↦ .of_uses (hlooped.uses dispatchLogin_isProtocol)
      (hlooped.calm (fun s ↦ Session.calm_dispatchLogin) hcalm)
      fun login _ ↦ by cases login <;> simp [inbound, Login.event]
  have hstream : ∀ {s r t}, Looped Session.dispatchStream now c.session c.transport r s t →
      c.Progress now (r.map (Option.map fun streamed ↦ streamed.message s)) ⟨t, s⟩ :=
    fun hlooped ↦ .of_uses (hlooped.uses dispatchStream_isProtocol)
      (hlooped.calm (fun s ↦ Session.calm_dispatchStream) hcalm)
      fun streamed hr ↦ streamed_inbound (hr ▸ hlooped)
  cases h with
  | ended hclosed => exact (hopen hclosed).elim
  | closing hclosed => exact (hopen hclosed).elim
  | loginFailed e _ hlooped => exact hlogin hlooped
  | loginFound login _ hlooped => exact hlogin hlooped
  | loginIdle _ hlooped => exact hlogin hlooped
  | loginTimedOut hstate hlooped hlate =>
      have hcalm' := (hlogin hlooped).calm
      obtain ⟨buf, lastRecv, buf', rfl⟩ :=
        hlooped.effect_ok (fun s ↦ s.dispatchLogin_effect now) fun _ _ h ↦ h
      exact absurd (hcalm'.login hstate) (Nat.not_lt_of_le hlate)
  | heartbeatUnsent e _ htrue _ => exact (hdue htrue).elim
  | heartbeatSent _ htrue _ => exact (hdue htrue).elim
  | streamFailed e _ _ hlooped => exact hstream hlooped
  | streamFound streamed _ _ hlooped => exact hstream hlooped
  | streamIdle _ _ hlooped => exact hstream hlooped
  | streamTimedOut _ _ hlooped hlate =>
      exact absurd (hstream hlooped).calm.recv (Nat.not_le_of_lt hlate)

theorem poll_progress (hopen : c.session.state ≠ .closed) (hcalm : c.session.Calm now) :
    c.Progress now (c.poll now).1 (c.poll now).2 := by
  have hpolled := c.poll_polled now
  generalize (c.poll now).1 = answer at hpolled ⊢
  generalize (c.poll now).2 = c' at hpolled ⊢
  generalize c.heartbeats now = queued at hpolled
  cases hpolled with
  | unsent e hflushed hlt =>
      have hcalm' := hflushed.calm hcalm
      obtain ⟨n, lastSend, sends, rfl, -, -⟩ := hflushed
      have hpending := Nat.add_lt_add_right hlt c.transport.recvs.length
      refine ⟨hcalm', ?_, hpending.le, fun _ ↦ Or.inl hpending⟩
      rintro (⟨timeout, h⟩ | h) <;> cases h
  | advanced hflushed hadvanced =>
      obtain ⟨hcalm', htimely, hle, hidle⟩ :=
        hadvanced.progress (hflushed.state_eq ▸ hopen) (hflushed.calm hcalm)
      obtain ⟨n, lastSend, sends, rfl, -, hsends⟩ := hflushed
      have hpending := Nat.add_le_add_right hsends c.transport.recvs.length
      exact ⟨hcalm', htimely, hle.trans hpending,
        fun hinbound ↦ (hidle hinbound).imp_left fun hlt ↦ hlt.trans_le hpending⟩

end SoupBinClient

/-! ## Counting the messages handed out -/

/-- The next expected sequence behind an answer. -/
def counted (next : ℕ) : Except SoupBinError (Option SoupBinMessage) → ℕ
  | .ok (some (.data ..)) => wrappingAdd next 1
  | .ok (some (.event (.loginAccepted _ n))) => n
  | _ => next

namespace SoupBinClient

variable {c c' : SoupBinClient} {now : Instant}
  {answer : Except SoupBinError (Option SoupBinMessage)}

/-- Which answer counts, and the bound of a login's sequence. -/
structure Counts (c : SoupBinClient) (answer : Except SoupBinError (Option SoupBinMessage))
    (c' : SoupBinClient) : Prop where
  next : c'.session.nextExpectedSequence = counted c.session.nextExpectedSequence answer
  accepted : ∀ session n, answer = .ok (some (.event (.loginAccepted session n))) → n < 2 ^ 64

theorem counts_loginLooped {s : Session} {t : Stream} {r : Except SoupBinError (Option Login)}
    (h : Looped (fun s ↦ s.dispatchLogin now) now c.session c.transport r s t) :
    c.Counts (r.map (Option.map fun login ↦ .event login.event)) ⟨t, s⟩ := by
  obtain ⟨-, buf, lastRecv, heffect | ⟨⟨e, rfl⟩, rfl⟩⟩ :=
    h.effect (fun s ↦ s.dispatchLogin_effect now) fun _ _ h ↦ h
  · rcases r with e | _ | login
    · obtain ⟨-, buf', rfl⟩ := heffect
      exact ⟨rfl, nofun⟩
    · obtain ⟨buf', rfl⟩ := heffect
      exact ⟨rfl, nofun⟩
    · cases login with
      | accepted session sequence =>
          obtain ⟨hlt, buf', id, rfl⟩ := heffect
          refine ⟨rfl, fun session' n h ↦ ?_⟩
          cases h
          exact hlt
      | rejected reason =>
          obtain ⟨buf', rfl⟩ := heffect
          exact ⟨rfl, nofun⟩
  · exact ⟨rfl, nofun⟩

theorem counts_streamLooped {s : Session} {t : Stream}
    {r : Except SoupBinError (Option Streamed)}
    (h : Looped Session.dispatchStream now c.session c.transport r s t) :
    c.Counts (r.map (Option.map fun streamed ↦ streamed.message s)) ⟨t, s⟩ := by
  obtain ⟨-, buf, lastRecv, heffect | ⟨⟨e, rfl⟩, rfl⟩⟩ :=
    h.effect Session.dispatchStream_effect fun _ _ h ↦ h
  · rcases r with e | _ | streamed
    · obtain ⟨-, buf', rfl⟩ := heffect
      exact ⟨rfl, nofun⟩
    · obtain ⟨buf', rfl⟩ := heffect
      exact ⟨rfl, nofun⟩
    · cases streamed with
      | data sequence =>
          obtain ⟨rfl, buf', frame, rfl⟩ := heffect
          exact ⟨rfl, nofun⟩
      | event ev =>
          cases ev with
          | heartbeatReceived =>
              obtain ⟨buf', rfl⟩ := heffect
              exact ⟨rfl, nofun⟩
          | endOfSession =>
              obtain ⟨buf', rfl⟩ := heffect
              exact ⟨rfl, nofun⟩
          | _ => exact heffect.elim
  · exact ⟨rfl, nofun⟩

theorem Advanced.counts {queued : List PacketFrame} (h : c.Advanced now answer c' queued) :
    c.Counts answer c' := by
  have hheartbeat : ∀ {c'}, Flushed ⟨c.transport, c.session.queueHeartbeat.2⟩ now c' →
      c'.session.nextExpectedSequence = c.session.nextExpectedSequence := by
    rintro c' ⟨n, lastSend, sends, rfl, -, -⟩
    have hqueue := @Session.queue_of_le c.session .clientHeartbeat [] (Nat.zero_le _)
    exact congrArg (fun q ↦ q.2.nextExpectedSequence) hqueue
  cases h with
  | ended => exact ⟨rfl, nofun⟩
  | closing => exact ⟨rfl, nofun⟩
  | loginFailed e _ hlooped => exact counts_loginLooped hlooped
  | loginFound login _ hlooped => exact counts_loginLooped hlooped
  | loginIdle _ hlooped => exact counts_loginLooped hlooped
  | loginTimedOut _ hlooped => exact ⟨(counts_loginLooped hlooped).next, nofun⟩
  | heartbeatUnsent e _ _ hflushed => exact ⟨hheartbeat hflushed, nofun⟩
  | heartbeatSent _ _ hflushed => exact ⟨hheartbeat hflushed, nofun⟩
  | streamFailed e _ _ hlooped => exact counts_streamLooped hlooped
  | streamFound streamed _ _ hlooped => exact counts_streamLooped hlooped
  | streamIdle _ _ hlooped => exact counts_streamLooped hlooped
  | streamTimedOut _ _ hlooped => exact ⟨(counts_streamLooped hlooped).next, nofun⟩

theorem poll_counts (c : SoupBinClient) (now : Instant) :
    c.Counts (c.poll now).1 (c.poll now).2 := by
  have hpolled := c.poll_polled now
  generalize (c.poll now).1 = answer at hpolled ⊢
  generalize (c.poll now).2 = c' at hpolled ⊢
  generalize c.heartbeats now = queued at hpolled
  cases hpolled with
  | unsent e hflushed =>
      obtain ⟨n, lastSend, sends, rfl, -, -⟩ := hflushed
      exact ⟨rfl, nofun⟩
  | advanced hflushed hadvanced =>
      obtain ⟨n, lastSend, sends, rfl, -, -⟩ := hflushed
      exact ⟨hadvanced.counts.next, hadvanced.counts.accepted⟩

end SoupBinClient

/-! ## Whole runs -/

namespace Driven

/-- The inbound answers so far. -/
def trace (d : Driven) : List Outcome := d.results.filterMap inbound

/-- The trace against the decoding of the bytes received, with any bytes behind them. -/
structure Decodes (maxFrameSize : ℕ) (bytes : List UInt8) (d : Driven) : Prop where
  size : d.client.session.cfg.maxFrameSize = maxFrameSize
  script : d.client.transport.received ++ landing d.client.transport.recvs = bytes
  front : ∀ tail, upToFinal d.trace <+:
    decode maxFrameSize (d.client.transport.received ++ tail)
  ends : (∃ o ∈ d.trace, Final o) → ∀ tail, upToFinal d.trace =
    decode maxFrameSize (d.client.transport.received ++ tail)
  live : d.client.session.state ≠ .closed → ∀ tail,
    upToFinal (d.trace ++ d.client.session.ahead tail) =
      decode maxFrameSize (d.client.transport.received ++ tail)
  drained : d.client.session.state ≠ .closed → d.results.getLast? = some (.ok none) →
    d.client.session.Drained

/-- Whatever is still ahead, the trace is a front part, and all of it once it is final. -/
theorem Decodes.of_ahead {maxFrameSize : ℕ} {bytes : List UInt8} {d : Driven}
    (ahead : List UInt8 → List Outcome)
    (hmax : d.client.session.cfg.maxFrameSize = maxFrameSize)
    (hscript : d.client.transport.received ++ landing d.client.transport.recvs = bytes)
    (hahead : ∀ tail, upToFinal (d.trace ++ ahead tail) =
      decode maxFrameSize (d.client.transport.received ++ tail))
    (hlive : d.client.session.state ≠ .closed → ahead = d.client.session.ahead)
    (hdrained : d.client.session.state ≠ .closed → d.results.getLast? = some (.ok none) →
      d.client.session.Drained) : d.Decodes maxFrameSize bytes := by
  refine ⟨hmax, hscript, fun tail ↦ ?_, fun hfinal tail ↦ ?_, fun hopen ↦ ?_, hdrained⟩
  · rw [← hahead tail]
    exact upToFinal_append_isPrefix _ _
  · rw [← hahead tail, upToFinal_append_of_final hfinal]
  · rw [← hlive hopen]
    exact hahead

theorem decodes_start (recvs : List (Except TransportError (List UInt8)))
    (sends : List (Except TransportError ℕ)) (cfg : SoupBinClientConfig) (now created : Instant) :
    (start recvs sends cfg now created).Decodes cfg.maxFrameSize (landing recvs) := by
  have hflushed : SoupBinClient.Flushed
      ⟨{ recvs := recvs, sends := sends }, ((Session.new cfg created).queueLogin now).2⟩ now
      (start recvs sends cfg now created).client := by
    unfold start SoupBinClient.start
    rw [Session.queueLogin_eq]
    exact (SoupBinClient.flush_flushed ⟨_, _⟩ now).1
  rw [Session.queueLogin_eq] at hflushed
  obtain ⟨n, lastSend, sends', hclient, -, -⟩ := hflushed
  have hresults : (start recvs sends cfg now created).results = [] := rfl
  generalize start recvs sends cfg now created = d at hclient hresults ⊢
  obtain ⟨client, results, queued⟩ := d
  obtain rfl := hclient
  obtain rfl := hresults
  exact .of_ahead _ rfl rfl (fun tail ↦ rfl) (fun _ ↦ rfl) nofun

theorem trace_append (d : Driven) (c' : SoupBinClient) (queued : List PacketFrame)
    (answer : Except SoupBinError (Option SoupBinMessage)) :
    trace ⟨c', d.results ++ [answer], queued⟩ = d.trace ++ (inbound answer).toList := by
  unfold trace
  rw [List.filterMap_append]
  cases h : inbound answer <;> simp [h]

/-- A call that reads and answers nothing and at most closes the session. -/
theorem Decodes.keep {maxFrameSize : ℕ} {bytes : List UInt8} {d d' : Driven}
    (h : d.Decodes maxFrameSize bytes) (hresults : d'.results = d.results)
    (hreceived : d'.client.transport.received = d.client.transport.received)
    (hrecvs : d'.client.transport.recvs = d.client.transport.recvs)
    (hmax : d'.client.session.cfg.maxFrameSize = d.client.session.cfg.maxFrameSize)
    (hsession : d'.client.session.state ≠ .closed → d.client.session.state ≠ .closed ∧
      d'.client.session.ahead = d.client.session.ahead ∧
      (d.client.session.Drained → d'.client.session.Drained)) : d'.Decodes maxFrameSize bytes := by
  have htrace : d'.trace = d.trace := congrArg (List.filterMap inbound) hresults
  refine ⟨hmax.trans h.size, by rw [hreceived, hrecvs, h.script], ?_, ?_, ?_, ?_⟩
  · rw [htrace, hreceived]
    exact h.front
  · rw [htrace, hreceived]
    exact h.ends
  · intro hopen
    obtain ⟨hopen', hahead, -⟩ := hsession hopen
    rw [htrace, hreceived, hahead]
    exact h.live hopen'
  · intro hopen hlast
    obtain ⟨hopen', -, hdrained⟩ := hsession hopen
    exact hdrained (h.drained hopen' (hresults ▸ hlast))

/-- A poll of an open session that no timer closes. -/
theorem Decodes.reads {maxFrameSize : ℕ} {bytes landed : List UInt8} {d : Driven} {s : Session}
    {answer : Except SoupBinError (Option SoupBinMessage)} (h : d.Decodes maxFrameSize bytes)
    (hopen : d.client.session.state ≠ .closed)
    (hreads : d.client.session.Reads landed answer s) (tail : List UInt8) :
    upToFinal (d.trace ++ (inbound answer).toList ++ s.ahead tail) =
      decode maxFrameSize (d.client.transport.received ++ landed ++ tail) := by
  rw [← hreads.splits, h.live hopen, List.append_assoc]

theorem Decodes.poll {maxFrameSize : ℕ} {bytes : List UInt8} {d d' : Driven} {now : Instant}
    (h : d.Decodes maxFrameSize bytes) (hnext : d.next (.poll now) = some d') :
    d'.Decodes maxFrameSize bytes := by
  cases hnext
  by_cases hopen : d.client.session.state = .closed
  · obtain ⟨hover, n, lastSend, sends, hpoll, -, -⟩ := SoupBinClient.poll_of_closed hopen now
    have htrace := d.trace_append (d.client.poll now).2 (d.queued ++ d.client.heartbeats now)
      (d.client.poll now).1
    rw [hover.inbound_eq, Option.toList_none, List.append_nil] at htrace
    rw [hpoll] at htrace ⊢
    refine ⟨h.size, h.script, ?_, ?_, fun hopen' ↦ (hopen' hopen).elim,
      fun hopen' ↦ (hopen' hopen).elim⟩
    · rw [htrace]
      exact h.front
    · rw [htrace]
      exact h.ends
  · obtain ⟨landed, hreceived, hlanding, hpulls⟩ := d.client.poll_pulls hopen now
    have hscript : (d.client.poll now).2.transport.received ++
        landing (d.client.poll now).2.transport.recvs = bytes := by
      rw [hreceived, List.append_assoc, ← hlanding, h.script]
    rcases hpulls with hreads | ⟨hclosed, -, hinbound, hmax, s, hreads⟩
    · refine .of_ahead _ (hreads.maxFrameSize.trans h.size) hscript (fun tail ↦ ?_)
        (fun _ ↦ rfl) fun _ hlast ↦ ?_
      · rw [trace_append, hreceived]
        exact h.reads hopen hreads tail
      · exact (hreads.waits (by simpa using hlast)).2
    · refine .of_ahead s.ahead (hmax.trans h.size) hscript (fun tail ↦ ?_)
        (fun hopen' ↦ (hopen' hclosed).elim) fun hopen' ↦ (hopen' hclosed).elim
      rw [trace_append, hreceived, hinbound]
      exact h.reads hopen hreads tail

theorem Decodes.next {maxFrameSize : ℕ} {bytes : List UInt8} {d d' : Driven} {call : Call}
    (h : d.Decodes maxFrameSize bytes) (hnext : d.next call = some d') :
    d'.Decodes maxFrameSize bytes := by
  cases call with
  | poll now => exact h.poll hnext
  | queueUnsequenced payload =>
      cases hnext
      rcases d.client.queueUnsequenced_cases payload with
        ⟨-, hcall⟩ | ⟨-, -, hcall⟩ | ⟨-, -, hcall⟩
      all_goals
        rw [hcall]
        exact h.keep rfl rfl rfl rfl fun hopen ↦ ⟨hopen, rfl, id⟩
  | queueLogout =>
      cases hnext
      rcases d.client.queueLogout_cases with ⟨-, hcall⟩ | ⟨-, hcall⟩
      · rw [hcall]
        exact h.keep rfl rfl rfl rfl fun hopen ↦ ⟨hopen, rfl, id⟩
      · rw [hcall]
        exact h.keep rfl rfl rfl rfl fun hopen ↦ (hopen rfl).elim

/-- A trace with nothing ahead is the whole decoding. -/
theorem Decodes.done {maxFrameSize : ℕ} {bytes : List UInt8} {d : Driven}
    (h : d.Decodes maxFrameSize bytes) {ahead : List UInt8 → List Outcome}
    (hahead : ∀ tail, upToFinal (d.trace ++ ahead tail) =
      decode maxFrameSize (d.client.transport.received ++ tail))
    (hnone : ahead (landing d.client.transport.recvs) = []) :
    upToFinal d.trace = decode maxFrameSize bytes := by
  rw [← h.script, ← hahead, hnone, List.append_nil]

/-- One poll at a time at which no timer has run out: the trace is complete behind it, or the
session is still open and has less to read or to send. -/
theorem Decodes.progress {maxFrameSize : ℕ} {bytes : List UInt8} {d d' : Driven} {now : Instant}
    (h : d.Decodes maxFrameSize bytes) (hopen : d.client.session.state ≠ .closed)
    (hcalm : d.client.session.Calm now) (hnext : d.next (.poll now) = some d') :
    upToFinal d'.trace = decode maxFrameSize bytes ∨
      (d'.client.session.state ≠ .closed ∧ d'.client.session.Calm now ∧
        d'.client.pending + ((decode maxFrameSize bytes).length - d'.trace.length) <
          d.client.pending + ((decode maxFrameSize bytes).length - d.trace.length)) := by
  have hdecodes := h.poll hnext
  cases hnext
  obtain ⟨hcalm', htimely, hle, hidle⟩ := SoupBinClient.poll_progress hopen hcalm
  obtain ⟨landed, hreceived, -, hpulls⟩ := d.client.poll_pulls hopen now
  have hreads : d.client.session.Reads landed (d.client.poll now).1
      (d.client.poll now).2.session := by
    rcases hpulls with hreads | ⟨-, hout, -⟩
    · exact hreads
    · exact (htimely hout).elim
  have htrace := d.trace_append (d.client.poll now).2 (d.queued ++ d.client.heartbeats now)
    (d.client.poll now).1
  have hahead := h.reads hopen hreads
  rw [← hreceived, ← htrace] at hahead
  dsimp only
  by_cases hfinal : ∃ o ∈ trace ⟨(d.client.poll now).2, d.results ++ [(d.client.poll now).1],
      d.queued ++ d.client.heartbeats now⟩, Final o
  · left
    rw [hdecodes.ends hfinal (landing (d.client.poll now).2.transport.recvs), hdecodes.script]
  by_cases hclosed : (d.client.poll now).2.session.state = .closed
  · left
    refine hdecodes.done hahead ?_
    simp [Session.ahead, Session.phase, hclosed]
  cases hinbound : inbound (d.client.poll now).1 with
  | none =>
      rw [hinbound, Option.toList_none, List.append_nil] at htrace
      rcases hidle hinbound with hlt | ⟨hanswer, hempty⟩
      · exact Or.inr ⟨hclosed, hcalm', by rw [htrace]; omega⟩
      · left
        refine hdecodes.done hahead ?_
        rw [hempty]
        exact (hreads.waits hanswer).2.ahead_nil
  | some o =>
      -- one outcome more, and not more than the decoding has
      rw [hinbound, Option.toList_some] at htrace
      push Not at hfinal
      have hfront := hdecodes.front (landing (d.client.poll now).2.transport.recvs)
      have hself := upToFinal_append_of_not hfinal []
      rw [List.append_nil, upToFinal, List.append_nil] at hself
      rw [hself, hdecodes.script] at hfront
      have hlength := hfront.length_le
      rw [htrace, List.length_append, List.length_singleton] at hlength ⊢
      exact Or.inr ⟨hclosed, hcalm', by omega⟩

/-- Polling on while no timer runs out completes the trace. -/
theorem Decodes.completes {maxFrameSize : ℕ} {bytes : List UInt8} {now : Instant} (fuel : ℕ) :
    ∀ {d : Driven}, d.Decodes maxFrameSize bytes → d.client.session.state ≠ .closed →
      d.client.session.Calm now →
      d.client.pending + ((decode maxFrameSize bytes).length - d.trace.length) ≤ fuel →
      ∃ k, ∃ d' ∈ Machine.follow Driven.next d (List.replicate k (.poll now)),
        upToFinal d'.trace = decode maxFrameSize bytes := by
  induction fuel with
  | zero =>
      intro d h hopen hcalm hfuel
      rcases h.progress hopen hcalm rfl with hdone | ⟨-, -, hlt⟩
      · exact ⟨1, _, rfl, hdone⟩
      · omega
  | succ fuel ih =>
      intro d h hopen hcalm hfuel
      rcases h.progress hopen hcalm rfl with hdone | ⟨hopen', hcalm', hlt⟩
      · exact ⟨1, _, rfl, hdone⟩
      · obtain ⟨k, d', hd', hdone⟩ := ih (h.poll rfl) hopen' hcalm' (by omega)
        exact ⟨k + 1, d', hd', hdone⟩

/-- Behind an accepted login the next expected sequence counts the data handed out. -/
def Counted (d : Driven) : Prop :=
  ∀ before session n after,
    d.trace = before ++ .ok (.event (.loginAccepted session n)) :: after →
    d.client.session.nextExpectedSequence = (n + (dataOf after).length) % 2 ^ 64

theorem eq_of_inbound {answer : Except SoupBinError (Option SoupBinMessage)} {m : SoupBinMessage}
    (h : inbound answer = some (.ok m)) : answer = .ok (some m) := by
  rcases answer with e | _ | m'
  · simp [inbound] at h
  · cases h
  · unfold inbound at h
    split at h
    · cases h
    · cases h
    · cases h
    · next hm => rw [hm, Except.ok.inj (Option.some.inj h)]
    · next hm => cases hm

theorem Counted.answer {d : Driven} {c' : SoupBinClient} {queued : List PacketFrame}
    {answer : Except SoupBinError (Option SoupBinMessage)} (h : d.Counted)
    (hcounts : d.client.Counts answer c')
    (hfirst : ∀ session n, answer = .ok (some (.event (.loginAccepted session n))) →
      ∀ session n, .ok (.event (.loginAccepted session n)) ∉ d.trace) :
    Counted ⟨c', d.results ++ [answer], queued⟩ := by
  intro before session n after htrace
  rw [trace_append] at htrace
  dsimp only
  rw [hcounts.next]
  cases hinbound : inbound answer with
  | none =>
      rw [hinbound, Option.toList_none, List.append_nil] at htrace
      rw [← h before session n after htrace]
      rcases answer with e | _ | ⟨payload, sequence⟩ | ev
      · rfl
      · rfl
      · cases hinbound
      · cases ev with
        | loginAccepted => cases hinbound
        | _ => rfl
  | some o =>
      rw [hinbound, Option.toList_some] at htrace
      rcases List.eq_nil_or_concat after with rfl | ⟨after, o', rfl⟩
      · obtain ⟨-, hlast⟩ := List.append_inj' htrace rfl
        obtain rfl : o = _ := List.singleton_inj.mp hlast
        obtain rfl := eq_of_inbound hinbound
        exact (Nat.mod_eq_of_lt (hcounts.accepted session n rfl)).symm
      · rw [List.concat_eq_append, ← List.cons_append, ← List.append_assoc] at htrace
        obtain ⟨hold, hlast⟩ := List.append_inj' htrace rfl
        obtain rfl := List.singleton_inj.mp hlast
        have hnext := h before session n after hold
        rw [List.concat_eq_append, dataOf_append, List.length_append]
        rcases o with e | m
        · rcases answer with e' | _ | m
          · simpa [counted, dataOf] using hnext
          · cases hinbound
          · unfold inbound at hinbound
            split at hinbound <;> simp_all
        · obtain rfl := eq_of_inbound hinbound
          cases m with
          | data payload sequence =>
              change wrappingAdd _ 1 = (n + ((dataOf after).length + 1)) % 2 ^ 64
              rw [hnext, wrappingAdd, Nat.mod_add_mod, Nat.add_assoc]
          | event ev =>
              cases ev with
              | loginAccepted session' n' =>
                  have hmem : .ok (.event (.loginAccepted session n)) ∈ d.trace := by
                    rw [hold]
                    simp
                  exact (hfirst session' n' rfl session n hmem).elim
              | _ => simpa [counted, dataOf] using hnext

theorem Counted.next {d d' : Driven} {call : Call} (h : d.Counted) (hstaged : d.Staged)
    (hnext : d.next call = some d') : d'.Counted := by
  cases call with
  | poll now =>
      cases hnext
      refine h.answer (d.client.poll_counts now) fun session n hanswer session' n' hmem ↦ ?_
      -- a login is accepted only where none was before
      have hmoves := d.client.poll_moves now
      rw [hanswer] at hmoves
      obtain ⟨r, hr, hinbound⟩ := List.mem_filterMap.mp hmem
      obtain rfl := eq_of_inbound hinbound
      cases hstate : d.client.session.state with
      | authenticating => exact hstaged.waiting hstate _ hr (Or.inl rfl)
      | _ =>
          rw [hstate] at hmoves
          cases hmoves
  | queueUnsequenced payload =>
      cases hnext
      rcases d.client.queueUnsequenced_cases payload with
        ⟨-, hcall⟩ | ⟨-, -, hcall⟩ | ⟨-, -, hcall⟩
      all_goals
        rw [hcall]
        exact h
  | queueLogout =>
      cases hnext
      rcases d.client.queueLogout_cases with ⟨-, hcall⟩ | ⟨-, hcall⟩
      all_goals
        rw [hcall]
        exact h

/-- Framing is independent of segmentation.  However the transport slices the stream, the
inbound answers are a front part of its decoding, and all of it once a framing error or a
close was met, or once a poll of an open session has found nothing more to read; polling on
while no timer runs out gets there.  Behind `LoginAccepted` with sequence `n` the messages
are the payloads of the `Sequenced Data` packets, numbered from `n` on, and the next
expected sequence is `n` plus the messages handed out.  If the stream is that of packets within
the size limit, these are the packets found in it, and its decoding is their reading. -/
theorem inbound_decodes {recvs : List (Except TransportError (List UInt8))}
    {sends : List (Except TransportError ℕ)} {cfg : SoupBinClientConfig} {now created : Instant}
    {d : Driven} (hrun : Reaches (start recvs sends cfg now created) d) :
    d.client.transport.received ++ landing d.client.transport.recvs = landing recvs ∧
    upToFinal d.trace <+: decode cfg.maxFrameSize (landing recvs) ∧
    ((∃ o ∈ d.trace, Final o) →
      upToFinal d.trace = decode cfg.maxFrameSize (landing recvs)) ∧
    (d.client.session.state ≠ .closed → d.results.getLast? = some (.ok none) →
      upToFinal d.trace = decode cfg.maxFrameSize d.client.transport.received) ∧
    (∀ now', d.client.session.state ≠ .closed → d.client.session.Calm now' →
      ∃ k, ∃ d' ∈ Machine.follow next d (List.replicate k (.poll now')),
        upToFinal d'.trace = decode cfg.maxFrameSize (landing recvs)) ∧
    (∀ before session n after,
      upToFinal d.trace = before ++ .ok (.event (.loginAccepted session n)) :: after →
      ∃ login rest,
        ((sessionFramer cfg.maxFrameSize).cut (landing recvs)).1 = login ++ rest ∧
        (Phase.authenticating.read login).1 =
          before ++ [.ok (.event (.loginAccepted session n))] ∧
        dataOf after <+: numbered n (sequenced rest)) ∧
    (∀ before session n after,
      d.trace = before ++ .ok (.event (.loginAccepted session n)) :: after →
      d.client.session.nextExpectedSequence = (n + (dataOf after).length) % 2 ^ 64) ∧
    ∀ packets : List PacketFrame, (∀ p ∈ packets,
        p.payload.length < 65535 ∧ 3 + p.payload.length ≤ cfg.maxFrameSize) →
      landing recvs = packets.flatMap PacketFrame.bytes →
      ((sessionFramer cfg.maxFrameSize).cut (landing recvs)).1 = packets ∧
      decode cfg.maxFrameSize (landing recvs) =
        upToFinal (Phase.authenticating.read packets).1 := by
  have h : d.Decodes cfg.maxFrameSize (landing recvs) :=
    hrun.invariant (decodes_start recvs sends cfg now created) fun _ _ _ h _ hstep ↦ h.next hstep
  have hfront := h.front (landing d.client.transport.recvs)
  rw [h.script] at hfront
  refine ⟨h.script, hfront, fun hfinal ↦ ?_, fun hopen hlast ↦ ?_, fun now' hopen hcalm ↦ ?_,
    fun before session n after htrace ↦ ?_, ?_, fun packets hfits hpackets ↦ ?_⟩
  · rw [h.ends hfinal (landing d.client.transport.recvs), h.script]
  · have hlive := h.live hopen []
    rwa [(h.drained hopen hlast).ahead_nil, List.append_nil, List.append_nil] at hlive
  · exact Decodes.completes _ h hopen hcalm le_rfl
  · rw [htrace] at hfront
    exact numbered_of_prefix hfront
  · refine hrun.invariant_of (J := Staged) (I := Counted) (fun e hrun' ↦ ?_) ?_
      fun _ _ _ hstaged h _ hstep ↦ h.next hstaged hstep
    · exact hrun'.invariant (staged_start recvs sends cfg now created)
        fun _ _ _ h _ hstep ↦ h.next hstep
    · intro before session n after htrace
      exact absurd htrace (by simp [trace, start])
  · rw [hpackets, cut_sessionFramer hfits]
    exact ⟨rfl, decode_packets hfits⟩

/-- A login answer, a debug packet, two messages and a broken packet, cut inside a length
field, inside a payload and between packets, with an empty read on the way. -/
def sampleSliced : Driven :=
  start
    [.ok [0], .ok (31 :: 'A'.toUInt8 :: List.replicate 29 ' '.toUInt8), .ok [],
      .ok ['5'.toUInt8, 0, 2, '+'.toUInt8, 1, 0, 3, 'S'.toUInt8, 7], .ok [8, 0, 1],
      .ok ['S'.toUInt8], .ok [0, 0, 0]]
    [.ok 49] {} 0 0

theorem inbound_decodes_sliced :
    ∃ d ∈ Machine.follow next sampleSliced
        [.poll 1, .poll 1, .queueUnsequenced [1], .poll 1, .poll 1, .poll 1],
      d.trace.length = 4 ∧ dataOf d.trace = [([7, 8], 5), ([], 6)] ∧
      upToFinal d.trace = decode (64 * 1024) (landing sampleSliced.client.transport.recvs) := by
  have hend : ∃ d ∈ Machine.follow next sampleSliced
        [.poll 1, .poll 1, .queueUnsequenced [1], .poll 1, .poll 1, .poll 1],
      d.trace.length = 4 ∧ dataOf d.trace = [([7, 8], 5), ([], 6)] ∧
      ∃ o ∈ d.trace, Final o := by decide +kernel
  obtain ⟨d, hd, hlength, hdata, hfinal⟩ := hend
  have hrun : Reaches sampleSliced d :=
    Machine.Run.of_follow (Machine.allowedAlong_of_forall (fun _ _ ↦ trivial) _ _) hd
  exact ⟨d, hd, hlength, hdata, (inbound_decodes hrun).2.2.1 hfinal⟩

end Driven

end SoupBin
