import PolarisTrade.SoupBin.Segmentation

/-!
# Behind a final outcome

A framing error leaves the broken packet at the front of the buffer, so every later call meets
it again; a close lets nothing more be read.  What the client answers behind a final outcome
are therefore errors only, and no message is found there.
-/

namespace SoupBin

open Transport Word

namespace Session

/-- Nothing more can be read: the session is closed, or a broken packet is in front. -/
def Stuck (s : Session) : Prop :=
  s.state = .closed ∨ ∃ e, (sessionFramer s.cfg.maxFrameSize).frame s.decodeBuf = .bad e

/-- A session that differs in its outbound side only, or is closed. -/
theorem Stuck.keep {s s' : Session} (h : s.Stuck)
    (hstate : s'.state = s.state ∨ s'.state = .closed) (hcfg : s'.cfg = s.cfg)
    (hbuf : s'.decodeBuf = s.decodeBuf) : s'.Stuck := by
  rcases hstate with hstate | hclosed
  · unfold Stuck
    rwa [hstate, hcfg, hbuf]
  · exact Or.inl hclosed

section Dispatch

variable {α : Type} {decide : PacketFrame → Session → Option (Except SoupBinError α × Session)}
  {s s' : Session} {r : Except SoupBinError (Option α)} {e : SoupBinError}

theorem Dispatched.of_bad (h : Dispatched decide s r s')
    (hbad : (sessionFramer s.cfg.maxFrameSize).frame s.decodeBuf = .bad e) :
    r = .error e ∧ s' = s := by
  cases h with
  | waiting hframe =>
      rw [hbad] at hframe
      cases hframe
  | broken e' hframe =>
      rw [hbad] at hframe
      cases hframe
      exact ⟨rfl, rfl⟩
  | dropped p n hframe =>
      rw [hbad] at hframe
      cases hframe
  | decided p n hframe =>
      rw [hbad] at hframe
      cases hframe

/-- A framing error is left in front of the buffer. -/
theorem Dispatched.bad_of_isFraming
    (hdecide : ∀ q s e s', decide q s = some (.error e, s') → ¬ e.IsFraming)
    (h : Dispatched decide s r s') (hr : r = .error e) (he : e.IsFraming) :
    (sessionFramer s'.cfg.maxFrameSize).frame s'.decodeBuf = .bad e := by
  induction h with
  | waiting hframe => cases hr
  | broken e' hframe =>
      cases hr
      exact hframe
  | dropped p n _ _ _ ih => exact ih hr
  | @decided s s' r p n hframe hd =>
      rcases r with e' | a
      · cases hr
        exact (hdecide p _ e s' hd he).elim
      · cases hr

end Dispatch

/-- A packet that was framed is never refused for its framing. -/
theorem loginPacket_not_isFraming (now : Instant) (q : PacketFrame) (s : Session)
    (e : SoupBinError) (s' : Session) (h : loginPacket now q s = some (.error e, s')) :
    ¬ e.IsFraming := by
  obtain ⟨ty, payload⟩ := q
  cases ty with
  | loginAccepted =>
      simp only [loginPacket] at h
      cases hparse : parseLoginAccepted payload with
      | error e' =>
          rw [hparse] at h
          cases h
          exact (parseLoginAccepted_error hparse).2
      | ok fields =>
          rw [hparse] at h
          dsimp only at h
          cases hfield : parseAsciiField fields.1.1 with
          | error e' =>
              rw [hfield] at h
              cases h
              rw [parseAsciiField_error hfield]
              exact id
          | ok id =>
              rw [hfield] at h
              cases h
  | loginRejected =>
      cases payload with
      | nil => cases h; exact id
      | cons reason rest => cases h
  | debug => cases h
  | serverHeartbeat => cases h
  | _ => cases h; exact id

theorem streamPacket_not_isFraming (q : PacketFrame) (s : Session) (e : SoupBinError)
    (s' : Session) (h : streamPacket q s = some (.error e, s')) : ¬ e.IsFraming := by
  obtain ⟨ty, payload⟩ := q
  cases ty with
  | sequencedData => cases h
  | serverHeartbeat => cases h
  | endOfSession => cases h
  | debug => cases h
  | _ => cases h; exact id

theorem dispatchLogin_of_bad {s : Session} {e : SoupBinError} (now : Instant)
    (hbad : (sessionFramer s.cfg.maxFrameSize).frame s.decodeBuf = .bad e) :
    s.dispatchLogin now = (.error e, s) := by
  obtain ⟨hr, hs⟩ := (s.dispatchLogin_dispatched now).of_bad hbad
  exact Prod.ext hr hs

theorem dispatchStream_of_bad {s : Session} {e : SoupBinError}
    (hbad : (sessionFramer s.cfg.maxFrameSize).frame s.decodeBuf = .bad e) :
    s.dispatchStream = (.error e, s) := by
  obtain ⟨hr, hs⟩ := s.dispatchStream_dispatched.of_bad hbad
  exact Prod.ext hr hs

/-- A final answer to a packet of the login leaves the session stuck. -/
theorem stuck_dispatchLogin (s : Session) (now : Instant) :
    (∀ e, (s.dispatchLogin now).1 = .error e → e.IsFraming → (s.dispatchLogin now).2.Stuck) ∧
    ∀ reason, (s.dispatchLogin now).1 = .ok (some (.rejected reason)) →
      (s.dispatchLogin now).2.Stuck := by
  refine ⟨fun e hr he ↦ Or.inr ⟨e, ?_⟩, fun reason hr ↦ Or.inl ?_⟩
  · exact (s.dispatchLogin_dispatched now).bad_of_isFraming (loginPacket_not_isFraming now) hr he
  · have heffect := s.dispatchLogin_effect now
    rw [hr] at heffect
    obtain ⟨buf, hs⟩ := heffect
    rw [hs]

theorem stuck_dispatchStream (s : Session) :
    (∀ e, s.dispatchStream.1 = .error e → e.IsFraming → s.dispatchStream.2.Stuck) ∧
    (s.dispatchStream.1 = .ok (some (.event .endOfSession)) → s.dispatchStream.2.Stuck) := by
  refine ⟨fun e hr he ↦ Or.inr ⟨e, ?_⟩, fun hr ↦ Or.inl ?_⟩
  · exact s.dispatchStream_dispatched.bad_of_isFraming streamPacket_not_isFraming hr he
  · have heffect := s.dispatchStream_effect
    rw [hr] at heffect
    obtain ⟨buf, hs⟩ := heffect
    rw [hs]

end Session

/-! ## The receive loop -/

section Loop

variable {α : Type} {dispatch : Session → Except SoupBinError (Option α) × Session}
  {now : Instant} {s s' : Session} {t t' : Stream} {r : Except SoupBinError (Option α)}

theorem Looped.of_error (h : Looped dispatch now s t r s' t') {e : SoupBinError}
    (hd : dispatch s = (.error e, s)) : r = .error e ∧ s' = s ∧ t' = t := by
  cases h with
  | failed e' hd' =>
      rw [hd] at hd'
      cases hd'
      exact ⟨rfl, rfl, rfl⟩
  | found a hd' =>
      rw [hd] at hd'
      cases hd'
  | unreadable e' hd' =>
      rw [hd] at hd'
      cases hd'
  | drained hd' =>
      rw [hd] at hd'
      cases hd'
  | landed hd' =>
      rw [hd] at hd'
      cases hd'

/-- The loop ends in a dispatch, or in a failure of the transport. -/
theorem Looped.last (h : Looped dispatch now s t r s' t') :
    (∃ s₀, dispatch s₀ = (r, s')) ∨ ∃ e, r = .error (.transport e) := by
  induction h with
  | failed e hd => exact Or.inl ⟨_, hd⟩
  | found a hd => exact Or.inl ⟨_, hd⟩
  | unreadable e => exact Or.inr ⟨e, rfl⟩
  | drained hd => exact Or.inl ⟨_, hd⟩
  | landed _ _ _ _ ih => exact ih

end Loop

namespace SoupBinClient

variable {c c' : SoupBinClient} {now : Instant}
  {answer : Except SoupBinError (Option SoupBinMessage)}

theorem Flushed.stuck (h : c.Flushed now c') (hstuck : c.session.Stuck) : c'.session.Stuck := by
  obtain ⟨n, lastSend, sends, rfl, -, -⟩ := h
  exact hstuck.keep (Or.inl rfl) rfl rfl

/-- What a stuck session answers: nothing inbound, or an error. -/
def Mute (answer : Except SoupBinError (Option SoupBinMessage)) : Prop :=
  ∀ o, inbound answer = some o → ∃ e, o = .error e

theorem eq_of_inbound_error {e : SoupBinError} {o : Outcome}
    (h : inbound (.error e) = some o) : o = .error e := by
  change (if e.IsProtocol then some (.error e) else none) = some o at h
  split at h
  · exact (Option.some.inj h).symm
  · cases h

theorem mute_error (e : SoupBinError) : Mute (.error e) :=
  fun _ ho ↦ ⟨e, eq_of_inbound_error ho⟩

theorem mute_of_inbound (h : inbound answer = none) : Mute answer := by
  intro o ho
  rw [h] at ho
  cases ho

theorem Advanced.stuck {queued : List PacketFrame} (h : c.Advanced now answer c' queued)
    (hstuck : c.session.Stuck) : Mute answer ∧ c'.session.Stuck := by
  have hheartbeat : ∀ {c'}, Flushed ⟨c.transport, c.session.queueHeartbeat.2⟩ now c' →
      c'.session.Stuck := by
    intro c' hflushed
    refine hflushed.stuck (hstuck.keep (Or.inl ?_) ?_ ?_) <;>
      rw [Session.queueHeartbeat, Session.queue_of_le (Nat.zero_le _)]
  have hlogin : ∀ {r s t}, c.session.state = .authenticating →
      Looped (fun s ↦ s.dispatchLogin now) now c.session c.transport r s t →
      ∃ e, r = .error e ∧ s = c.session := by
    intro r s t hstate hlooped
    rcases hstuck with hclosed | ⟨e, hbad⟩
    · rw [hstate] at hclosed
      cases hclosed
    · obtain ⟨hr, hs, -⟩ := hlooped.of_error (Session.dispatchLogin_of_bad now hbad)
      exact ⟨e, hr, hs⟩
  have hstream : ∀ {r s t}, c.session.state = .streaming →
      Looped Session.dispatchStream now c.session c.transport r s t →
      ∃ e, r = .error e ∧ s = c.session := by
    intro r s t hstate hlooped
    rcases hstuck with hclosed | ⟨e, hbad⟩
    · rw [hstate] at hclosed
      cases hclosed
    · obtain ⟨hr, hs, -⟩ := hlooped.of_error (Session.dispatchStream_of_bad hbad)
      exact ⟨e, hr, hs⟩
  cases h with
  | ended => exact ⟨mute_error _, hstuck⟩
  | closing => exact ⟨mute_of_inbound rfl, hstuck⟩
  | loginFailed e hstate hlooped =>
      obtain ⟨-, -, rfl⟩ := hlogin hstate hlooped
      exact ⟨mute_error e, hstuck⟩
  | loginFound login hstate hlooped =>
      obtain ⟨e, hr, -⟩ := hlogin hstate hlooped
      cases hr
  | loginTimedOut => exact ⟨mute_error _, Or.inl rfl⟩
  | loginIdle hstate hlooped =>
      obtain ⟨e, hr, -⟩ := hlogin hstate hlooped
      cases hr
  | heartbeatUnsent e _ _ hflushed => exact ⟨mute_error _, hheartbeat hflushed⟩
  | heartbeatSent _ _ hflushed => exact ⟨mute_of_inbound rfl, hheartbeat hflushed⟩
  | streamFailed e hstate _ hlooped =>
      obtain ⟨-, -, rfl⟩ := hstream hstate hlooped
      exact ⟨mute_error e, hstuck⟩
  | streamFound streamed hstate _ hlooped =>
      obtain ⟨e, hr, -⟩ := hstream hstate hlooped
      cases hr
  | streamTimedOut => exact ⟨mute_of_inbound rfl, Or.inl rfl⟩
  | streamIdle hstate _ hlooped =>
      obtain ⟨e, hr, -⟩ := hstream hstate hlooped
      cases hr

/-- A stuck session stays stuck, and finds no message. -/
theorem poll_stuck (hstuck : c.session.Stuck) (now : Instant) :
    Mute (c.poll now).1 ∧ (c.poll now).2.session.Stuck := by
  have hpolled := c.poll_polled now
  generalize (c.poll now).1 = answer at hpolled ⊢
  generalize (c.poll now).2 = c' at hpolled ⊢
  generalize c.heartbeats now = queued at hpolled
  cases hpolled with
  | unsent e hflushed => exact ⟨mute_error _, hflushed.stuck hstuck⟩
  | advanced hflushed hadvanced => exact hadvanced.stuck (hflushed.stuck hstuck)

theorem Advanced.final {queued : List PacketFrame} (h : c.Advanced now answer c' queued)
    {o : Outcome} (ho : inbound answer = some o) (hfinal : Final o) : c'.session.Stuck := by
  have herror : ∀ {e : SoupBinError}, inbound (.error e) = some o → e.IsFraming := by
    intro e ho
    rw [eq_of_inbound_error ho] at hfinal
    exact hfinal
  cases h with
  | ended => cases ho
  | closing => cases ho
  | loginFailed e _ hlooped =>
      rcases hlooped.last with ⟨s₀, hd⟩ | ⟨e', he'⟩
      · have hstuck := (s₀.stuck_dispatchLogin now).1 e
        rw [hd] at hstuck
        exact hstuck rfl (herror ho)
      · cases he'
        cases ho
  | loginFound login _ hlooped =>
      rcases hlooped.last with ⟨s₀, hd⟩ | ⟨e', he'⟩
      · cases login with
        | accepted session sequence =>
            cases ho
            exact hfinal.elim
        | rejected reason =>
            have hstuck := (s₀.stuck_dispatchLogin now).2 reason
            rw [hd] at hstuck
            exact hstuck rfl
      · cases he'
  | loginTimedOut => exact Or.inl rfl
  | loginIdle => cases ho
  | heartbeatUnsent => cases ho
  | heartbeatSent => cases ho
  | streamFailed e _ _ hlooped =>
      rcases hlooped.last with ⟨s₀, hd⟩ | ⟨e', he'⟩
      · have hstuck := s₀.stuck_dispatchStream.1 e
        rw [hd] at hstuck
        exact hstuck rfl (herror ho)
      · cases he'
        cases ho
  | streamFound streamed _ _ hlooped =>
      rcases hlooped.last with ⟨s₀, hd⟩ | ⟨e', he'⟩
      · have hstuck := s₀.stuck_dispatchStream.2
        have heffect := s₀.dispatchStream_effect
        rw [hd] at hstuck heffect
        cases streamed with
        | data sequence =>
            cases ho
            exact hfinal.elim
        | event ev =>
            cases ev with
            | endOfSession => exact hstuck rfl
            | heartbeatReceived =>
                cases ho
                exact hfinal.elim
            | _ => exact heffect.elim
      · cases he'
  | streamTimedOut => exact Or.inl rfl
  | streamIdle => cases ho

/-- A final outcome leaves the session stuck. -/
theorem poll_final {o : Outcome} (ho : inbound (c.poll now).1 = some o) (hfinal : Final o) :
    (c.poll now).2.session.Stuck := by
  have hpolled := c.poll_polled now
  generalize (c.poll now).1 = answer at hpolled ho
  generalize (c.poll now).2 = c' at hpolled ⊢
  generalize c.heartbeats now = queued at hpolled
  cases hpolled with
  | unsent e => cases ho
  | advanced _ hadvanced => exact hadvanced.final ho hfinal

end SoupBinClient

/-! ## Whole runs -/

/-- Errors only behind the first final outcome. -/
def ErrorsBehind (os : List Outcome) : Prop :=
  ∃ more, os = upToFinal os ++ more ∧ ∀ o ∈ more, ∃ e, o = .error e

theorem ErrorsBehind.append_of_final {os : List Outcome} (h : ErrorsBehind os)
    (hfinal : ∃ o ∈ os, Final o) {more : List Outcome} (hmore : ∀ o ∈ more, ∃ e, o = .error e) :
    ErrorsBehind (os ++ more) := by
  obtain ⟨errors, hos, herrors⟩ := h
  refine ⟨errors ++ more, ?_, fun o ho ↦ ?_⟩
  · rw [upToFinal_append_of_final hfinal, ← List.append_assoc, ← hos]
  · exact (List.mem_append.mp ho).elim (herrors o) (hmore o)

theorem ErrorsBehind.append_of_not {os : List Outcome} (h : ∀ o ∈ os, ¬ Final o) (o : Outcome) :
    ErrorsBehind (os ++ [o]) := by
  refine ⟨[], ?_, by simp⟩
  rw [upToFinal_append_of_not h, List.append_nil]
  congr 1
  unfold upToFinal
  split <;> rfl

theorem ErrorsBehind.dataOf_eq {os : List Outcome} (h : ErrorsBehind os) :
    dataOf os = dataOf (upToFinal os) := by
  obtain ⟨more, hos, hmore⟩ := h
  have hnone : dataOf more = [] := by
    rw [dataOf, List.filterMap_eq_nil_iff]
    intro o ho
    obtain ⟨e, rfl⟩ := hmore o ho
    rfl
  conv_lhs => rw [hos]
  rw [dataOf_append, hnone, List.append_nil]

theorem ErrorsBehind.mem_upToFinal {os : List Outcome} (h : ErrorsBehind os) {m : SoupBinMessage}
    (hm : .ok m ∈ os) : .ok m ∈ upToFinal os := by
  obtain ⟨more, hos, hmore⟩ := h
  rw [hos] at hm
  rcases List.mem_append.mp hm with hm | hm
  · exact hm
  · obtain ⟨e, he⟩ := hmore _ hm
    cases he

namespace Driven

/-- A run that met a final outcome is stuck, and what came behind it are errors. -/
structure Settled (d : Driven) : Prop where
  stuck : (∃ o ∈ d.trace, Final o) → d.client.session.Stuck
  behind : ErrorsBehind d.trace

theorem settled_start (recvs : List (Except TransportError (List UInt8)))
    (sends : List (Except TransportError ℕ)) (cfg : SoupBinClientConfig) (now created : Instant) :
    (start recvs sends cfg now created).Settled := by
  refine ⟨?_, ⟨[], rfl, by simp⟩⟩
  rintro ⟨o, ho, -⟩
  cases ho

theorem Settled.poll {d : Driven} (h : d.Settled) (now : Instant) (queued : List PacketFrame) :
    Settled ⟨(d.client.poll now).2, d.results ++ [(d.client.poll now).1], queued⟩ := by
  have htrace := d.trace_append (d.client.poll now).2 queued (d.client.poll now).1
  by_cases hfinal : ∃ o ∈ d.trace, Final o
  · obtain ⟨hmute, hstuck⟩ := SoupBinClient.poll_stuck (h.stuck hfinal) now
    refine ⟨fun _ ↦ hstuck, ?_⟩
    rw [htrace]
    refine h.behind.append_of_final hfinal fun o ho ↦ hmute o ?_
    exact Option.mem_toList.mp ho
  · push Not at hfinal
    cases hinbound : inbound (d.client.poll now).1 with
    | none =>
        rw [hinbound, Option.toList_none, List.append_nil] at htrace
        refine ⟨?_, by rw [htrace]; exact h.behind⟩
        rw [htrace]
        rintro ⟨o, ho, hfinal'⟩
        exact (hfinal o ho hfinal').elim
    | some o =>
        rw [hinbound, Option.toList_some] at htrace
        refine ⟨?_, by rw [htrace]; exact .append_of_not hfinal o⟩
        rw [htrace]
        rintro ⟨o', ho', hfinal'⟩
        rcases List.mem_append.mp ho' with hold | hnew
        · exact (hfinal o' hold hfinal').elim
        · obtain rfl := List.mem_singleton.mp hnew
          exact SoupBinClient.poll_final hinbound hfinal'

theorem Settled.next {d d' : Driven} {call : Call} (h : d.Settled)
    (hnext : d.next call = some d') : d'.Settled := by
  cases call with
  | poll now =>
      cases hnext
      exact h.poll now _
  | queueUnsequenced payload =>
      cases hnext
      rcases d.client.queueUnsequenced_cases payload with
        ⟨-, hcall⟩ | ⟨-, -, hcall⟩ | ⟨-, -, hcall⟩
      all_goals
        rw [hcall]
        exact ⟨fun hfinal ↦ (h.stuck hfinal).keep (Or.inl rfl) rfl rfl, h.behind⟩
  | queueLogout =>
      cases hnext
      rcases d.client.queueLogout_cases with ⟨-, hcall⟩ | ⟨-, hcall⟩
      · rw [hcall]
        exact ⟨h.stuck, h.behind⟩
      · rw [hcall]
        exact ⟨fun hfinal ↦ (h.stuck hfinal).keep (Or.inr rfl) rfl rfl, h.behind⟩

theorem settled_of_reaches {recvs : List (Except TransportError (List UInt8))}
    {sends : List (Except TransportError ℕ)} {cfg : SoupBinClientConfig} {now created : Instant}
    {d : Driven} (hrun : Reaches (start recvs sends cfg now created) d) : d.Settled :=
  hrun.invariant (settled_start recvs sends cfg now created) fun _ _ _ h _ hstep ↦ h.next hstep

end Driven

end SoupBin
