import PolarisTrade.SoupBin.Fields
import PolarisTrade.SoupBin.Final

/-!
# Resuming over successive connections

A server numbers the messages of a session from one on and keeps them in a log.  It answers a
login with the number of the first message it will send, the requested one unless zero was
requested, and sends the log from there.  A connection may break anywhere.  A caller that logs
in again with `next_expected_sequence`, once it has been logged in at all, is then handed the
log in order, each message once.
-/

namespace SoupBin

open Transport Word

/-! ## The server -/

/-- What a server that keeps `log` sends to a login request: any packets, but behind a
`Login Accepted` the messages are those of the log from its sequence on, and the sequence is
the requested one unless that was zero. -/
def Answers (log : List (List UInt8)) (request : List UInt8) (packets : List PacketFrame) :
    Prop :=
  ∀ before payload after, packets = before ++ ⟨.loginAccepted, payload⟩ :: after →
    ∃ (name : String) (n : UInt64) (trailing : List UInt8) (asked : ℕ),
      payload = loginAcceptedPayload name n trailing ∧
      parseAsciiNumeric (request.extract 26 46) = .ok asked ∧ (asked ≠ 0 → n.toNat = asked) ∧
      0 < n.toNat ∧ sequenced after <+: log.drop (n.toNat - 1)

/-- A server that gets to send all it has: nothing that needs an answer before the login is
accepted, then the rest of the log, with heartbeats and debug packets between the messages, and
`End of Session` behind them if the session is over. -/
structure Whole (log : List (List UInt8)) (maxFrameSize : ℕ) (n : UInt64)
    (packets : List PacketFrame) : Prop where
  fits : ∀ p ∈ packets, p.payload.length < 65535 ∧ 3 + p.payload.length ≤ maxFrameSize
  shape : ∃ greeting name trailing rest ending,
    packets =
      greeting ++ ⟨.loginAccepted, loginAcceptedPayload name n trailing⟩ :: (rest ++ ending) ∧
    (∀ p ∈ greeting, p.ty = .debug ∨ p.ty = .serverHeartbeat) ∧
    (asBytes name).length ≤ 10 ∧ Text.Bare isWhitespace name.toList ∧
    (∀ p ∈ rest, p.ty = .sequencedData ∨ p.ty = .debug ∨ p.ty = .serverHeartbeat) ∧
    (ending = [] ∨ ∃ payload, ending = [⟨.endOfSession, payload⟩]) ∧
    sequenced rest = log.drop (n.toNat - 1)

/-- The bytes of a connection: packets of such a server, broken off anywhere. -/
def Serves (log : List (List UInt8)) (cfg : SoupBinClientConfig) (bytes : List UInt8) : Prop :=
  ∃ packets, (∀ p ∈ packets, p.payload.length < 65535) ∧
    bytes <+: packets.flatMap PacketFrame.bytes ∧ Answers log (loginRequest cfg) packets

theorem sequenced_append (ps qs : List PacketFrame) :
    sequenced (ps ++ qs) = sequenced ps ++ sequenced qs := by
  unfold sequenced
  rw [List.filter_append, List.map_append]

/-- Such a server answers a request for zero from anywhere in its log, and any other one from
the message requested. -/
theorem Whole.serves {log : List (List UInt8)} {maxFrameSize : ℕ} {n : UInt64}
    {packets : List PacketFrame} {cfg : SoupBinClientConfig} {bytes : List UInt8}
    (h : Whole log maxFrameSize n packets) (hpos : 0 < n.toNat)
    (hasked : cfg.requestedSequenceNumber.toNat ≠ 0 → n = cfg.requestedSequenceNumber)
    (hbytes : bytes <+: packets.flatMap PacketFrame.bytes) : Serves log cfg bytes := by
  refine ⟨packets, fun p hp ↦ (h.fits p hp).1, hbytes, fun before payload after hsplit ↦ ?_⟩
  obtain ⟨greeting, name, trailing, rest, ending, hpackets, hgreeting, -, -, hrest, hending,
    hlog⟩ := h.shape
  rw [hpackets] at hsplit
  have hbehind : ∀ p ∈ rest ++ ending, p.ty ≠ .loginAccepted := by
    intro p hp hty
    rcases List.mem_append.mp hp with hp | hp
    · rcases hrest p hp with h | h | h <;> cases h.symm.trans hty
    · rcases hending with rfl | ⟨payload, rfl⟩
      · cases hp
      · rw [List.mem_singleton.mp hp] at hty
        cases hty
  -- the login is the only packet of its type
  have hsame : greeting = before ∧ loginAcceptedPayload name n trailing = payload ∧
      rest ++ ending = after := by
    rcases List.append_eq_append_iff.mp hsplit with ⟨more, rfl, hmore⟩ | ⟨more, rfl, hmore⟩
    · cases more with
      | nil =>
          obtain ⟨hq, hrest'⟩ := List.cons.inj hmore
          cases hq
          exact ⟨(List.append_nil _).symm, rfl, hrest'⟩
      | cons q more =>
          obtain ⟨-, hmore⟩ := List.cons.inj hmore
          exact absurd rfl (hbehind ⟨.loginAccepted, payload⟩ (by rw [hmore]; simp))
    · cases more with
      | nil =>
          obtain ⟨hq, hrest'⟩ := List.cons.inj hmore
          cases hq
          exact ⟨List.append_nil _, rfl, hrest'.symm⟩
      | cons q more =>
          obtain ⟨rfl, -⟩ := List.cons.inj hmore
          rcases hgreeting ⟨.loginAccepted, payload⟩ (by simp) with hty | hty <;> cases hty
  obtain ⟨rfl, rfl, rfl⟩ := hsame
  refine ⟨name, n, trailing, cfg.requestedSequenceNumber.toNat, rfl,
    parseAsciiNumeric_loginRequest cfg, fun hne ↦ by rw [hasked hne], hpos, ?_⟩
  have hnone : sequenced ending = [] := by
    rcases hending with rfl | ⟨payload, rfl⟩
    · rfl
    · rfl
  rw [← hlog, sequenced_append, hnone, List.append_nil]

theorem numbered_isPrefix (n : ℕ) {ps qs : List (List UInt8)} (h : ps <+: qs) :
    numbered n ps <+: numbered n qs := by
  obtain ⟨rest, rfl⟩ := h
  unfold numbered
  rw [List.mapIdx_append]
  exact List.prefix_append _ _

theorem numbered_append (n : ℕ) (ps qs : List (List UInt8)) :
    numbered n (ps ++ qs) = numbered n ps ++ numbered (n + ps.length) qs := by
  unfold numbered
  rw [List.mapIdx_append]
  congr 2
  funext k payload
  rw [Nat.add_comm k, Nat.add_assoc]

@[simp] theorem length_numbered (n : ℕ) (ps : List (List UInt8)) :
    (numbered n ps).length = ps.length := List.length_mapIdx

/-- Numbering goes on where it was broken off. -/
theorem numbered_resume {n : ℕ} {ps : List (List UInt8)} {xs ys : List (List UInt8 × ℕ)}
    (hxs : xs <+: numbered n ps) (hys : ys <+: numbered (n + xs.length) (ps.drop xs.length)) :
    xs ++ ys <+: numbered n ps := by
  have hle := hxs.length_le
  rw [length_numbered] at hle
  have hsplit := numbered_append n (ps.take xs.length) (ps.drop xs.length)
  rw [List.take_append_drop, List.length_take, Nat.min_eq_left hle] at hsplit
  have hfront : xs = numbered n (ps.take xs.length) := by
    have htake := List.prefix_iff_eq_take.mp hxs
    rwa [hsplit, List.take_left' (by simp [hle])] at htake
  rw [hsplit, ← hfront]
  exact (List.prefix_append_right_inj xs).mpr hys

/-- Whatever the size limit of a client is, it finds the packets that were sent, in order. -/
theorem cut_isPrefix_packets {packets : List PacketFrame} {bytes : List UInt8}
    (maxFrameSize : ℕ) (hfits : ∀ p ∈ packets, p.payload.length < 65535)
    (hbytes : bytes <+: packets.flatMap PacketFrame.bytes) :
    ((sessionFramer maxFrameSize).cut bytes).1 <+: packets := by
  refine Framer.cut_isPrefix PacketFrame.bytes rfl (fun p hp tail q n hframe ↦ ?_) hbytes
  have hparse := parsePacket_bytes (hfits p hp) tail
  have htake := toFramed_item.mp hframe
  -- the size check may refuse the packet, but if it does not the parser finds it
  have hsame : takeFrame maxFrameSize (p.bytes ++ tail) = parsePacket (p.bytes ++ tail) := by
    rcases takeFrame_cases maxFrameSize (p.bytes ++ tail) with hnone | ⟨size, hbad⟩ | hparse
    · rw [hnone] at htake
      cases htake
    · rw [← List.append_nil (p.bytes ++ tail), hbad] at htake
      cases htake
    · simpa using hparse []
  rw [hsame, hparse] at htake
  cases htake
  exact ⟨rfl, rfl⟩

/-! ## One connection -/

namespace Phase

theorem read_append (p : Phase) (qs qs' : List PacketFrame) :
    p.read (qs ++ qs') =
      ((p.read qs).1 ++ ((p.read qs).2.read qs').1, ((p.read qs).2.read qs').2) := by
  induction qs generalizing p with
  | nil => rfl
  | cons q qs ih => simp [read, ih, List.append_assoc]

theorem read_greeting {greeting : List PacketFrame}
    (h : ∀ p ∈ greeting, p.ty = .debug ∨ p.ty = .serverHeartbeat) :
    authenticating.read greeting = ([], authenticating) := by
  induction greeting with
  | nil => rfl
  | cons q qs ih =>
      rw [List.forall_mem_cons] at h
      obtain ⟨ty, payload⟩ := q
      have hstep : authenticating.step ⟨ty, payload⟩ = (none, authenticating) := by
        rcases h.1 with rfl | rfl <;> rfl
      rw [read, hstep, ih h.2]
      rfl

/-- A stream that is not ended is read to its end. -/
theorem read_streaming_whole {n : ℕ} (hn : n < 2 ^ 64) {rest : List PacketFrame}
    (h : ∀ p ∈ rest, p.ty = .sequencedData ∨ p.ty = .debug ∨ p.ty = .serverHeartbeat) :
    dataOf ((streaming n).read rest).1 = numbered n (sequenced rest) ∧
      (∀ o ∈ ((streaming n).read rest).1, ¬ Final o) ∧
      ∃ m, ((streaming n).read rest).2 = streaming m := by
  induction rest generalizing n with
  | nil => exact ⟨rfl, by simp [read], n, rfl⟩
  | cons q rest ih =>
      rw [List.forall_mem_cons] at h
      obtain ⟨ty, payload⟩ := q
      rcases h.1 with hty | hty | hty
      · obtain rfl : ty = .sequencedData := hty
        have hlt : wrappingAdd n 1 < 2 ^ 64 := Nat.mod_lt _ (Nat.two_pow_pos 64)
        obtain ⟨hdata, hfinal, m, hend⟩ := ih hlt h.2
        have hsequenced : sequenced (⟨.sequencedData, payload⟩ :: rest) =
            payload :: sequenced rest := by simp [sequenced]
        refine ⟨?_, ?_, m, hend⟩
        · rw [hsequenced, numbered_cons hn, ← hdata]
          rfl
        · exact List.forall_mem_cons.mpr ⟨id, hfinal⟩
      · obtain rfl : ty = .debug := hty
        exact ih hn h.2
      · obtain rfl : ty = .serverHeartbeat := hty
        obtain ⟨hdata, hfinal, m, hend⟩ := ih hn h.2
        exact ⟨hdata, List.forall_mem_cons.mpr ⟨id, hfinal⟩, m, hend⟩

/-- Behind the stream there is nothing, or its end. -/
theorem read_ending {m : ℕ} {ending : List PacketFrame}
    (h : ending = [] ∨ ∃ payload, ending = [⟨.endOfSession, payload⟩]) :
    dataOf ((streaming m).read ending).1 = [] ∧
      upToFinal ((streaming m).read ending).1 = ((streaming m).read ending).1 := by
  rcases h with rfl | ⟨payload, rfl⟩
  · exact ⟨rfl, rfl⟩
  · exact ⟨rfl, rfl⟩

end Phase

/-- All of it is decoded. -/
theorem Whole.dataOf_decode {log : List (List UInt8)} {maxFrameSize : ℕ} {n : UInt64}
    {packets : List PacketFrame} (h : Whole log maxFrameSize n packets) :
    dataOf (decode maxFrameSize (packets.flatMap PacketFrame.bytes)) =
        numbered n.toNat (log.drop (n.toNat - 1)) ∧
      ∃ session, .ok (.event (.loginAccepted session n.toNat)) ∈
        decode maxFrameSize (packets.flatMap PacketFrame.bytes) := by
  obtain ⟨greeting, name, trailing, rest, ending, hpackets, hgreeting, hname, hbare, hrest,
    hending, hlog⟩ := h.shape
  obtain ⟨hdata, hfinal, m, hend⟩ := Phase.read_streaming_whole n.toNat_lt hrest
  obtain ⟨hnone, hlast⟩ := @Phase.read_ending m ending hending
  have hstep : Phase.authenticating.step
      ⟨.loginAccepted, loginAcceptedPayload name n trailing⟩ =
      (some (.ok (.event (.loginAccepted (sessionOf name) n.toNat))), .streaming n.toNat) := by
    simp [Phase.step, parseLoginAccepted_payload, parseAsciiField_sessionOf hname hbare]
  have hread : (Phase.authenticating.read packets).1 =
      .ok (.event (.loginAccepted (sessionOf name) n.toNat)) ::
        ((Phase.streaming n.toNat).read rest).1 ++ ((Phase.streaming m).read ending).1 := by
    rw [hpackets, Phase.read_append, Phase.read_greeting hgreeting, Phase.read, hstep,
      Phase.read_append, hend]
    rfl
  have hdecode : decode maxFrameSize (packets.flatMap PacketFrame.bytes) =
      .ok (.event (.loginAccepted (sessionOf name) n.toNat)) ::
        ((Phase.streaming n.toNat).read rest).1 ++ ((Phase.streaming m).read ending).1 := by
    rw [decode_packets h.fits, hread, upToFinal_append_of_not, hlast]
    exact List.forall_mem_cons.mpr ⟨id, hfinal⟩
  rw [hdecode]
  refine ⟨?_, sessionOf name, List.mem_cons_self⟩
  rw [dataOf_append, hnone, List.append_nil, ← hlog, ← hdata]
  rfl

/-- The number of the first message a login asks for. -/
def SoupBinClientConfig.asks (cfg : SoupBinClientConfig) : ℕ := cfg.requestedSequenceNumber.toNat

/-- A login in the decoding of what a server sent: accepted where it was requested, and what
comes behind it is the log from there. -/
theorem Serves.of_accepted {log : List (List UInt8)} {cfg : SoupBinClientConfig}
    {bytes : List UInt8} {session : SessionId} {n : ℕ} {before after : List Outcome}
    (hserves : Serves log cfg bytes)
    (h : before ++ .ok (.event (.loginAccepted session n)) :: after <+:
      decode cfg.maxFrameSize bytes) :
    0 < n ∧ n < 2 ^ 64 ∧ (cfg.asks ≠ 0 → n = cfg.asks) ∧ dataOf before = [] ∧
      dataOf after <+: numbered n (log.drop (n - 1)) := by
  obtain ⟨packets, hfits, hbytes, hanswers⟩ := hserves
  obtain ⟨extra, hpackets⟩ := cut_isPrefix_packets cfg.maxFrameSize hfits hbytes
  obtain ⟨more, hmore⟩ := h.trans (upToFinal_isPrefix _)
  rw [List.append_assoc, List.cons_append] at hmore
  obtain ⟨login, payload, rest, hqs, hparse, hbefore, -, hafter⟩ :=
    Phase.read_accepted Phase.not_accepted_of_failed hmore
  rw [hqs, List.append_assoc, List.cons_append] at hpackets
  obtain ⟨name, m, trailing, asked, rfl, hrequest, hasked, hpos, hlog⟩ :=
    hanswers login payload (rest ++ extra) hpackets.symm
  rw [parseLoginAccepted_payload] at hparse
  cases hparse
  rw [parseAsciiNumeric_loginRequest] at hrequest
  cases hrequest
  refine ⟨hpos, m.toNat_lt, hasked, hbefore, ?_⟩
  have hdata := congrArg dataOf hafter
  rw [dataOf_append, dataOf_append, Phase.dataOf_failed, List.append_nil] at hdata
  have hrest : sequenced rest <+: log.drop (m.toNat - 1) := by
    refine List.IsPrefix.trans ?_ hlog
    rw [sequenced_append]
    exact List.prefix_append _ _
  calc dataOf after
      <+: dataOf after ++ dataOf more := List.prefix_append _ _
    _ = dataOf ((Phase.streaming m.toNat).read rest).1 := hdata
    _ <+: numbered m.toNat (sequenced rest) := Phase.dataOf_read_streaming m.toNat_lt rest
    _ <+: numbered m.toNat (log.drop (m.toNat - 1)) := numbered_isPrefix _ hrest

/-- What a connection that was logged in hands out of a log: the messages from the one it was
accepted at on, and the number of the next one. -/
structure Hands (log : List (List UInt8)) (asks n : ℕ) (data : List (List UInt8 × ℕ))
    (next : ℕ) : Prop where
  pos : 0 < n
  lt : n < 2 ^ 64
  asked : asks ≠ 0 → n = asks
  front : data <+: numbered n (log.drop (n - 1))
  next : next = (n + data.length) % 2 ^ 64

/-- With fewer messages than sequences nothing wraps around. -/
theorem Hands.next_eq {log : List (List UInt8)} {asks n next : ℕ} {data : List (List UInt8 × ℕ)}
    (h : Hands log asks n data next) (hlog : log.length + 1 < 2 ^ 64) : next = n + data.length := by
  have hle := h.front.length_le
  have hpos := h.pos
  have hlt := h.lt
  rw [length_numbered, List.length_drop] at hle
  rw [h.next, Nat.mod_eq_of_lt]
  omega

namespace Driven

def loggedIn (d : Driven) : Bool := d.results.any fun r ↦ kind r = .accepted

theorem loggedIn_iff {d : Driven} :
    d.loggedIn = true ↔ ∃ session n, .ok (.event (.loginAccepted session n)) ∈ d.trace := by
  constructor
  · intro h
    obtain ⟨r, hr, hkind⟩ := List.any_eq_true.mp h
    have hkind := of_decide_eq_true hkind
    rcases r with e | _ | ⟨payload, sequence⟩ | ev
    · cases e <;> cases hkind
    · cases hkind
    · cases hkind
    · cases ev with
      | loginAccepted session n => exact ⟨session, n, List.mem_filterMap.mpr ⟨_, hr, rfl⟩⟩
      | _ => cases hkind
  · rintro ⟨session, n, hmem⟩
    obtain ⟨r, hr, hinbound⟩ := List.mem_filterMap.mp hmem
    obtain rfl := eq_of_inbound hinbound
    exact List.any_eq_true.mpr ⟨_, hr, rfl⟩

/-- No message is handed out before a login. -/
theorem Staged.dataOf_eq_nil {d : Driven} (h : d.Staged) (hnone : ¬ d.loggedIn = true) :
    dataOf d.trace = [] := by
  rw [List.eq_nil_iff_forall_not_mem]
  rintro ⟨payload, sequence⟩ hmem
  obtain ⟨o, ho, hdata⟩ := List.mem_filterMap.mp hmem
  obtain ⟨r, hr, hinbound⟩ := List.mem_filterMap.mp ho
  have hkind : kind r = .streamed := by
    rcases o with e | ⟨payload', sequence'⟩ | ev
    · cases hdata
    · rw [eq_of_inbound hinbound]
      rfl
    · cases hdata
  obtain ⟨before, rest, hresults⟩ := List.append_of_mem hr
  obtain ⟨a, ha, hakind⟩ := h.after before r rest hresults (.inl hkind)
  refine hnone (List.any_eq_true.mpr ⟨a, ?_, decide_eq_true hakind⟩)
  rw [hresults]
  exact List.mem_append_left _ ha

variable {recvs : List (Except TransportError (List UInt8))}
  {sends : List (Except TransportError ℕ)} {cfg : SoupBinClientConfig} {now created : Instant}
  {d : Driven}

theorem staged_of_reaches (hrun : Reaches (start recvs sends cfg now created) d) : d.Staged :=
  hrun.invariant (staged_start recvs sends cfg now created) fun _ _ _ h _ hstep ↦ h.next hstep

theorem decodes_of_reaches (hrun : Reaches (start recvs sends cfg now created) d) :
    d.Decodes cfg.maxFrameSize (landing recvs) :=
  hrun.invariant (decodes_start recvs sends cfg now created) fun _ _ _ h _ hstep ↦ h.next hstep

theorem counted_of_reaches (hrun : Reaches (start recvs sends cfg now created) d) :
    d.Counted := by
  refine hrun.invariant_of (fun _ ↦ staged_of_reaches) ?_
    fun _ _ _ hstaged h _ hstep ↦ h.next hstaged hstep
  intro before session n after htrace
  exact absurd htrace (by simp [trace, start])

theorem hands_of_reaches {log : List (List UInt8)} {session : SessionId} {n : ℕ}
    (hserves : Serves log cfg (landing recvs))
    (hrun : Reaches (start recvs sends cfg now created) d)
    (hmem : .ok (.event (.loginAccepted session n)) ∈ d.trace) :
    Hands log cfg.asks n (dataOf d.trace) d.client.session.nextExpectedSequence := by
  have hbehind := (settled_of_reaches hrun).behind
  have hdecodes := decodes_of_reaches hrun
  have hfront := hdecodes.front (landing d.client.transport.recvs)
  rw [hdecodes.script] at hfront
  obtain ⟨before, after, hsplit⟩ := List.append_of_mem (hbehind.mem_upToFinal hmem)
  have hdata := hbehind.dataOf_eq
  obtain ⟨errors, htrace, -⟩ := hbehind
  rw [hsplit] at hfront hdata htrace
  obtain ⟨hpos, hlt, hasked, hbefore, hafter⟩ := hserves.of_accepted hfront
  have hskip : ∀ os, dataOf (before ++ .ok (.event (.loginAccepted session n)) :: os) =
      dataOf os := by
    intro os
    rw [dataOf_append, hbefore, List.nil_append]
    rfl
  rw [List.append_assoc, List.cons_append] at htrace
  have hnext := counted_of_reaches hrun before session n (after ++ errors) htrace
  have hcount : dataOf (after ++ errors) = dataOf d.trace := by
    conv_rhs => rw [htrace]
    exact (hskip _).symm
  rw [hcount] at hnext
  refine ⟨hpos, hlt, hasked, ?_, hnext⟩
  rw [hdata, hskip]
  exact hafter

/-- Without a login there is no next expected sequence. -/
theorem next_eq_zero_of_reaches (hrun : Reaches (start recvs sends cfg now created) d)
    (hnone : ¬ d.loggedIn = true) : d.client.session.nextExpectedSequence = 0 := by
  have hzero : ¬ d.loggedIn = true → d.client.session.nextExpectedSequence = 0 := by
    refine hrun.invariant_of (J := Staged)
      (I := fun d ↦ ¬ d.loggedIn = true → d.client.session.nextExpectedSequence = 0)
      (fun _ ↦ staged_of_reaches) (fun _ ↦ ?_) ?_
    · obtain ⟨n, lastSend, sends', hclient, -, -⟩ : SoupBinClient.Flushed
          ⟨{ recvs := recvs, sends := sends }, ((Session.new cfg created).queueLogin now).2⟩ now
          (start recvs sends cfg now created).client := by
        unfold start SoupBinClient.start
        rw [Session.queueLogin_eq]
        exact (SoupBinClient.flush_flushed ⟨_, _⟩ now).1
      rw [hclient, Session.queueLogin_eq]
      rfl
    · intro d call d' hstaged h _ hnext hnone
      have hstaged' : d'.Staged := hstaged.next hnext
      cases call with
      | poll now =>
          cases hnext
          have hdata := hstaged'.dataOf_eq_nil hnone
          have hcounts := (d.client.poll_counts now).next
          rw [trace_append] at hdata
          generalize (d.client.poll now).1 = answer at hnone hdata hcounts
          simp only [loggedIn, List.any_append, List.any_cons, List.any_nil, Bool.or_false,
            Bool.or_eq_true, not_or] at hnone
          dsimp only
          rw [hcounts]
          rcases answer with e | _ | ⟨payload, sequence⟩ | ev
          · exact h hnone.1
          · exact h hnone.1
          · simp [inbound, dataOf] at hdata
          · cases ev with
            | loginAccepted session n => exact (hnone.2 rfl).elim
            | _ => exact h hnone.1
      | queueUnsequenced payload =>
          cases hnext
          rcases d.client.queueUnsequenced_cases payload with
            ⟨-, hcall⟩ | ⟨-, -, hcall⟩ | ⟨-, -, hcall⟩
          all_goals
            rw [hcall]
            exact h hnone
      | queueLogout =>
          cases hnext
          rcases d.client.queueLogout_cases with ⟨-, hcall⟩ | ⟨-, hcall⟩
          all_goals
            rw [hcall]
            exact h hnone
  exact hzero hnone

end Driven

/-! ## Successive connections -/

/-- A caller with what the connections it gave up handed out, and the present one. -/
structure Feed where
  cfg : SoupBinClientConfig
  handed : List (List UInt8 × ℕ)
  conn : Driven

namespace Feed

inductive Event where
  | call (c : Call)
  | reconnect (recvs : List (Except TransportError (List UInt8)))
      (sends : List (Except TransportError ℕ)) (now created : Instant)

def start (cfg : SoupBinClientConfig) (recvs : List (Except TransportError (List UInt8)))
    (sends : List (Except TransportError ℕ)) (now created : Instant) : Feed :=
  ⟨cfg, [], Driven.start recvs sends cfg now created⟩

/-- All messages handed out so far. -/
def delivered (f : Feed) : List (List UInt8 × ℕ) := f.handed ++ dataOf f.conn.trace

/-- The configuration of the next connection: `next_expected_sequence` is requested once the
connection was logged in; before that it is zero and says nothing. -/
def resume (f : Feed) : SoupBinClientConfig :=
  if f.conn.loggedIn then
    { f.cfg with requestedSequenceNumber := .ofNat f.conn.client.session.nextExpectedSequence }
  else f.cfg

def next (f : Feed) : Event → Option Feed
  | .call c => (f.conn.next c).map fun d ↦ { f with conn := d }
  | .reconnect recvs sends now created =>
      some ⟨f.resume, f.delivered, Driven.start recvs sends f.resume now created⟩

def machine : Machine Feed Event := .ofNext next

/-- Every connection is one to a server that keeps `log`. -/
def Served (log : List (List UInt8)) (f : Feed) : Event → Prop
  | .call _ => True
  | .reconnect recvs .. => Serves log f.resume (landing recvs)

/-- Where the present connection stands in the log: it asks for the message behind those
handed out, or for the newest one as long as there are none. -/
structure Standing (log : List (List UInt8)) (asked base : ℕ) (f : Feed) : Prop where
  pos : 0 < base
  first : asked ≠ 0 → base = asked
  front : f.handed <+: numbered base (log.drop (base - 1))
  asks : f.cfg.asks = base + f.handed.length ∨ (f.cfg.asks = 0 ∧ f.handed = [] ∧ asked = 0)
  served : ∃ recvs sends now created, Serves log f.cfg (landing recvs) ∧
    Driven.Reaches (Driven.start recvs sends f.cfg now created) f.conn

variable {log : List (List UInt8)} {asked base : ℕ} {f f' : Feed}

/-- A connection that was never logged in adds nothing. -/
theorem Standing.delivered_eq (h : f.Standing log asked base)
    (hnone : ¬ f.conn.loggedIn = true) : f.delivered = f.handed := by
  obtain ⟨recvs, sends, now, created, -, hrun⟩ := h.served
  unfold delivered
  rw [(Driven.staged_of_reaches hrun).dataOf_eq_nil hnone, List.append_nil]

/-- A connection that was logged in adds the log behind what was handed out before. -/
theorem Standing.hands (h : f.Standing log asked base) {session : SessionId} {n : ℕ}
    (hmem : .ok (.event (.loginAccepted session n)) ∈ f.conn.trace) :
    ∃ base', 0 < base' ∧ (asked ≠ 0 → base' = asked) ∧ n = base' + f.handed.length ∧
      Hands log f.cfg.asks n (dataOf f.conn.trace) f.conn.client.session.nextExpectedSequence ∧
      f.delivered <+: numbered base' (log.drop (base' - 1)) := by
  obtain ⟨recvs, sends, now, created, hserves, hrun⟩ := h.served
  have hhands := Driven.hands_of_reaches hserves hrun hmem
  rcases h.asks with hasks | ⟨hzero, hhanded, hasked⟩
  · have hpos := h.pos
    have hn := (hhands.asked (by omega)).trans hasks
    refine ⟨base, hpos, h.first, hn, hhands, numbered_resume h.front ?_⟩
    have hfront := hhands.front
    rw [hn] at hfront
    rwa [List.drop_drop, show base - 1 + f.handed.length = base + f.handed.length - 1 by omega]
  · refine ⟨n, hhands.pos, fun hne ↦ (hne hasked).elim, ?_, hhands, ?_⟩
    · rw [hhanded, List.length_nil, Nat.add_zero]
    · rw [delivered, hhanded, List.nil_append]
      exact hhands.front

/-- What the connections so far have handed out, whether or not the present one is logged in,
and what a caller that gives it up asks for next. -/
theorem Standing.delivered (hlog : log.length + 1 < 2 ^ 64) (h : f.Standing log asked base) :
    ∃ base', 0 < base' ∧ (asked ≠ 0 → base' = asked) ∧
      f.delivered <+: numbered base' (log.drop (base' - 1)) ∧
      (f.resume.asks = base' + f.delivered.length ∨
        (f.resume.asks = 0 ∧ f.delivered = [] ∧ asked = 0)) ∧
      (f.conn.loggedIn = true → f.resume.asks = base' + f.delivered.length) := by
  by_cases hin : f.conn.loggedIn = true
  · obtain ⟨session, n, hmem⟩ := Driven.loggedIn_iff.mp hin
    obtain ⟨base', hpos, hfirst, rfl, hhands, hfront⟩ := h.hands hmem
    have hnext := hhands.next_eq hlog
    have hasks : f.resume.asks = base' + f.delivered.length := by
      have hlt : f.conn.client.session.nextExpectedSequence < 2 ^ 64 := by
        rw [hhands.next]
        exact Nat.mod_lt _ (Nat.two_pow_pos 64)
      rw [resume, if_pos hin, SoupBinClientConfig.asks]
      dsimp only
      rw [UInt64.toNat_ofNat_of_lt' hlt, hnext, Feed.delivered, List.length_append, Nat.add_assoc]
    exact ⟨base', hpos, hfirst, hfront, Or.inl hasks, fun _ ↦ hasks⟩
  · refine ⟨base, h.pos, h.first, ?_, ?_, fun hin' ↦ (hin hin').elim⟩
    · rw [h.delivered_eq hin]
      exact h.front
    · rw [resume, if_neg hin, h.delivered_eq hin]
      exact h.asks

theorem Standing.next (hlog : log.length + 1 < 2 ^ 64) {e : Event}
    (h : ∃ base, f.Standing log asked base) (hserved : f.Served log e)
    (hnext : f.next e = some f') : ∃ base, f'.Standing log asked base := by
  obtain ⟨base, h⟩ := h
  cases e with
  | call c =>
      obtain ⟨d, hd, rfl⟩ := Option.map_eq_some_iff.mp hnext
      obtain ⟨recvs, sends, now, created, hserves, hrun⟩ := h.served
      exact ⟨base, h.pos, h.first, h.front, h.asks, recvs, sends, now, created, hserves,
        hrun.tail c trivial hd⟩
  | reconnect recvs sends now created =>
      cases hnext
      obtain ⟨base', hpos, hfirst, hfront, hasks, -⟩ := h.delivered hlog
      exact ⟨base', hpos, hfirst, hfront, hasks, recvs, sends, now, created, hserved, .refl⟩

variable {cfg : SoupBinClientConfig} {recvs : List (Except TransportError (List UInt8))}
  {sends : List (Except TransportError ℕ)} {now created : Instant}

theorem standing_of_run (hlog : log.length + 1 < 2 ^ 64) (hserves : Serves log cfg (landing recvs))
    (hrun : machine.Run (Served log) (start cfg recvs sends now created) f) :
    ∃ base, f.Standing log cfg.asks base := by
  refine hrun.invariant (I := fun f ↦ ∃ base, f.Standing log cfg.asks base) ?_
    fun _ _ _ h hserved hstep ↦ Standing.next hlog h hserved hstep
  have hserved : ∃ recvs' sends' now' created', Serves log cfg (landing recvs') ∧
      Driven.Reaches (Driven.start recvs' sends' cfg now' created')
        (Driven.start recvs sends cfg now created) :=
    ⟨recvs, sends, now, created, hserves, .refl⟩
  by_cases hzero : cfg.asks = 0
  · exact ⟨1, Nat.one_pos, fun hne ↦ (hne hzero).elim, List.nil_prefix,
      Or.inr ⟨hzero, rfl, hzero⟩, hserved⟩
  · exact ⟨cfg.asks, Nat.pos_of_ne_zero hzero, fun _ ↦ rfl, List.nil_prefix, Or.inl rfl, hserved⟩

/-- Three messages as a server sends them from the `n`-th on, behind a debug packet, to the end of
the session. -/
def sampleLog : List (List UInt8) := [[7, 8], [9], [10]]

def samplePackets (n : UInt64) : List PacketFrame :=
  [⟨.debug, [1]⟩] ++ ⟨.loginAccepted, loginAcceptedPayload "FEED" n []⟩ ::
    (((sampleLog.drop (n.toNat - 1)).flatMap fun p ↦
      [⟨.sequencedData, p⟩, ⟨.serverHeartbeat, []⟩]) ++ [⟨.endOfSession, []⟩])

theorem samplePackets_whole {n : UInt64} (hn : n = 1 ∨ n = 2 ∨ n = 3) :
    Whole sampleLog (64 * 1024) n (samplePackets n) := by
  have hbare : Text.Bare isWhitespace "FEED".toList := by
    have htext : "FEED".toList = ['F', 'E', 'E', 'D'] := by decide +kernel
    rw [htext]
    refine ⟨fun c hc ↦ ?_, fun c hc ↦ ?_⟩
    · obtain rfl : 'F' = c := Option.some.inj hc
      decide
    · obtain rfl : 'D' = c := Option.some.inj hc
      decide
  refine ⟨?_, [⟨.debug, [1]⟩], "FEED", [], _, _, rfl, by simp, by decide +kernel, hbare, ?_,
    .inr ⟨[], rfl⟩, ?_⟩
  · rcases hn with rfl | rfl | rfl <;> decide +kernel
  · rcases hn with rfl | rfl | rfl <;> decide +kernel
  · rcases hn with rfl | rfl | rfl <;> decide +kernel

/-- A connection that breaks off behind the first message. -/
def sampleBroken : Feed :=
  start {} [.ok (((samplePackets 1).flatMap PacketFrame.bytes).take 20),
      .ok ((((samplePackets 1).flatMap PacketFrame.bytes).take 48).drop 20), .error .peerClosed]
    [.ok 49] 0 0

/-- A second connection is served from where the first one left off, to the end. -/
theorem sampleBroken_resumes :
    ∃ f f', machine.Run (Served sampleLog) sampleBroken f ∧
      f.cfg.maxFrameSize = 64 * 1024 ∧ f.conn.client.session.state = .authenticating ∧
      f.conn.client.session.Calm 11 ∧
      f.conn.client.transport.received ++ landing f.conn.client.transport.recvs =
        (samplePackets 2).flatMap PacketFrame.bytes ∧
      machine.Run (Served sampleLog) sampleBroken f' ∧ f'.cfg.maxFrameSize = 64 * 1024 ∧
      (∃ o ∈ f'.conn.trace, Final o) ∧
      f'.conn.client.transport.received ++ landing f'.conn.client.transport.recvs =
        (samplePackets 2).flatMap PacketFrame.bytes := by
  have hend : ∃ f ∈ Machine.follow next sampleBroken (List.replicate 4 (.call (.poll 1))),
      f.resume.requestedSequenceNumber = 2 ∧
      ∃ f' ∈ f.next (.reconnect [.ok ((samplePackets 2).flatMap PacketFrame.bytes)] [.ok 49] 10 10),
        f'.cfg.maxFrameSize = 64 * 1024 ∧ f'.conn.client.session.state = .authenticating ∧
        (11 < f'.conn.client.session.loginDeadline ∧
          11 - f'.conn.client.session.lastSend ≤ f'.conn.client.session.cfg.heartbeatInterval ∧
          11 - f'.conn.client.session.lastRecv ≤ f'.conn.client.session.cfg.heartbeatTimeout) ∧
        f'.conn.client.transport.received ++ landing f'.conn.client.transport.recvs =
          (samplePackets 2).flatMap PacketFrame.bytes ∧
        ∃ f'' ∈ Machine.follow next f' (List.replicate 6 (.call (.poll 11))),
          f''.cfg.maxFrameSize = 64 * 1024 ∧ (∃ o ∈ f''.conn.trace, Final o) ∧
          f''.conn.client.transport.received ++ landing f''.conn.client.transport.recvs =
            (samplePackets 2).flatMap PacketFrame.bytes := by decide +kernel
  obtain ⟨f, hf, hasks, f', hf', hmax, hstate, ⟨hlogin, hsend, hrecv⟩, hstream, f'', hf'', hdone⟩ :=
    hend
  have hpolls : ∀ (k : ℕ) (now : Instant) (f : Feed),
      Machine.AllowedAlong next (Served sampleLog) f (List.replicate k (.call (.poll now))) := by
    refine fun k now f ↦ Machine.allowedAlong_of_forall_mem _ _ fun e he s ↦ ?_
    rw [List.eq_of_mem_replicate he]
    trivial
  have hserved : f.Served sampleLog
      (.reconnect [.ok ((samplePackets 2).flatMap PacketFrame.bytes)] [.ok 49] 10 10) := by
    refine (samplePackets_whole (Or.inr (Or.inl rfl))).serves (by decide) (fun _ ↦ hasks.symm) ?_
    simp [landing]
  have hrun : machine.Run (Served sampleLog) sampleBroken f' :=
    (Machine.Run.of_follow (hpolls 4 1 _) hf).tail _ hserved hf'
  exact ⟨f', f'', hrun, hmax, hstate, ⟨fun _ ↦ hlogin, hsend, hrecv⟩, hstream,
    hrun.trans (.of_follow (hpolls 6 11 _) hf''), hdone⟩

theorem sampleBroken_serves : Serves sampleLog {}
    (landing [.ok (((samplePackets 1).flatMap PacketFrame.bytes).take 20),
      .ok ((((samplePackets 1).flatMap PacketFrame.bytes).take 48).drop 20),
      .error .peerClosed]) :=
  (samplePackets_whole (Or.inl rfl)).serves (by decide) (fun _ ↦ rfl) (by decide +kernel)

/-- A feed over any number of connections, each of them broken off anywhere and polled in any
way, is handed the log in order, each message once and under its own number, from the message
first requested on (from the one a server chose, if zero was requested).  A caller that was
logged in asks next for the message behind those handed out. -/
theorem resumed_in_order (hlog : log.length + 1 < 2 ^ 64)
    (hserves : Serves log cfg (landing recvs))
    (hrun : machine.Run (Served log) (start cfg recvs sends now created) f) :
    ∃ base, 0 < base ∧ (cfg.asks ≠ 0 → base = cfg.asks) ∧
      f.delivered <+: numbered base (log.drop (base - 1)) ∧
      (f.conn.loggedIn = true → f.resume.asks = base + f.delivered.length) := by
  obtain ⟨base, h⟩ := standing_of_run hlog hserves hrun
  obtain ⟨base', hpos, hfirst, hfront, -, hasks⟩ := h.delivered hlog
  exact ⟨base', hpos, hfirst, hfront, hasks⟩

theorem resumed_in_order_twice :
    ∃ f, machine.Run (Served sampleLog) sampleBroken f ∧
      ∃ base, 0 < base ∧ base = 1 ∧ f.delivered <+: numbered base (sampleLog.drop (base - 1)) := by
  obtain ⟨f, -, hrun, -⟩ := sampleBroken_resumes
  obtain ⟨base, hpos, hbase, hfront, -⟩ :=
    resumed_in_order (by decide) sampleBroken_serves hrun
  exact ⟨f, hrun, base, hpos, hbase (by decide), hfront⟩

/-- Calls on the present connection alone. -/
theorem follow_calls (f : Feed) (calls : List Call) :
    Machine.follow next f (calls.map .call) =
      (Machine.follow Driven.next f.conn calls).map fun d ↦ { f with conn := d } := by
  induction calls generalizing f with
  | nil => rfl
  | cons c calls ih =>
      rw [List.map_cons, Machine.follow, Machine.follow]
      change ((f.conn.next c).map _).bind _ = _
      cases f.conn.next c with
      | none => rfl
      | some d => exact ih { f with conn := d }

/-- A connection that has read all its server has to send completes the log. -/
theorem Standing.complete (h : f.Standing log asked base) {packets : List PacketFrame} {n : UInt64}
    (hwhole : Whole log f.cfg.maxFrameSize n packets)
    (hdone : upToFinal f.conn.trace =
      decode f.cfg.maxFrameSize (packets.flatMap PacketFrame.bytes)) :
    ∃ base', 0 < base' ∧ (asked ≠ 0 → base' = asked) ∧
      f.delivered = numbered base' (log.drop (base' - 1)) := by
  obtain ⟨hdata, session, hmem⟩ := hwhole.dataOf_decode
  rw [← hdone] at hdata hmem
  obtain ⟨recvs, sends, now, created, -, hconn⟩ := h.served
  have hbehind := (Driven.settled_of_reaches hconn).behind
  obtain ⟨base', hpos, hfirst, hn, hhands, hfront⟩ :=
    h.hands ((upToFinal_isPrefix _).subset hmem)
  refine ⟨base', hpos, hfirst, hfront.eq_of_length ?_⟩
  have hle := hfront.length_le
  rw [Feed.delivered, hbehind.dataOf_eq, hdata] at hle ⊢
  simp only [List.length_append, length_numbered, List.length_drop] at hle ⊢
  omega

/-- No message is lost.  Let the present connection's stream be all its server has to send.  If
the end of the session was met in it, or all of it has landed and a poll of the open session found
nothing more to read, then the log is complete.  Polling an open session while no timer runs out
gets there. -/
theorem resumed_to_the_end (hlog : log.length + 1 < 2 ^ 64)
    (hserves : Serves log cfg (landing recvs))
    (hrun : machine.Run (Served log) (start cfg recvs sends now created) f)
    {packets : List PacketFrame} {n : UInt64} (hwhole : Whole log f.cfg.maxFrameSize n packets)
    (hstream : f.conn.client.transport.received ++ landing f.conn.client.transport.recvs =
      packets.flatMap PacketFrame.bytes) :
    ((∃ o ∈ f.conn.trace, Final o) ∨
        (landing f.conn.client.transport.recvs = [] ∧ f.conn.client.session.state ≠ .closed ∧
          f.conn.results.getLast? = some (.ok none)) →
      ∃ base, 0 < base ∧ (cfg.asks ≠ 0 → base = cfg.asks) ∧
        f.delivered = numbered base (log.drop (base - 1))) ∧
    ∀ later, f.conn.client.session.state ≠ .closed → f.conn.client.session.Calm later →
      ∃ k, ∃ f' ∈ Machine.follow next f (List.replicate k (.call (.poll later))),
        ∃ base, 0 < base ∧ (cfg.asks ≠ 0 → base = cfg.asks) ∧
          f'.delivered = numbered base (log.drop (base - 1)) := by
  obtain ⟨base, h⟩ := standing_of_run hlog hserves hrun
  obtain ⟨recvs', sends', now', created', -, hconn⟩ := h.served
  have hdecodes := Driven.decodes_of_reaches hconn
  refine ⟨fun hread ↦ h.complete hwhole ?_, fun later hopen hcalm ↦ ?_⟩
  · rw [← hstream]
    rcases hread with hfinal | ⟨hlanded, hopen, hlast⟩
    · exact hdecodes.ends hfinal _
    · have hlive := hdecodes.live hopen []
      rw [(hdecodes.drained hopen hlast).ahead_nil, List.append_nil] at hlive
      rwa [hlanded]
  · obtain ⟨k, d', hd', hdone⟩ := Driven.Decodes.completes _ hdecodes hopen hcalm le_rfl
    rw [← hdecodes.script, hstream] at hdone
    have hfollow : Machine.follow next f (List.replicate k (.call (.poll later))) =
        some { f with conn := d' } := by
      rw [← List.map_replicate (f := Event.call), follow_calls, hd']
      rfl
    have hrun' : machine.Run (Served log) (start cfg recvs sends now created)
        { f with conn := d' } := by
      refine hrun.trans (Machine.Run.of_follow ?_ hfollow)
      refine Machine.allowedAlong_of_forall_mem _ _ fun e he s ↦ ?_
      rw [List.eq_of_mem_replicate he]
      trivial
    obtain ⟨base', h'⟩ := standing_of_run hlog hserves hrun'
    exact ⟨k, _, hfollow, h'.complete hwhole hdone⟩

/-- The second connection before its first poll, and when the end of the session was met. -/
theorem resumed_to_the_end_twice :
    ∃ f f', machine.Run (Served sampleLog) sampleBroken f ∧
      (∃ k, ∃ f'' ∈ Machine.follow next f (List.replicate k (.call (.poll 11))),
        f''.delivered = numbered 1 sampleLog) ∧
      machine.Run (Served sampleLog) sampleBroken f' ∧ f'.delivered = numbered 1 sampleLog := by
  obtain ⟨f, f', hrun, hmax, hstate, hcalm, hstream, hrun', hmax', hfinal, hstream'⟩ :=
    sampleBroken_resumes
  have hwhole := samplePackets_whole (Or.inr (Or.inl rfl))
  obtain ⟨-, hpolls⟩ := resumed_to_the_end (by decide) sampleBroken_serves hrun (by rwa [hmax])
    hstream
  obtain ⟨hread, -⟩ := resumed_to_the_end (by decide) sampleBroken_serves hrun' (by rwa [hmax'])
    hstream'
  obtain ⟨k, f'', hf'', base, -, hbase, hall⟩ := hpolls 11 (by rw [hstate]; decide) hcalm
  obtain ⟨base', -, hbase', hall'⟩ := hread (.inl hfinal)
  rw [hbase (by decide)] at hall
  rw [hbase' (by decide)] at hall'
  exact ⟨f, f', hrun, ⟨k, f'', hf'', hall⟩, hrun', hall'⟩

/-- A caller that passes `next_expected_sequence` on without having been logged in asks for the
newest message: a server may then start anywhere in its log, and the client hands out what is
sent, whatever had been requested before. -/
theorem unguarded_resume_skips {d : Driven}
    (hrun : Driven.Reaches (Driven.start recvs sends cfg now created) d)
    (hnone : ¬ d.loggedIn = true) {packets : List PacketFrame} {n : UInt64}
    (hpos : 0 < n.toNat) (hwhole : Whole log cfg.maxFrameSize n packets) :
    let cfg' := { cfg with
      requestedSequenceNumber := .ofNat d.client.session.nextExpectedSequence }
    parseAsciiNumeric ((loginRequest cfg').extract 26 46) = .ok 0 ∧
      Serves log cfg' (packets.flatMap PacketFrame.bytes) ∧
      dataOf (decode cfg'.maxFrameSize (packets.flatMap PacketFrame.bytes)) =
        numbered n.toNat (log.drop (n.toNat - 1)) := by
  have hzero := Driven.next_eq_zero_of_reaches hrun hnone
  rw [hzero]
  refine ⟨parseAsciiNumeric_loginRequest _, ?_, hwhole.dataOf_decode.1⟩
  exact hwhole.serves hpos (fun hne ↦ (hne rfl).elim) List.prefix_rfl

/-- The first login is not answered, the second one is from the third message on. -/
theorem unguarded_resume_skips_two :
    dataOf (decode (64 * 1024) ((samplePackets 3).flatMap PacketFrame.bytes)) =
      [([10], 3)] ∧
    Serves sampleLog { requestedSequenceNumber := 0 }
      ((samplePackets 3).flatMap PacketFrame.bytes) := by
  have hend : ∃ d ∈ Machine.follow Driven.next (Driven.start [.error .peerClosed] [] {} 0 0)
        [.poll 1],
      d.loggedIn = false ∧ d.client.session.nextExpectedSequence = 0 := by decide +kernel
  obtain ⟨d, hd, hnone, hzero⟩ := hend
  have hrun : Driven.Reaches (Driven.start [.error .peerClosed] [] {} 0 0) d :=
    .of_follow (Machine.allowedAlong_of_forall (fun _ _ ↦ trivial) _ _) hd
  obtain ⟨-, hserves, hdata⟩ := unguarded_resume_skips hrun (by simp [hnone]) (by decide)
    (samplePackets_whole (Or.inr (Or.inr rfl)))
  rw [hzero] at hserves
  exact ⟨hdata, hserves⟩

end Feed

end SoupBin
