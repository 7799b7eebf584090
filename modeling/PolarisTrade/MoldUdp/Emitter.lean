import PolarisTrade.Lib.Machine
import PolarisTrade.Lib.Span
import PolarisTrade.MoldUdp.Gap

/-!
# Rate-limited re-requests

`GapRequestEmitter` turns pending gaps into Request Packets.  It remembers what it has
requested within the last interval as ranges that are kept apart, each with the time of the
newest request in it, and skips a gap that one remembered range covers.  The emitter under
its caller is a transition system whose log holds every packet that was tried, read back
from the bytes handed to the socket.
-/

namespace MoldUdp

open Transport Word

structure SocketAddr where
  ip : List UInt8
  port : UInt16
  deriving DecidableEq

/-- One contiguous run of missing sequence numbers. -/
structure GapRequest where
  startSeq : UInt64
  count : UInt16
  deriving DecidableEq

/-- `Session[10]`, `Sequence[8 BE]`, `RequestedMessageCount[2 BE]`. -/
def encodeRequestPacket (session : SessionId) (gap : GapRequest) : List UInt8 :=
  session.1 ++ toBeBytes 8 gap.startSeq.toNat ++ toBeBytes 2 gap.count.toNat

/-- One `send_to`: the datagram, where it was to go and what came of it. -/
structure SendTo where
  buf : List UInt8
  dest : SocketAddr
  result : Except TransportError ℕ

/-- The requester's socket: its answers to come, all of them successes once these are used
up, and the calls made so far. -/
structure Socket where
  answers : List (Except TransportError ℕ)
  calls : List SendTo := []

def Socket.sendTo (sock : Socket) (buf : List UInt8) (dest : SocketAddr) :
    Except TransportError ℕ × Socket :=
  match sock.answers with
  | [] => (.ok buf.length, { sock with calls := sock.calls ++ [⟨buf, dest, .ok buf.length⟩] })
  | result :: answers => (result, ⟨answers, sock.calls ++ [⟨buf, dest, result⟩]⟩)

structure GapRequestEmitter where
  serverAddr : SocketAddr
  requested : List (Span ℕ Instant)
  maxPerGapPerSec : ℕ

namespace GapRequestEmitter

def new (serverAddr : SocketAddr) (maxPerGapPerSec : UInt32) : GapRequestEmitter :=
  ⟨serverAddr, [], max maxPerGapPerSec.toNat 1⟩

/-- `Duration::from_secs(1) / max_per_gap_per_sec`, in whole nanoseconds. -/
def interval (e : GapRequestEmitter) : ℕ := 10 ^ 9 / e.maxPerGapPerSec

def markRequested (e : GapRequestEmitter) (start stop : ℕ) (now : Instant) :
    GapRequestEmitter :=
  let (kept, start, stop) := Span.absorb e.requested start stop
  { e with requested := kept ++ [⟨start, stop, now⟩] }

/-- Some remembered range covers `[start, stop)`. -/
def covers (e : GapRequestEmitter) (start stop : ℕ) : Bool :=
  e.requested.any fun r ↦ r.lo ≤ start && stop ≤ r.hi

/-- The loop of `emit`. -/
def emitLoop (session : SessionId) (now : Instant) :
    List GapRequest → GapRequestEmitter → Socket → ℕ →
      Except MoldUdpError ℕ × GapRequestEmitter × Socket
  | [], e, sock, sent => (.ok sent, e, sock)
  | gap :: gaps, e, sock, sent =>
      let stop := wrappingAdd gap.startSeq.toNat gap.count.toNat
      if e.covers gap.startSeq.toNat stop then emitLoop session now gaps e sock sent
      else
        match sock.sendTo (encodeRequestPacket session gap) e.serverAddr with
        | (.error (.io .wouldBlock), sock) => (.ok sent, e, sock)
        | (.error error, sock) =>
            (.error (.transport error), e.markRequested gap.startSeq.toNat stop now, sock)
        | (.ok _, sock) =>
            emitLoop session now gaps (e.markRequested gap.startSeq.toNat stop now) sock (sent + 1)

/-- Forget what was requested an interval ago or longer. -/
def prune (e : GapRequestEmitter) (now : Instant) : GapRequestEmitter :=
  { e with requested := e.requested.filter fun r ↦ now - r.tag < e.interval }

def emit (e : GapRequestEmitter) (gaps : List GapRequest) (session : SessionId) (sock : Socket)
    (now : Instant) : Except MoldUdpError ℕ × GapRequestEmitter × Socket :=
  emitLoop session now gaps (e.prune now) sock 0

end GapRequestEmitter

/-! ## The gaps that are due -/

/-- The chunks of one tracked range, as many sequences in each as the packet can ask for. -/
def chunks : ℕ → ℕ → ℕ → List GapRequest
  | 0, _, _ => []
  | fuel + 1, cur, stop =>
      if cur < stop then
        let count := min (stop - cur) 65535
        ⟨UInt64.ofNat cur, UInt16.ofNat count⟩ :: chunks fuel (cur + count) stop
      else []

def GapRequestHandler.pendingGaps (g : GapRequestHandler) : List GapRequest :=
  g.gaps.entries.flatMap fun p ↦ chunks (p.2 - p.1) p.1 p.2

/-- `Requester::send_due`; what `emit` returns is only logged. -/
def sendDue (e : GapRequestEmitter) (session : SessionId) (g : GapRequestHandler)
    (sock : Socket) (now : Instant) : GapRequestEmitter × Socket :=
  (e.emit g.pendingGaps session sock now).2

/-- `s` is one of the sequences of the gap. -/
def GapRequest.Has (gap : GapRequest) (s : ℕ) : Prop :=
  gap.startSeq.toNat ≤ s ∧ s < gap.startSeq.toNat + gap.count.toNat

instance (gap : GapRequest) (s : ℕ) : Decidable (gap.Has s) :=
  inferInstanceAs (Decidable (_ ∧ _))

/-- The gap ends within the 64-bit sequence numbers. -/
def GapRequest.Fits (gap : GapRequest) : Prop :=
  gap.startSeq.toNat + gap.count.toNat < 2 ^ 64

instance (gap : GapRequest) : Decidable gap.Fits := inferInstanceAs (Decidable (_ < _))

theorem GapRequest.Fits.stop_eq {gap : GapRequest} (h : gap.Fits) :
    wrappingAdd gap.startSeq.toNat gap.count.toNat = gap.startSeq.toNat + gap.count.toNat :=
  wrappingAdd_of_lt h

theorem chunks_spec {fuel cur stop : ℕ} (hfuel : stop - cur ≤ fuel) (hstop : stop < 2 ^ 64) :
    (∀ gap ∈ chunks fuel cur stop, gap.Fits ∧ 0 < gap.count.toNat) ∧
      ∀ s, (∃ gap ∈ chunks fuel cur stop, gap.Has s) ↔ cur ≤ s ∧ s < stop := by
  induction fuel generalizing cur with
  | zero =>
      refine ⟨by simp [chunks], fun s ↦ ?_⟩
      simp only [chunks, List.not_mem_nil, false_and, exists_false, false_iff]
      omega
  | succ fuel ih =>
      unfold chunks
      by_cases hlt : cur < stop
      · rw [if_pos hlt]
        dsimp only
        obtain ⟨hfits, hiff⟩ := @ih (cur + min (stop - cur) 65535) (by omega)
        have hcur : (UInt64.ofNat cur).toNat = cur :=
          UInt64.toNat_ofNat_of_lt' (show cur < 2 ^ 64 by omega)
        have hcount : (UInt16.ofNat (min (stop - cur) 65535)).toNat = min (stop - cur) 65535 :=
          UInt16.toNat_ofNat_of_lt' (show _ < 2 ^ 16 by omega)
        refine ⟨?_, fun s ↦ ?_⟩
        · rw [List.forall_mem_cons]
          refine ⟨⟨?_, ?_⟩, hfits⟩
          · unfold GapRequest.Fits
            dsimp only
            omega
          · dsimp only
            omega
        · rw [List.exists_mem_cons_iff, hiff s, GapRequest.Has]
          dsimp only
          omega
      · rw [if_neg hlt]
        refine ⟨by simp, fun s ↦ ?_⟩
        simp only [List.not_mem_nil, false_and, exists_false, false_iff]
        omega

/-- The gaps that are due are the tracked sequences, in requests the packet can hold. -/
theorem pendingGaps_spec {g : GapRequestHandler} (hg : g.WellFormed) :
    (∀ gap ∈ g.pendingGaps, gap.Fits ∧ 0 < gap.count.toNat) ∧
      ∀ s, (∃ gap ∈ g.pendingGaps, gap.Has s) ↔ g.Tracks s := by
  have hspec := fun p hp ↦ @chunks_spec (p.2 - p.1) p.1 p.2 le_rfl (hg.bounded p hp)
  refine ⟨fun gap hgap ↦ ?_, fun s ↦ ⟨?_, ?_⟩⟩
  · obtain ⟨p, hp, hgap⟩ := List.mem_flatMap.mp hgap
    exact (hspec p hp).1 gap hgap
  · rintro ⟨gap, hgap, hs⟩
    obtain ⟨p, hp, hgap⟩ := List.mem_flatMap.mp hgap
    exact ⟨p, hp, ((hspec p hp).2 s).mp ⟨gap, hgap, hs⟩⟩
  · rintro ⟨p, hp, hs⟩
    obtain ⟨gap, hgap, hhas⟩ := ((hspec p hp).2 s).mpr hs
    exact ⟨gap, List.mem_flatMap.mpr ⟨p, hp, hgap⟩, hhas⟩

/-! ## What one emission does -/

/-- The range asked for in a request packet. -/
def requestedRange (packet : List UInt8) (now : Instant) : Span ℕ Instant :=
  let start := fromBeBytes ((packet.drop 10).take 8)
  ⟨start, start + fromBeBytes (packet.drop 18), now⟩

def GapRequest.range (gap : GapRequest) (now : Instant) : Span ℕ Instant :=
  ⟨gap.startSeq.toNat, gap.startSeq.toNat + gap.count.toNat, now⟩

@[simp] theorem GapRequest.range_has {gap : GapRequest} {now : Instant} {s : ℕ} :
    (gap.range now).Has s ↔ gap.Has s := Iff.rfl

/-- The range of a gap can be read off its packet. -/
theorem requestedRange_encode (session : SessionId) (gap : GapRequest) (now : Instant) :
    requestedRange (encodeRequestPacket session gap) now = gap.range now := by
  have hsession := session.2
  have hstart : fromBeBytes (toBeBytes 8 gap.startSeq.toNat) = gap.startSeq.toNat :=
    fromBeBytes_toBeBytes (by have := gap.startSeq.toNat_lt; omega)
  have hcount : fromBeBytes (toBeBytes 2 gap.count.toNat) = gap.count.toNat :=
    fromBeBytes_toBeBytes (by have := gap.count.toNat_lt; omega)
  unfold requestedRange encodeRequestPacket GapRequest.range
  have hdrop : List.drop 10 (session.1 ++ toBeBytes 8 gap.startSeq.toNat ++
      toBeBytes 2 gap.count.toNat) =
      toBeBytes 8 gap.startSeq.toNat ++ toBeBytes 2 gap.count.toNat := by
    rw [List.append_assoc]
    exact List.drop_left' hsession
  have hrest : List.drop 18 (session.1 ++ toBeBytes 8 gap.startSeq.toNat ++
      toBeBytes 2 gap.count.toNat) = toBeBytes 2 gap.count.toNat :=
    List.drop_left' (by simp [hsession])
  rw [hdrop, hrest, List.take_left' (length_toBeBytes 8 _), hstart, hcount]

/-- The call met a full socket buffer. -/
def SendTo.blocked (call : SendTo) : Bool :=
  match call.result with
  | .error (.io .wouldBlock) => true
  | _ => false

/-- A call counts as an attempt unless it met a full socket buffer. -/
def SendTo.attempt (now : Instant) (call : SendTo) : Option (Span ℕ Instant) :=
  if call.blocked then none else some (requestedRange call.buf now)

/-- How an emission ends. -/
inductive Ending where
  | finished
  | blocked
  | failed (error : TransportError)

/-- Everything the loop of `emit` can do: the calls it makes and how it ends. -/
inductive Emitted (session : SessionId) (now : Instant) :
    List GapRequest → GapRequestEmitter → List SendTo → Ending → GapRequestEmitter → Prop
  | done (e : GapRequestEmitter) : Emitted session now [] e [] .finished e
  | covered {gap : GapRequest} {gaps : List GapRequest} {e e' : GapRequestEmitter}
      {calls : List SendTo} {ending : Ending} :
      e.covers gap.startSeq.toNat (wrappingAdd gap.startSeq.toNat gap.count.toNat) = true →
      Emitted session now gaps e calls ending e' →
      Emitted session now (gap :: gaps) e calls ending e'
  | blocked {gap : GapRequest} {gaps : List GapRequest} {e : GapRequestEmitter} :
      Emitted session now (gap :: gaps) e
        [⟨encodeRequestPacket session gap, e.serverAddr, .error (.io .wouldBlock)⟩] .blocked e
  | failed {gap : GapRequest} {gaps : List GapRequest} {e : GapRequestEmitter}
      (error : TransportError) : error ≠ .io .wouldBlock →
      e.covers gap.startSeq.toNat (wrappingAdd gap.startSeq.toNat gap.count.toNat) = false →
      Emitted session now (gap :: gaps) e
        [⟨encodeRequestPacket session gap, e.serverAddr, .error error⟩] (.failed error)
        (e.markRequested gap.startSeq.toNat
          (wrappingAdd gap.startSeq.toNat gap.count.toNat) now)
  | sent {gap : GapRequest} {gaps : List GapRequest} {e e' : GapRequestEmitter}
      {calls : List SendTo} {ending : Ending} (n : ℕ) :
      e.covers gap.startSeq.toNat (wrappingAdd gap.startSeq.toNat gap.count.toNat) = false →
      Emitted session now gaps
        (e.markRequested gap.startSeq.toNat
          (wrappingAdd gap.startSeq.toNat gap.count.toNat) now) calls ending e' →
      Emitted session now (gap :: gaps) e
        (⟨encodeRequestPacket session gap, e.serverAddr, .ok n⟩ :: calls) ending e'

namespace GapRequestEmitter

theorem sendTo_cases (sock : Socket) (buf : List UInt8) (dest : SocketAddr) :
    ∃ result answers, sock.sendTo buf dest =
      (result, ⟨answers, sock.calls ++ [⟨buf, dest, result⟩]⟩) := by
  unfold Socket.sendTo
  rcases sock with ⟨_ | ⟨result, answers⟩, calls⟩
  · exact ⟨_, [], rfl⟩
  · exact ⟨result, answers, rfl⟩

/-- The result `emit` returns for an ending. -/
def Returns (ending : Ending) (result : Except MoldUdpError ℕ) : Prop :=
  match ending with
  | .finished => ∃ sent, result = .ok sent
  | .blocked => ∃ sent, result = .ok sent
  | .failed error => result = .error (.transport error)

theorem emitLoop_emitted (session : SessionId) (now : Instant) (gaps : List GapRequest) :
    ∀ (e : GapRequestEmitter) (sock : Socket) (sent : ℕ), ∃ calls ending,
      Emitted session now gaps e calls ending (emitLoop session now gaps e sock sent).2.1 ∧
      (emitLoop session now gaps e sock sent).2.2.calls = sock.calls ++ calls ∧
      Returns ending (emitLoop session now gaps e sock sent).1 := by
  induction gaps with
  | nil => exact fun e sock sent ↦ ⟨[], .finished, .done e, by simp [emitLoop], sent, rfl⟩
  | cons gap gaps ih =>
      intro e sock sent
      unfold emitLoop
      dsimp only
      cases hcovered : e.covers gap.startSeq.toNat
          (wrappingAdd gap.startSeq.toNat gap.count.toNat) with
      | true =>
          obtain ⟨calls, ending, hemitted, hcalls, hreturns⟩ := ih e sock sent
          exact ⟨calls, ending, .covered hcovered hemitted, hcalls, hreturns⟩
      | false =>
          rw [if_neg (by simp)]
          obtain ⟨result, answers, hsend⟩ :=
            sendTo_cases sock (encodeRequestPacket session gap) e.serverAddr
          rw [hsend]
          cases result with
          | error error =>
              cases error with
              | io kind =>
                  cases kind with
                  | wouldBlock => exact ⟨_, .blocked, .blocked, rfl, sent, rfl⟩
                  | other => exact ⟨_, _, .failed _ (by simp) hcovered, rfl, rfl⟩
              | _ => exact ⟨_, _, .failed _ (by simp) hcovered, rfl, rfl⟩
          | ok n =>
              obtain ⟨calls, ending, hemitted, hcalls, hreturns⟩ :=
                ih (e.markRequested gap.startSeq.toNat
                  (wrappingAdd gap.startSeq.toNat gap.count.toNat) now)
                  ⟨answers, sock.calls ++ [⟨encodeRequestPacket session gap, e.serverAddr, .ok n⟩]⟩
                  (sent + 1)
              exact ⟨_, ending, .sent n hcovered hemitted, by simpa using hcalls, hreturns⟩

end GapRequestEmitter

end MoldUdp
