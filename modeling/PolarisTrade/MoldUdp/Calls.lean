import PolarisTrade.MoldUdp.Inline

/-!
# What a receive call does

The bursts a call takes from its sources and the datagrams it decodes, in order.  One
turn of the pump loop is written out with its actions; the loop, and every receive
call, is turns until one of them ends it.
-/

namespace MoldUdp

open Transport Word

variable {F : Type}

/-! ## The transport contract -/

/-- Frames never travel with an error, and a count is that of the frames pushed. -/
def Burst.Honest {G : Type} (b : Burst G) : Prop :=
  match b.result with
  | .ok n => n = b.frames.length
  | .error _ => b.frames = []

instance {G : Type} (b : Burst G) : Decidable b.Honest :=
  match h : b.result with
  | .ok n => decidable_of_iff (n = b.frames.length) (by rw [Burst.Honest, h])
  | .error _ => decidable_of_iff (b.frames.isEmpty = true) (by rw [Burst.Honest, h]; simp)

theorem Burst.Honest.frames_of_error {G : Type} {b : Burst G} {e : TransportError}
    (h : b.Honest) (hresult : b.result = .error e) : b.frames = [] := by
  rwa [Honest, hresult] at h

theorem Burst.Honest.frames_of_zero {G : Type} {b : Burst G} (h : b.Honest)
    (hresult : b.result = .ok 0) : b.frames = [] := by
  rw [Honest, hresult] at h
  exact List.length_eq_zero_iff.mp h.symm

/-- All sources of a turn keep the contract, with `legs` legs. -/
def Round.Honest (legs : ℕ) (round : Round F) : Prop :=
  (∀ stream < legs, (round.legs stream).Honest) ∧ round.requester.Honest

instance (legs : ℕ) (round : Round F) : Decidable (round.Honest legs) :=
  inferInstanceAs (Decidable ((∀ stream < legs, _) ∧ _))

/-! ## Actions -/

/-- One thing a receive call does: a burst from a leg, with the state it is made in, a burst
from the requester, or the decoding of a datagram. -/
inductive Action (F : Type) where
  | legBurst (stream : ℕ) (state : Inner F) (burst : Burst F)
  | requesterBurst (burst : Burst (List UInt8))
  | decode (datagram : UInt8 × Held F) (result : Except MoldUdpError Unit)

namespace Inner

/-- The bursts of `poll_legs`: every leg in turn, up to the first error. -/
def pollLegsFromActions (legs : ℕ → Burst F) : ℕ → ℕ → Inner F → List (Action F)
  | 0, _, _ => []
  | count + 1, stream, i =>
      let batch := i.recvBatch ++ (legs stream).frames
      .legBurst stream i (legs stream) ::
        match (legs stream).result with
        | .error _ => []
        | .ok 0 => pollLegsFromActions legs count (stream + 1) { i with recvBatch := batch }
        | .ok _ =>
            pollLegsFromActions legs count (stream + 1)
              { i with
                recvBatch := []
                pendingDatagrams := i.pendingDatagrams ++
                  batch.map fun f ↦ (UInt8.ofNat stream, .frame f) }

def pollLegsActions (legs : ℕ → Burst F) (i : Inner F) : List (Action F) :=
  pollLegsFromActions legs i.legs.length 0 i

end Inner

namespace MoldUdpReceiver

def pollFramesActions (burst : Burst (List UInt8)) (m : MoldUdpReceiver F) : List (Action F) :=
  match m.recovery with
  | none => []
  | some _ => [.requesterBurst burst]

def pollSourcesActions (round : Round F) (m : MoldUdpReceiver F) : List (Action F) :=
  m.inner.pollLegsActions round.legs ++
    match m.inner.pollLegs round.legs with
    | (.error _, _) => []
    | (.ok _, inner) =>
        if inner.gapHandler.hasPending then m.pollFramesActions round.requester else []

variable [AsRef F]

def decodeNextActions (m : MoldUdpReceiver F) (now : Instant) : List (Action F) :=
  match m.inner.pendingDatagrams with
  | [] => []
  | p :: _ => [.decode p (m.decodeNext now).1]

/-- The end of a turn: decode one datagram and go on, unless that fails. -/
def decodeTurn (m : MoldUdpReceiver F) (now : Instant) :
    List (Action F) × Option (Except MoldUdpError Unit) × MoldUdpReceiver F :=
  match m.decodeNext now with
  | (.error e, m') => (m.decodeNextActions now, some (.error e), m')
  | (.ok _, m') => (m.decodeNextActions now, none, m')

/-- One turn of the loop of `pump`: its actions, what it returns if it ends the loop, and
the state it leaves. -/
def turn (round : Round F) (m : MoldUdpReceiver F) :
    List (Action F) × Option (Except MoldUdpError Unit) × MoldUdpReceiver F :=
  if !m.inner.ready.isEmpty then ([], some (.ok ()), m)
  else if !m.inner.pendingDatagrams.isEmpty then m.decodeTurn round.now
  else
    match m.pollSources round with
    | (.error e, m') => (m.pollSourcesActions round, some (.error e), m')
    | (.ok false, m') => (m.pollSourcesActions round, some (.ok ()), m')
    | (.ok true, m') =>
        (m.pollSourcesActions round ++ (m'.decodeTurn round.now).1, (m'.decodeTurn round.now).2)

theorem pump_cons (round : Round F) (rounds : List (Round F)) (m : MoldUdpReceiver F) :
    pump (round :: rounds) m =
      match (m.turn round).2 with
      | (some r, m') => some (r, m')
      | (none, m') => pump rounds m' := by
  have hdecode : ∀ m : MoldUdpReceiver F,
      (match m.decodeNext round.now with
        | (.error e, m') => some (.error e, m')
        | (.ok _, m') => pump rounds m') =
      match (m.decodeTurn round.now).2 with
      | (some r, m') => some (r, m')
      | (none, m') => pump rounds m' := by
    intro m
    unfold decodeTurn
    generalize m.decodeNext round.now = decoded
    obtain ⟨_ | _, m'⟩ := decoded <;> rfl
  rw [pump, turn]
  split
  · rfl
  · split
    · exact hdecode m
    · generalize m.pollSources round = polled
      obtain ⟨_ | _ | _, m'⟩ := polled
      · rfl
      · rfl
      · exact hdecode m'

/-- Every action of the loop, over as many turns as the script has. -/
def pumpActions : List (Round F) → MoldUdpReceiver F → List (Action F)
  | [], _ => []
  | round :: rounds, m =>
      (m.turn round).1 ++
        match (m.turn round).2 with
        | (some _, _) => []
        | (none, m') => pumpActions rounds m'

def pollActions (rounds : List (Round F)) (m : MoldUdpReceiver F) : List (Action F) :=
  pumpActions rounds m.retireCurrent

def nextItemActions : List (List (Round F) × Except TransportError Unit) → MoldUdpReceiver F →
    List (Action F)
  | [], _ => []
  | (rounds, wait) :: waits, m =>
      pumpActions rounds m ++
        match pump rounds m with
        | some (.ok _, m') =>
            match m'.popReady, wait with
            | none, .ok _ => nextItemActions waits m'
            | _, _ => []
        | _ => []

end MoldUdpReceiver

/-! ## Sequences of calls -/

/-- A receive call, with the script of its environment. -/
inductive Call (F : Type) where
  | poll (rounds : List (Round F))
  | recv (waits : List (List (Round F) × Except TransportError Unit))
  | recvOwned (waits : List (List (Round F) × Except TransportError Unit))

def errorOf {α : Type} : Except MoldUdpError α → Option MoldUdpError
  | .ok _ => none
  | .error e => some e

/-- A call that returned: what it did, and the error it returned, if any. -/
structure CallRecord (F : Type) where
  actions : List (Action F)
  error : Option MoldUdpError

/-- Receiver and the calls made on it. -/
structure Driven (F : Type) where
  receiver : MoldUdpReceiver F
  log : List (CallRecord F)

namespace Call

/-- Turns the call may take. -/
def rounds : Call F → List (Round F)
  | .poll rounds => rounds
  | .recv waits => waits.flatMap Prod.fst
  | .recvOwned waits => waits.flatMap Prod.fst

variable [AsRef F]

def actions (m : MoldUdpReceiver F) : Call F → List (Action F)
  | .poll rounds => m.pollActions rounds
  | .recv waits => MoldUdpReceiver.nextItemActions waits m.retireCurrent
  | .recvOwned waits => MoldUdpReceiver.nextItemActions waits m.retireCurrent

/-- The error the call returns, if any, and the state it leaves. -/
def run (m : MoldUdpReceiver F) : Call F → Option (Option MoldUdpError × MoldUdpReceiver F)
  | .poll rounds => (m.poll rounds).map fun r ↦ (errorOf r.1, r.2)
  | .recv waits => (m.recv waits).map fun r ↦ (errorOf r.1, r.2)
  | .recvOwned waits => (m.recvOwned waits).map fun r ↦ (errorOf r.1, r.2)

end Call

namespace Driven

/-- Everything done since the receiver was made. -/
def actions (d : Driven F) : List (Action F) := d.log.flatMap CallRecord.actions

/-- A receiver over `inner`, with a requester or without. -/
def start (inner : Inner F) (withRecovery : Bool) : Driven F :=
  ⟨⟨inner, if withRecovery then some ⟨[]⟩ else none⟩, []⟩

/-- The sources keep the transport contract during the call. -/
def Honest (d : Driven F) (c : Call F) : Prop :=
  ∀ round ∈ c.rounds, round.Honest d.receiver.inner.legs.length

instance (d : Driven F) (c : Call F) : Decidable (d.Honest c) :=
  inferInstanceAs (Decidable (∀ round ∈ c.rounds, _))

variable [AsRef F]

def next (d : Driven F) (c : Call F) : Option (Driven F) :=
  (c.run d.receiver).map fun r ↦ ⟨r.2, d.log ++ [⟨c.actions d.receiver, r.1⟩]⟩

def machine (F : Type) [AsRef F] : Machine (Driven F) (Call F) := .ofNext next

end Driven

/-! ## What decoding leaves alone -/

/-- The fields that belong to the sources, and the size of the ring. -/
structure Inner.SameSources (i i' : Inner F) : Prop where
  legs : i'.legs = i.legs
  recoveryStream : i'.recoveryStream = i.recoveryStream
  recvBatch : i'.recvBatch = i.recvBatch
  capacity : i'.reassembler.capacity = i.reassembler.capacity

namespace Inner.SameSources

theorem refl (i : Inner F) : SameSources i i := ⟨rfl, rfl, rfl, rfl⟩

theorem trans {i j k : Inner F} (hij : SameSources i j) (hjk : SameSources j k) :
    SameSources i k :=
  ⟨hjk.legs.trans hij.legs, hjk.recoveryStream.trans hij.recoveryStream,
    hjk.recvBatch.trans hij.recvBatch, hjk.capacity.trans hij.capacity⟩

end Inner.SameSources

namespace Decoding

theorem place_sameSources (d : Decoding F) (streamId : UInt8) (b : Block) :
    Inner.SameSources d.inner (d.place streamId b).2.inner := by
  unfold Decoding.place
  split
  · exact ⟨rfl, rfl, rfl, SequenceReassembler.capacity_drain _ _⟩
  · unfold Decoding.buffer
    rcases d.inner.reassembler.insert_cases b.seq ⟨d.backing.share.2, b.offset, b.len⟩ with
      ⟨-, hinsert⟩ | ⟨-, -, hinsert⟩ | ⟨-, -, -, -, hinsert⟩ | ⟨-, -, -, hinsert⟩
    · rw [hinsert]
      exact .refl _
    · rw [hinsert]
      exact .refl _
    · rw [hinsert]
      exact .refl _
    · rw [hinsert]
      cases decide (b.seq = d.inner.reassembler.expectedNext) with
      | false => exact ⟨rfl, rfl, rfl, rfl⟩
      | true => exact ⟨rfl, rfl, rfl, SequenceReassembler.capacity_drain _ _⟩
  · exact .refl _

theorem decodeBlock_sameSources (streamId : UInt8) (now : Option Instant) (b : Block)
    (d : Decoding F) : Inner.SameSources d.inner (decodeBlock streamId now b d).2.inner := by
  have hobserve : Inner.SameSources d.inner (d.inner.observe streamId b.seq now).2 := by
    unfold Inner.observe
    split
    · exact ⟨rfl, rfl, rfl, rfl⟩
    · exact .refl _
  unfold decodeBlock
  generalize d.inner.observe streamId b.seq now = observed at hobserve ⊢
  obtain ⟨verdict, inner⟩ := observed
  cases verdict with
  | duplicate => exact hobserve
  | outOfWindow => exact hobserve
  | forward =>
      have hmark : Inner.SameSources inner (inner.markReceived b.seq) := ⟨rfl, rfl, rfl, rfl⟩
      exact (hobserve.trans hmark).trans
        (place_sameSources { d with inner := inner.markReceived b.seq } streamId b)

theorem decodeBlocks_sameSources (streamId : UInt8) (now : Option Instant) (blocks : List Block)
    (d : Decoding F) : Inner.SameSources d.inner (decodeBlocks streamId now blocks d).2.inner := by
  induction blocks generalizing d with
  | nil => exact .refl _
  | cons b blocks ih =>
      have hstep := decodeBlock_sameSources streamId now b d
      unfold decodeBlocks
      generalize decodeBlock streamId now b d = decoded at hstep ⊢
      obtain ⟨_ | _, d'⟩ := decoded
      · exact hstep
      · exact hstep.trans (ih d')

end Decoding

namespace Inner

theorem accepted_sameSources (i : Inner F) (rest : List (UInt8 × Held F))
    (header : DownstreamHeader) :
    SameSources i (i.accepted rest header) ∧
      (i.accepted rest header).pendingDatagrams = rest := by
  unfold accepted anchor
  split <;> exact ⟨⟨rfl, rfl, rfl, rfl⟩, rfl⟩

theorem noteTailGap_sameSources (i : Inner F) (nextExpected : ℕ) :
    SameSources i (i.noteTailGap nextExpected) ∧
      (i.noteTailGap nextExpected).pendingDatagrams = i.pendingDatagrams := by
  unfold noteTailGap
  split <;> exact ⟨⟨rfl, rfl, rfl, rfl⟩, rfl⟩

theorem drainConfirmedGaps_sameSources (i : Inner F) (now : Instant) :
    SameSources i (i.drainConfirmedGaps now) ∧
      (i.drainConfirmedGaps now).pendingDatagrams = i.pendingDatagrams := by
  unfold drainConfirmedGaps
  split <;> exact ⟨⟨rfl, rfl, rfl, rfl⟩, rfl⟩

theorem retireCurrent_sameSources (i : Inner F) :
    SameSources i i.retireCurrent ∧ i.retireCurrent.pendingDatagrams = i.pendingDatagrams := by
  unfold retireCurrent
  split <;> exact ⟨⟨rfl, rfl, rfl, rfl⟩, rfl⟩

theorem releaseInline_sameSources (i : Inner F) :
    SameSources i i.releaseInline ∧ i.releaseInline.pendingDatagrams = i.pendingDatagrams := by
  unfold releaseInline
  exact ⟨⟨rfl, rfl, rfl, rfl⟩, rfl⟩

theorem yieldOwned_sameSources (i : Inner F) (item : ReadyItem F) :
    SameSources i (i.yieldOwned item).2 ∧
      (i.yieldOwned item).2.pendingDatagrams = i.pendingDatagrams := by
  cases item with
  | inline =>
      obtain ⟨hsame, hpending⟩ := i.shareBacking.2.releaseInline_sameSources
      have hshared : SameSources i i.shareBacking.2 := ⟨rfl, rfl, rfl, rfl⟩
      exact ⟨hshared.trans hsame, hpending⟩
  | view => exact ⟨.refl i, rfl⟩
  | event => exact ⟨.refl i, rfl⟩
  | gap => exact ⟨.refl i, rfl⟩

theorem noteJump_sameSources (i : Inner F) (sequence : ℕ) (now : Option Instant) :
    SameSources i (i.noteJump sequence now) := by
  rcases i.noteJump_cases sequence now with ⟨-, hjump⟩ | ⟨-, a, t, -, -, hjump⟩ | ⟨-, -, hjump⟩
  all_goals
    rw [hjump]
    exact ⟨rfl, rfl, rfl, rfl⟩

variable [AsRef F]

theorem decodeData_sameSources (i : Inner F) (streamId : UInt8) (datagram : Held F)
    (header : DownstreamHeader) (now : Option Instant) :
    SameSources i (i.decodeData streamId datagram header now).2 ∧
      (i.decodeData streamId datagram header now).2.pendingDatagrams = i.pendingDatagrams := by
  rcases i.decodeData_cases streamId datagram header now with
    ⟨blocks, e, -, hdecode⟩ | ⟨blocks, -, hloop⟩
  · rw [hdecode]
    exact ⟨⟨rfl, rfl, rfl, rfl⟩, rfl⟩
  have hjump := noteJump_sameSources { i with blocks := blocks } header.sequence now
  have hentered : SameSources i (enterLoop { i with blocks := blocks } header datagram now).inner :=
    ⟨hjump.legs, hjump.recoveryStream, hjump.recvBatch, hjump.capacity⟩
  have hpending :
      (enterLoop { i with blocks := blocks } header datagram now).inner.pendingDatagrams =
        i.pendingDatagrams :=
    (noteJump_frame { i with blocks := blocks } header.sequence now).pendingDatagrams
  have hsame := Decoding.decodeBlocks_sameSources streamId now blocks
    (enterLoop { i with blocks := blocks } header datagram now)
  have hframe := Decoding.decodeBlocks_frame streamId now blocks
    (enterLoop { i with blocks := blocks } header datagram now)
  rcases hloop with ⟨e, d, hloop, hdecode⟩ | ⟨d, hloop, hdecode⟩
  · rw [hloop] at hsame hframe
    rw [hdecode]
    exact ⟨hentered.trans hsame, hframe.pendingDatagrams.trans hpending⟩
  · rw [hloop] at hsame hframe
    have hend := hentered.trans hsame
    rw [hdecode]
    dsimp only at hend ⊢
    unfold Decoding.install
    split
    · exact ⟨⟨hend.legs, hend.recoveryStream, hend.recvBatch, hend.capacity⟩,
        hframe.pendingDatagrams.trans hpending⟩
    · exact ⟨hend, hframe.pendingDatagrams.trans hpending⟩

/-- Processing pops the datagram it decodes and leaves the sources alone. -/
theorem Processed.sameSources {i i' : Inner F} {now : Option Instant}
    {r : Except MoldUdpError Unit} (h : i.Processed now r i') :
    SameSources i i' ∧ i'.pendingDatagrams = i.pendingDatagrams.tail := by
  cases h with
  | idle hpop => exact ⟨.refl _, by rw [hpop]; rfl⟩
  | unparsed _ hpop => exact ⟨⟨rfl, rfl, rfl, rfl⟩, by rw [hpop]; rfl⟩
  | mismatch _ hpop => exact ⟨⟨rfl, rfl, rfl, rfl⟩, by rw [hpop]; rfl⟩
  | @control _ _ rest header ev hpop =>
      obtain ⟨haccepted, hrest⟩ := i.accepted_sameSources rest header
      obtain ⟨htail, hkept⟩ := (i.accepted rest header).noteTailGap_sameSources header.sequence
      have hend := haccepted.trans htail
      refine ⟨⟨hend.legs, hend.recoveryStream, hend.recvBatch, hend.capacity⟩, ?_⟩
      rw [hpop]
      exact hkept.trans hrest
  | @data streamId datagram rest header hpop =>
      obtain ⟨haccepted, hrest⟩ := i.accepted_sameSources rest header
      obtain ⟨hdata, hkept⟩ :=
        (i.accepted rest header).decodeData_sameSources streamId datagram header now
      refine ⟨haccepted.trans hdata, ?_⟩
      rw [hpop]
      exact hkept.trans hrest

theorem decodeNext_sameSources (i : Inner F) (now : Instant) :
    SameSources i (i.decodeNext now).2 ∧
      (i.decodeNext now).2.pendingDatagrams = i.pendingDatagrams.tail := by
  obtain ⟨hsame, hpop⟩ := (i.processNextPending_processed (i.clock now)).sameSources
  unfold decodeNext
  generalize i.processNextPending (i.clock now) = processed at hsame hpop ⊢
  obtain ⟨_ | _, i'⟩ := processed
  · exact ⟨hsame, hpop⟩
  · dsimp only at hsame hpop ⊢
    split
    · obtain ⟨hdrained, hkept⟩ := i'.drainConfirmedGaps_sameSources now
      exact ⟨hsame.trans hdrained, hkept.trans hpop⟩
    · exact ⟨hsame, hpop⟩

end Inner

end MoldUdp
