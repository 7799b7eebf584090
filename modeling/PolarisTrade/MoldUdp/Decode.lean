import PolarisTrade.MoldUdp.Receiver

/-!
# The decode path

Session and sequence checks, reassembly, gap detection, and turning ready items
into outcomes.  A method on `&mut self` that can fail returns its result next to
the state it leaves behind, since an early return keeps every write before it.
-/

namespace MoldUdp

open Transport Word

variable {F : Type}

namespace Inner

/-! ## Handing items out -/

def releaseInline (i : Inner F) : Inner F :=
  let pending := (i.inlinePending + max64) % 2 ^ 64
  { i with
    inlinePending := pending
    backing := if pending = 0 then .empty else i.backing }

def retireCurrent (i : Inner F) : Inner F :=
  match i.current with
  | some (.inline ..) => releaseInline { i with current := none }
  | _ => { i with current := none }

/-- Hold `item` as current and borrow the outcome from it; `none` is a panic. -/
def yieldItem [AsRef F] (i : Inner F) (item : ReadyItem F) :
    Option (Except MoldUdpError (MoldUdpOutcome F) × Inner F) :=
  let i := { i with current := some item }
  match item with
  | .inline sequence streamId offset len =>
      (slice i.backing.bytes offset len).map fun payload ↦
        (.ok (.frame payload sequence streamId), i)
  | .view view sequence streamId =>
      view.asRef.map fun payload ↦ (.ok (.frame payload sequence streamId), i)
  | .event ev => some (.ok (.event ev), i)
  | .gap => some (.error .gapDetected, i)

def shareBacking (i : Inner F) : Held F × Inner F :=
  (i.backing.share.2, { i with backing := i.backing.share.1 })

def yieldOwned (i : Inner F) (item : ReadyItem F) :
    Except MoldUdpError (MoldUdpOutcome F) × Inner F :=
  match item with
  | .inline sequence streamId offset len =>
      let (arc, i) := i.shareBacking
      (.ok (.owned ⟨arc, offset, len⟩ sequence streamId), i.releaseInline)
  | .view view sequence streamId => (.ok (.owned view sequence streamId), i)
  | .event ev => (.ok (.event ev), i)
  | .gap => (.error .gapDetected, i)

/-! ## Gaps and the header -/

def noteTailGap (i : Inner F) (nextExpected : ℕ) : Inner F :=
  if i.nextUnseen < nextExpected then
    { i with
      nextUnseen := nextExpected
      gapHandler := i.gapHandler.recordMissingRange i.nextUnseen nextExpected
      ready := i.ready ++ [.gap] }
  else i

def drainConfirmedGaps (i : Inner F) (now : Instant) : Inner F :=
  match i.arbiter with
  | none => i
  | some arbiter =>
      let (confirmed, arbiter) := arbiter.confirmedGaps now
      { i with
        arbiter := some arbiter
        gapHandler := confirmed.foldl GapRequestHandler.recordGap i.gapHandler
        ready := i.ready ++ confirmed.map fun _ ↦ .gap }

/-- Anchor the expected sequence unless something anchored it before. -/
def anchor (i : Inner F) (header : DownstreamHeader) : Inner F :=
  if i.seqAnchored then i
  else
    { i with
      reassembler := i.reassembler.resetExpected header.sequence
      nextUnseen := header.sequence
      arbiter := i.arbiter.map fun a ↦ a.rebase header.sequence
      seqAnchored := true }

def acceptHeader (i : Inner F) (header : DownstreamHeader) :
    Except MoldUdpError Unit × Inner F :=
  match i.session with
  | none => (.ok (), anchor { i with session := some header.session } header)
  | some expected =>
      if expected ≠ header.session then
        (.error (.sessionMismatch expected header.session), i)
      else (.ok (), i.anchor header)

/-- The jump past the highest sequence seen: staged with several legs, recorded on one. -/
def noteJump (i : Inner F) (sequence : ℕ) (now : Option Instant) : Inner F :=
  if i.nextUnseen < sequence then
    match i.arbiter, now with
    | some arbiter, some now =>
        { i with arbiter := some (arbiter.noteMissingRange i.nextUnseen sequence now) }
    | _, _ =>
        { i with
          gapHandler := i.gapHandler.recordMissingRange i.nextUnseen sequence
          ready := i.ready ++ [.gap] }
  else i

def observe (i : Inner F) (streamId : UInt8) (seq : ℕ) (now : Option Instant) :
    ArbiterVerdict × Inner F :=
  match i.arbiter, now with
  | some arbiter, some now =>
      let (verdict, arbiter) := arbiter.observe streamId seq now
      (verdict, { i with arbiter := some arbiter })
  | _, _ => (.forward, i)

def markReceived (i : Inner F) (seq : ℕ) : Inner F :=
  { i with gapHandler := i.gapHandler.markReceived seq }

end Inner

/-! ## The block loop -/

/-- `(header.sequence..).zip(header.blocks(..))` collected up to the first error. -/
def numberBlocks : ℕ → List (Except MoldUdpError (ℕ × List UInt8)) →
    List Block × Except MoldUdpError Unit
  | _, [] => ([], .ok ())
  | _, .error e :: _ => ([], .error e)
  | seq, .ok (offset, bytes) :: rest =>
      let (blocks, result) := numberBlocks (wrappingAdd seq 1) rest
      (⟨seq, offset, bytes.length⟩ :: blocks, result)

/-- Drained views as ready items, numbered from `seq` on. -/
def viewItems (streamId : UInt8) : ℕ → List (MessageView F) → List (ReadyItem F)
  | _, [] => []
  | seq, view :: views => .view view seq streamId :: viewItems streamId (wrappingAdd seq 1) views

/-- The receiver inside the block loop, with the loop's own `backing` and `inline`. -/
structure Decoding (F : Type) where
  inner : Inner F
  backing : Backing F
  inline : ℕ

namespace Decoding

/-- A block at `expected_next`: inline item, then what it makes contiguous. -/
def deliver (d : Decoding F) (streamId : UInt8) (b : Block) : Decoding F :=
  let (views, reassembler) := (d.inner.reassembler.advanceExpected 1).drainReady
  { d with
    inner :=
      { d.inner with
        reassembler := reassembler
        ready := d.inner.ready ++ .inline b.seq streamId b.offset b.len ::
          viewItems streamId (wrappingAdd b.seq 1) views }
    inline := d.inline + 1 }

/-- A block ahead of `expected_next`: share the datagram and buffer a view of it. -/
def buffer (d : Decoding F) (streamId : UInt8) (b : Block) :
    Except MoldUdpError Unit × Decoding F :=
  let d' := { d with backing := d.backing.share.1 }
  match d.inner.reassembler.insert b.seq ⟨d.backing.share.2, b.offset, b.len⟩ with
  | .error e => (.error e, d')
  | .ok (false, reassembler) =>
      (.ok (), { d' with inner := { d.inner with reassembler := reassembler } })
  | .ok (true, reassembler) =>
      let (views, reassembler) := reassembler.drainReady
      (.ok (), { d' with
        inner :=
          { d.inner with
            reassembler := reassembler
            ready := d.inner.ready ++ viewItems streamId b.seq views } })

/-- Where a block goes once its number is marked received; below `expected_next` it
is a stale duplicate. -/
def place (d : Decoding F) (streamId : UInt8) (b : Block) :
    Except MoldUdpError Unit × Decoding F :=
  match compare b.seq d.inner.reassembler.expectedNext with
  | .eq => (.ok (), d.deliver streamId b)
  | .gt => d.buffer streamId b
  | .lt => (.ok (), d)

def decodeBlock (streamId : UInt8) (now : Option Instant) (b : Block) (d : Decoding F) :
    Except MoldUdpError Unit × Decoding F :=
  match d.inner.observe streamId b.seq now with
  | (.duplicate, inner) => (.ok (), { d with inner := inner })
  | (.outOfWindow, inner) => (.ok (), { d with inner := inner })
  | (.forward, inner) => place { d with inner := inner.markReceived b.seq } streamId b

def decodeBlocks (streamId : UInt8) (now : Option Instant) :
    List Block → Decoding F → Except MoldUdpError Unit × Decoding F
  | [], d => (.ok (), d)
  | b :: blocks, d =>
      match decodeBlock streamId now b d with
      | (.ok _, d) => decodeBlocks streamId now blocks d
      | (.error e, d) => (.error e, d)

/-- After the loop: keep the datagram while inline items borrow from it. -/
def install (d : Decoding F) : Inner F :=
  if 0 < d.inline then
    { d.inner with backing := d.backing, inlinePending := d.inline }
  else d.inner

end Decoding

namespace Inner

variable [AsRef F]

/-- The receiver as it enters the block loop on a datagram with these blocks. -/
def enterLoop (i : Inner F) (header : DownstreamHeader) (datagram : Held F)
    (now : Option Instant) : Decoding F where
  inner :=
    { i.noteJump header.sequence now with
      nextUnseen := max i.nextUnseen (saturatingAdd header.sequence header.messageCount) }
  backing := .owned datagram
  inline := 0

def decodeData (i : Inner F) (streamId : UInt8) (datagram : Held F) (header : DownstreamHeader)
    (now : Option Instant) : Except MoldUdpError Unit × Inner F :=
  let (blocks, result) := numberBlocks header.sequence (header.blocks datagram.asRef)
  let i := { i with blocks := blocks }
  match result with
  | .error e => (.error e, i)
  | .ok _ =>
      match Decoding.decodeBlocks streamId now blocks (i.enterLoop header datagram now) with
      | (.error e, d) => (.error e, d.inner)
      | (.ok _, d) => (.ok (), d.install)

def pushEvent (i : Inner F) (ev : MoldUdpEvent) : Inner F :=
  { i with ready := i.ready ++ [.event ev] }

def processNextPending (i : Inner F) (now : Option Instant) :
    Except MoldUdpError Unit × Inner F :=
  match i.pendingDatagrams with
  | [] => (.ok (), i)
  | (streamId, datagram) :: rest =>
      let i := { i with pendingDatagrams := rest }
      match parseHeader datagram.asRef with
      | .error e => (.error e, i)
      | .ok header =>
          match i.acceptHeader header with
          | (.error e, i) => (.error e, i)
          | (.ok _, i) =>
              match header.kind with
              | .heartbeat =>
                  (.ok (), (i.noteTailGap header.sequence).pushEvent (.heartbeat header.sequence))
              | .endOfSession =>
                  (.ok (),
                    (i.noteTailGap header.sequence).pushEvent (.endOfSession header.sequence))
              | .data => i.decodeData streamId datagram header now

end Inner

/-! ## What decoding leaves alone -/

/-- The fields no step of the block loop writes. -/
structure Inner.LoopFrame (i i' : Inner F) : Prop where
  current : i'.current = i.current
  pendingDatagrams : i'.pendingDatagrams = i.pendingDatagrams
  backing : i'.backing = i.backing
  inlinePending : i'.inlinePending = i.inlinePending
  nextUnseen : i'.nextUnseen = i.nextUnseen
  session : i'.session = i.session
  seqAnchored : i'.seqAnchored = i.seqAnchored

namespace Inner.LoopFrame

theorem refl (i : Inner F) : LoopFrame i i := ⟨rfl, rfl, rfl, rfl, rfl, rfl, rfl⟩

theorem trans {i j k : Inner F} (hij : LoopFrame i j) (hjk : LoopFrame j k) : LoopFrame i k where
  current := hjk.current.trans hij.current
  pendingDatagrams := hjk.pendingDatagrams.trans hij.pendingDatagrams
  backing := hjk.backing.trans hij.backing
  inlinePending := hjk.inlinePending.trans hij.inlinePending
  nextUnseen := hjk.nextUnseen.trans hij.nextUnseen
  session := hjk.session.trans hij.session
  seqAnchored := hjk.seqAnchored.trans hij.seqAnchored

end Inner.LoopFrame

theorem Inner.observe_frame (i : Inner F) (streamId : UInt8) (seq : ℕ) (now : Option Instant) :
    LoopFrame i (i.observe streamId seq now).2 := by
  unfold observe
  split
  · exact ⟨rfl, rfl, rfl, rfl, rfl, rfl, rfl⟩
  · exact .refl i

namespace Decoding

theorem buffer_frame (d : Decoding F) (streamId : UInt8) (b : Block) :
    Inner.LoopFrame d.inner (d.buffer streamId b).2.inner := by
  unfold buffer
  split <;> exact ⟨rfl, rfl, rfl, rfl, rfl, rfl, rfl⟩

theorem place_frame (d : Decoding F) (streamId : UInt8) (b : Block) :
    Inner.LoopFrame d.inner (d.place streamId b).2.inner := by
  unfold place
  split
  · exact ⟨rfl, rfl, rfl, rfl, rfl, rfl, rfl⟩
  · exact buffer_frame d streamId b
  · exact .refl _

theorem decodeBlock_frame (streamId : UInt8) (now : Option Instant) (b : Block)
    (d : Decoding F) : Inner.LoopFrame d.inner (decodeBlock streamId now b d).2.inner := by
  have hobserve := d.inner.observe_frame streamId b.seq now
  unfold decodeBlock
  generalize d.inner.observe streamId b.seq now = observed at hobserve ⊢
  obtain ⟨verdict, inner⟩ := observed
  cases verdict with
  | duplicate => exact hobserve
  | outOfWindow => exact hobserve
  | forward =>
      have hmark : Inner.LoopFrame inner (inner.markReceived b.seq) :=
        ⟨rfl, rfl, rfl, rfl, rfl, rfl, rfl⟩
      exact (hobserve.trans hmark).trans
        (place_frame { d with inner := inner.markReceived b.seq } streamId b)

theorem decodeBlocks_frame (streamId : UInt8) (now : Option Instant) (blocks : List Block)
    (d : Decoding F) : Inner.LoopFrame d.inner (decodeBlocks streamId now blocks d).2.inner := by
  induction blocks generalizing d with
  | nil => exact .refl _
  | cons b blocks ih =>
      have hstep := decodeBlock_frame streamId now b d
      unfold decodeBlocks
      generalize decodeBlock streamId now b d = decoded at hstep ⊢
      obtain ⟨_ | _, d'⟩ := decoded
      · exact hstep
      · exact hstep.trans (ih d')

end Decoding

/-! ## Inversion -/

/-- Without an error every item is numbered, from `seq` on. -/
theorem numberBlocks_ok {items : List (Except MoldUdpError (ℕ × List UInt8))} :
    ∀ {seq : ℕ} {blocks : List Block}, seq < 2 ^ 64 →
      numberBlocks seq items = (blocks, .ok ()) →
      (∀ e, .error e ∉ items) ∧ blocks.length = items.length ∧
      ∀ k b, blocks[k]? = some b → b.seq = wrappingAdd seq k ∧
        ∃ bytes, items[k]? = some (.ok (b.offset, bytes)) ∧ b.len = bytes.length := by
  induction items with
  | nil =>
      intro seq blocks _ h
      obtain rfl : [] = blocks := (Prod.mk.inj h).1
      simp
  | cons item items ih =>
      intro seq blocks hseq h
      cases item with
      | error e => simp [numberBlocks] at h
      | ok p =>
          obtain ⟨offset, bytes⟩ := p
          obtain ⟨hblocks, hresult⟩ := Prod.mk.inj h
          obtain ⟨herr, hlen, hget⟩ := ih (wrappingAdd_lt seq 1) (Prod.ext rfl hresult)
          subst hblocks
          refine ⟨by simpa using herr, by simpa using hlen, ?_⟩
          intro k b hb
          cases k with
          | zero =>
              obtain rfl : (⟨seq, offset, bytes.length⟩ : Block) = b := by simpa using hb
              exact ⟨(Nat.mod_eq_of_lt hseq).symm, bytes, rfl, rfl⟩
          | succ k =>
              obtain ⟨hnum, hitem⟩ := hget k b (by simpa using hb)
              refine ⟨?_, by simpa using hitem⟩
              rw [hnum, wrappingAdd_add, Nat.add_comm 1 k]

theorem numberBlocks_error {items : List (Except MoldUdpError (ℕ × List UInt8))}
    {e : MoldUdpError} :
    ∀ {seq : ℕ} {blocks : List Block}, numberBlocks seq items = (blocks, .error e) →
      .error e ∈ items := by
  induction items with
  | nil => intro seq blocks h; cases h
  | cons item items ih =>
      intro seq blocks h
      cases item with
      | error e' =>
          cases h
          exact List.mem_cons_self
      | ok p => exact List.mem_cons_of_mem _ (ih (Prod.ext rfl (Prod.mk.inj h).2))

/-- The blocks of a whole datagram: numbered from its header, each a slice of it. -/
theorem numberBlocks_blocks {header : DownstreamHeader} {datagram : List UInt8}
    {blocks : List Block} (hparse : parseHeader datagram = .ok header)
    (h : numberBlocks header.sequence (header.blocks datagram) = (blocks, .ok ())) :
    blocks.length = header.messageCount ∧
      ∀ k b, blocks[k]? = some b → b.seq = wrappingAdd header.sequence k ∧
        ∃ bytes, header.payload datagram k = some bytes ∧
          slice datagram b.offset b.len = some bytes := by
  obtain ⟨herr, hlen, hget⟩ := numberBlocks_ok (parseHeader_sequence_lt hparse) h
  refine ⟨hlen.trans (DownstreamHeader.length_blocks herr), fun k b hb ↦ ?_⟩
  obtain ⟨hnum, bytes, hitem, hblen⟩ := hget k b hb
  refine ⟨hnum, bytes, by simp [DownstreamHeader.payload, hitem], ?_⟩
  rw [hblen]
  exact DownstreamHeader.slice_of_mem_blocks (headerLen_le_of_parseHeader hparse)
    (List.mem_of_getElem? hitem)

namespace Inner

/-- A header is refused for its session, or accepted: the session is locked and the
sequence anchored. -/
theorem acceptHeader_cases (i : Inner F) (header : DownstreamHeader) :
    (∃ expected, i.session = some expected ∧ expected ≠ header.session ∧
      i.acceptHeader header = (.error (.sessionMismatch expected header.session), i)) ∨
    ((i.session = none ∨ i.session = some header.session) ∧
      i.acceptHeader header =
        (.ok (), anchor { i with session := some header.session } header)) := by
  unfold acceptHeader
  cases hsession : i.session with
  | none => exact Or.inr ⟨Or.inl rfl, rfl⟩
  | some expected =>
      by_cases hsame : expected = header.session
      · subst hsame
        have hlocked : { i with session := some header.session } = i := by rw [← hsession]
        rw [hlocked]
        exact Or.inr ⟨Or.inr rfl, by simp⟩
      · exact Or.inl ⟨expected, rfl, hsame, by simp [hsame]⟩

/-- A jump past the highest number seen is staged behind the arbiter, recorded without. -/
theorem noteJump_cases (i : Inner F) (sequence : ℕ) (now : Option Instant) :
    (sequence ≤ i.nextUnseen ∧ i.noteJump sequence now = i) ∨
    (i.nextUnseen < sequence ∧ ∃ a t, i.arbiter = some a ∧ now = some t ∧
      i.noteJump sequence now =
        { i with arbiter := some (a.noteMissingRange i.nextUnseen sequence t) }) ∨
    (i.nextUnseen < sequence ∧ (i.arbiter = none ∨ now = none) ∧ i.noteJump sequence now =
      { i with
        gapHandler := i.gapHandler.recordMissingRange i.nextUnseen sequence
        ready := i.ready ++ [.gap] }) := by
  by_cases hjump : i.nextUnseen < sequence
  · right
    unfold noteJump
    rw [if_pos hjump]
    cases harbiter : i.arbiter with
    | none => exact Or.inr ⟨hjump, Or.inl rfl, rfl⟩
    | some a =>
        cases now with
        | none => exact Or.inr ⟨hjump, Or.inr rfl, rfl⟩
        | some t => exact Or.inl ⟨hjump, a, t, rfl, rfl, rfl⟩
  · exact Or.inl ⟨Nat.le_of_not_lt hjump, if_neg hjump⟩

/-- A jump writes the arbiter, or the gaps and the queue. -/
theorem noteJump_frame (i : Inner F) (sequence : ℕ) (now : Option Instant) :
    LoopFrame i (i.noteJump sequence now) := by
  rcases i.noteJump_cases sequence now with ⟨-, hjump⟩ | ⟨-, a, t, -, -, hjump⟩ | ⟨-, -, hjump⟩
  all_goals
    rw [hjump]
    exact ⟨rfl, rfl, rfl, rfl, rfl, rfl, rfl⟩

theorem isSome_arbiter_noteJump (i : Inner F) (sequence : ℕ) (now : Option Instant) :
    (i.noteJump sequence now).arbiter.isSome = i.arbiter.isSome := by
  rcases i.noteJump_cases sequence now with
    ⟨-, hjump⟩ | ⟨-, a, t, harbiter, -, hjump⟩ | ⟨-, -, hjump⟩
  · rw [hjump]
  · rw [hjump, harbiter]
    rfl
  · rw [hjump]

/-- The arbiter would forward `seq`; on one leg everything goes through. -/
def Takes (i : Inner F) (now : Option Instant) (seq : ℕ) : Prop :=
  match i.arbiter, now with
  | some arbiter, some _ => arbiter.Takes seq
  | _, _ => True

/-- One observation: forwarded without an arbiter, forwarded by it, or dropped. -/
theorem observe_cases (i : Inner F) (streamId : UInt8) {seq : ℕ} (now : Option Instant)
    (hseq : seq < 2 ^ 64) (hlen : ∀ a ∈ i.arbiter, a.windowLen < 2 ^ 64) :
    ((i.arbiter = none ∨ now = none) ∧ i.observe streamId seq now = (.forward, i)) ∨
    (∃ a a' t, i.arbiter = some a ∧ now = some t ∧ a.Takes seq ∧ a.Forwarded a' seq ∧
      i.observe streamId seq now = (.forward, { i with arbiter := some a' })) ∨
    ∃ a a' t verdict, i.arbiter = some a ∧ now = some t ∧ ¬ a.Takes seq ∧ a.Unmoved a' ∧
      verdict ≠ .forward ∧
      i.observe streamId seq now = (verdict, { i with arbiter := some a' }) := by
  unfold observe
  cases harbiter : i.arbiter with
  | none => exact Or.inl ⟨Or.inl rfl, rfl⟩
  | some a =>
      cases now with
      | none => exact Or.inl ⟨Or.inr rfl, rfl⟩
      | some t =>
          have hlen := hlen a harbiter
          right
          by_cases htakes : a.Takes seq
          · obtain ⟨hverdict, hforwarded⟩ :=
              @AbArbiter.observe_takes a seq streamId t hseq hlen htakes
            exact Or.inl ⟨a, _, t, rfl, rfl, htakes, hforwarded, Prod.ext hverdict rfl⟩
          · obtain ⟨hverdict, hunmoved⟩ :=
              @AbArbiter.observe_drops a seq streamId t hseq hlen htakes
            exact Or.inr ⟨a, _, t, _, rfl, rfl, htakes, hunmoved, hverdict, rfl⟩

end Inner

namespace Decoding

/-- The block goes through without an arbiter. -/
def unarbitrated (d : Decoding F) (b : Block) : Decoding F :=
  { d with inner := d.inner.markReceived b.seq }

/-- The arbiter, now `a`, lets the block through. -/
def forwarded (d : Decoding F) (a : AbArbiter) (b : Block) : Decoding F :=
  { d with inner := { d.inner with arbiter := some a }.markReceived b.seq }

/-- The arbiter, now `a`, drops the block. -/
def dropped (d : Decoding F) (a : AbArbiter) : Decoding F :=
  { d with inner := { d.inner with arbiter := some a } }

/-- One round of the block loop: placed without an arbiter, placed after it, or dropped. -/
theorem decodeBlock_cases (streamId : UInt8) (now : Option Instant) (b : Block) (d : Decoding F)
    (hseq : b.seq < 2 ^ 64) (hlen : ∀ a ∈ d.inner.arbiter, a.windowLen < 2 ^ 64) :
    ((d.inner.arbiter = none ∨ now = none) ∧
      decodeBlock streamId now b d = (d.unarbitrated b).place streamId b) ∨
    (∃ a a' t, d.inner.arbiter = some a ∧ now = some t ∧ a.Takes b.seq ∧ a.Forwarded a' b.seq ∧
      decodeBlock streamId now b d = (d.forwarded a' b).place streamId b) ∨
    ∃ a a' t, d.inner.arbiter = some a ∧ now = some t ∧ ¬ a.Takes b.seq ∧ a.Unmoved a' ∧
      decodeBlock streamId now b d = (.ok (), d.dropped a') := by
  unfold decodeBlock
  rcases d.inner.observe_cases streamId now hseq hlen with
    ⟨hnone, hobserve⟩ | ⟨a, a', t, harbiter, hnow, htakes, hforward, hobserve⟩ |
    ⟨a, a', t, verdict, harbiter, hnow, hdrops, hunmoved, hverdict, hobserve⟩
  · rw [hobserve]
    exact Or.inl ⟨hnone, rfl⟩
  · rw [hobserve]
    exact Or.inr (Or.inl ⟨a, a', t, harbiter, hnow, htakes, hforward, rfl⟩)
  · refine Or.inr (Or.inr ⟨a, a', t, harbiter, hnow, hdrops, hunmoved, ?_⟩)
    rw [hobserve]
    cases verdict with
    | forward => exact (hverdict rfl).elim
    | duplicate => rfl
    | outOfWindow => rfl

end Decoding

namespace Inner

/-- The receiver after popping a datagram and accepting its header. -/
def accepted (i : Inner F) (rest : List (UInt8 × Held F)) (header : DownstreamHeader) : Inner F :=
  anchor { i with pendingDatagrams := rest, session := some header.session } header

end Inner

/-- Everything `process_next_pending` can do, with the result it returns and the state
it leaves. -/
inductive Inner.Processed [AsRef F] (i : Inner F) (now : Option Instant) :
    Except MoldUdpError Unit → Inner F → Prop
  | idle : i.pendingDatagrams = [] → Processed i now (.ok ()) i
  | unparsed {streamId datagram rest} (e : MoldUdpError) :
      i.pendingDatagrams = (streamId, datagram) :: rest →
      parseHeader datagram.asRef = .error e →
      Processed i now (.error e) { i with pendingDatagrams := rest }
  | mismatch {streamId datagram rest header} (expected : SessionId) :
      i.pendingDatagrams = (streamId, datagram) :: rest →
      parseHeader datagram.asRef = .ok header →
      i.session = some expected → expected ≠ header.session →
      Processed i now (.error (.sessionMismatch expected header.session))
        { i with pendingDatagrams := rest }
  | control {streamId datagram rest header} (ev : MoldUdpEvent) :
      i.pendingDatagrams = (streamId, datagram) :: rest →
      parseHeader datagram.asRef = .ok header →
      (i.session = none ∨ i.session = some header.session) → header.kind ≠ .data →
      Processed i now (.ok ())
        (((i.accepted rest header).noteTailGap header.sequence).pushEvent ev)
  | data {streamId datagram rest header} :
      i.pendingDatagrams = (streamId, datagram) :: rest →
      parseHeader datagram.asRef = .ok header →
      (i.session = none ∨ i.session = some header.session) → header.kind = .data →
      Processed i now ((i.accepted rest header).decodeData streamId datagram header now).1
        ((i.accepted rest header).decodeData streamId datagram header now).2

theorem Inner.processNextPending_processed [AsRef F] (i : Inner F) (now : Option Instant) :
    i.Processed now (i.processNextPending now).1 (i.processNextPending now).2 := by
  unfold processNextPending
  cases hpending : i.pendingDatagrams with
  | nil => exact .idle hpending
  | cons p rest =>
      obtain ⟨streamId, datagram⟩ := p
      dsimp only
      cases hparse : parseHeader datagram.asRef with
      | error e => exact .unparsed e hpending hparse
      | ok header =>
          dsimp only
          rcases acceptHeader_cases { i with pendingDatagrams := rest } header with
            ⟨expected, hsession, hne, haccept⟩ | ⟨hsession, haccept⟩
          · rw [haccept]
            exact .mismatch expected hpending hparse hsession hne
          · rw [haccept]
            dsimp only
            cases hkind : header.kind with
            | heartbeat => exact .control _ hpending hparse hsession (by simp [hkind])
            | endOfSession => exact .control _ hpending hparse hsession (by simp [hkind])
            | data => exact .data hpending hparse hsession hkind

/-- An accepted data datagram goes into the block loop. -/
theorem Inner.processNextPending_data [AsRef F] {i : Inner F} {streamId : UInt8}
    {datagram : Held F} {rest : List (UInt8 × Held F)} {header : DownstreamHeader}
    (now : Option Instant) (hpop : i.pendingDatagrams = (streamId, datagram) :: rest)
    (hparse : parseHeader datagram.asRef = .ok header)
    (hsession : i.session = some header.session) (hkind : header.kind = .data) :
    i.processNextPending now =
      (i.accepted rest header).decodeData streamId datagram header now := by
  unfold processNextPending
  rcases acceptHeader_cases { i with pendingDatagrams := rest } header with
    ⟨expected, hlocked, hne, -⟩ | ⟨-, haccept⟩
  · exact (hne (Option.some.inj (hlocked.symm.trans hsession))).elim
  · simp only [hpop, hparse, haccept, hkind]
    rfl

/-- The three ways a data datagram ends: a truncated block, an insert refused inside the
loop, or the loop run to its end. -/
theorem Inner.decodeData_cases [AsRef F] (i : Inner F) (streamId : UInt8) (datagram : Held F)
    (header : DownstreamHeader) (now : Option Instant) :
    (∃ blocks e, numberBlocks header.sequence (header.blocks datagram.asRef) =
        (blocks, .error e) ∧
      i.decodeData streamId datagram header now = (.error e, { i with blocks := blocks })) ∨
    ∃ blocks, numberBlocks header.sequence (header.blocks datagram.asRef) = (blocks, .ok ()) ∧
      ((∃ e d, Decoding.decodeBlocks streamId now blocks
            (enterLoop { i with blocks := blocks } header datagram now) = (.error e, d) ∧
          i.decodeData streamId datagram header now = (.error e, d.inner)) ∨
        ∃ d, Decoding.decodeBlocks streamId now blocks
            (enterLoop { i with blocks := blocks } header datagram now) = (.ok (), d) ∧
          i.decodeData streamId datagram header now = (.ok (), d.install)) := by
  unfold decodeData
  rcases hnumber : numberBlocks header.sequence (header.blocks datagram.asRef) with
    ⟨blocks, e | u⟩
  · exact Or.inl ⟨blocks, e, rfl, rfl⟩
  · refine Or.inr ⟨blocks, rfl, ?_⟩
    dsimp only
    rcases Decoding.decodeBlocks streamId now blocks
        (enterLoop { i with blocks := blocks } header datagram now) with ⟨e | u, d⟩
    · exact Or.inl ⟨e, d, rfl, rfl⟩
    · exact Or.inr ⟨d, rfl, rfl⟩

/-! ## The item in the caller's hands -/

namespace Inner

@[simp] theorem current_anchor (i : Inner F) (header : DownstreamHeader) :
    (i.anchor header).current = i.current := by
  unfold anchor
  split <;> rfl

@[simp] theorem current_noteTailGap (i : Inner F) (nextExpected : ℕ) :
    (i.noteTailGap nextExpected).current = i.current := by
  unfold noteTailGap
  split <;> rfl

@[simp] theorem current_drainConfirmedGaps (i : Inner F) (now : Instant) :
    (i.drainConfirmedGaps now).current = i.current := by
  unfold drainConfirmedGaps
  split <;> rfl

@[simp] theorem current_accepted (i : Inner F) (rest : List (UInt8 × Held F))
    (header : DownstreamHeader) : (i.accepted rest header).current = i.current :=
  current_anchor _ header

variable [AsRef F]

/-- Decoding a data datagram leaves the current item, the session and the anchor alone. -/
theorem decodeData_kept (i : Inner F) (streamId : UInt8) (datagram : Held F)
    (header : DownstreamHeader) (now : Option Instant) :
    (i.decodeData streamId datagram header now).2.current = i.current ∧
      (i.decodeData streamId datagram header now).2.session = i.session ∧
      (i.decodeData streamId datagram header now).2.seqAnchored = i.seqAnchored := by
  rcases i.decodeData_cases streamId datagram header now with
    ⟨blocks, e, -, hdecode⟩ | ⟨blocks, -, ⟨e, d, hloop, hdecode⟩ | ⟨d, hloop, hdecode⟩⟩
  · rw [hdecode]
    exact ⟨rfl, rfl, rfl⟩
  all_goals
    have hframe := Decoding.decodeBlocks_frame streamId now blocks
      (enterLoop { i with blocks := blocks } header datagram now)
    have hjump := noteJump_frame { i with blocks := blocks } header.sequence now
    rw [hloop] at hframe
    rw [hdecode]
  · exact ⟨hframe.current.trans hjump.current, hframe.session.trans hjump.session,
      hframe.seqAnchored.trans hjump.seqAnchored⟩
  · dsimp only
    unfold Decoding.install
    split <;> exact ⟨hframe.current.trans hjump.current, hframe.session.trans hjump.session,
      hframe.seqAnchored.trans hjump.seqAnchored⟩

theorem Processed.current {i i' : Inner F} {now : Option Instant}
    {r : Except MoldUdpError Unit} (h : i.Processed now r i') : i'.current = i.current := by
  cases h with
  | idle => rfl
  | unparsed => rfl
  | mismatch => rfl
  | control =>
      exact (current_noteTailGap _ _).trans (current_accepted _ _ _)
  | data =>
      exact (decodeData_kept _ _ _ _ _).1.trans (current_accepted _ _ _)

end Inner

end MoldUdp
