import PolarisTrade.MoldUdp.Emitter
import PolarisTrade.MoldUdp.Noticing
import PolarisTrade.MoldUdp.Window

/-!
# Sequence arithmetic

Every sum of sequence numbers a decode computes, as the exact number it should be: the
code adds 64-bit words, so a sum is right exactly when it fits.  `RangeFrom` counts one
past the last number it hands out, and once more when the iterator it is zipped with has
ended.  With room above the anchor and above every data datagram all sums fit.
-/

namespace MoldUdp

open Transport Word

variable {F : Type}

/-! ## The sums -/

/-- Sums of `(seq..).zip(it)` run to the end of an `it` of `count` items. -/
def rangeFromSums (seq count : ℕ) : List ℕ := List.range' (seq + 1) (count + 1)

theorem mem_rangeFromSums {seq count x : ℕ} :
    x ∈ rangeFromSums seq count ↔ seq + 1 ≤ x ∧ x < seq + 1 + (count + 1) := by
  rw [rangeFromSums, List.mem_range'_1]

namespace SequenceReassembler

variable {S : Type}

def advanceExpectedSums (r : SequenceReassembler S) (n : ℕ) : List ℕ := [r.expectedNext + n]

/-- `DrainCursor::next` adds one for every payload it yields. -/
def drainReadySums (r : SequenceReassembler S) : List ℕ :=
  List.range' (r.expectedNext + 1) r.drainReady.1.length

end SequenceReassembler

namespace GapRequestHandler

def recordGapSums (seq : ℕ) : List ℕ := [seq + 1]

def markReceivedSums (g : GapRequestHandler) (seq : ℕ) : List ℕ :=
  match g.gaps.lastUpTo seq with
  | none => []
  | some (_, stop) => if stop ≤ seq then [] else [seq + 1]

end GapRequestHandler

namespace AbArbiter

def noteMissingRangeSums (a : AbArbiter) (start endExclusive : ℕ) : List ℕ :=
  ((List.range' start (endExclusive - start)).filter fun seq ↦ a.windowBase ≤ seq).map
    fun _ ↦ a.windowBase + a.windowLen

def observeSums (a : AbArbiter) (seq : ℕ) : List ℕ :=
  if seq < a.windowBase then []
  else
    (a.windowBase + a.windowLen) ::
      if a.windowBase + a.windowLen ≤ seq then
        let targetBase := seq - a.windowLen + 1
        targetBase :: List.range' (a.windowBase + 1) (targetBase - a.windowBase)
      else []

end AbArbiter

namespace Inner

def noteJumpSums (i : Inner F) (sequence : ℕ) (now : Option Instant) : List ℕ :=
  if i.nextUnseen < sequence then
    match i.arbiter, now with
    | some arbiter, some _ => arbiter.noteMissingRangeSums i.nextUnseen sequence
    | _, _ => []
  else []

def observeSums (i : Inner F) (seq : ℕ) (now : Option Instant) : List ℕ :=
  match i.arbiter, now with
  | some arbiter, some _ => arbiter.observeSums seq
  | _, _ => []

end Inner

namespace Decoding

def deliverSums (d : Decoding F) (b : Block) : List ℕ :=
  let reassembler := d.inner.reassembler.advanceExpected 1
  d.inner.reassembler.advanceExpectedSums 1 ++ (b.seq + 1) ::
    (rangeFromSums (b.seq + 1) reassembler.drainReady.1.length ++ reassembler.drainReadySums)

def bufferSums (d : Decoding F) (b : Block) : List ℕ :=
  match d.inner.reassembler.insert b.seq ⟨d.backing.share.2, b.offset, b.len⟩ with
  | .ok (true, reassembler) =>
      rangeFromSums b.seq reassembler.drainReady.1.length ++ reassembler.drainReadySums
  | _ => []

def placeSums (d : Decoding F) (b : Block) : List ℕ :=
  match compare b.seq d.inner.reassembler.expectedNext with
  | .eq => d.deliverSums b
  | .gt => d.bufferSums b
  | .lt => []

def decodeBlockSums (streamId : UInt8) (now : Option Instant) (b : Block) (d : Decoding F) :
    List ℕ :=
  d.inner.observeSums b.seq now ++
    match d.inner.observe streamId b.seq now with
    | (.forward, inner) =>
        inner.gapHandler.markReceivedSums b.seq ++
          placeSums { d with inner := inner.markReceived b.seq } b
    | _ => []

def decodeBlocksSums (streamId : UInt8) (now : Option Instant) : List Block → Decoding F → List ℕ
  | [], _ => []
  | b :: blocks, d =>
      decodeBlockSums streamId now b d ++
        match decodeBlock streamId now b d with
        | (.ok _, d) => decodeBlocksSums streamId now blocks d
        | (.error _, _) => []

end Decoding

namespace Inner

variable [AsRef F]

def decodeDataSums (i : Inner F) (streamId : UInt8) (datagram : Held F)
    (header : DownstreamHeader) (now : Option Instant) : List ℕ :=
  let (blocks, result) := numberBlocks header.sequence (header.blocks datagram.asRef)
  let i := { i with blocks := blocks }
  rangeFromSums header.sequence blocks.length ++
    match result with
    | .error _ => []
    | .ok _ =>
        i.noteJumpSums header.sequence now ++
          Decoding.decodeBlocksSums streamId now blocks (i.enterLoop header datagram now)

def processNextPendingSums (i : Inner F) (now : Option Instant) : List ℕ :=
  match i.pendingDatagrams with
  | [] => []
  | (streamId, datagram) :: rest =>
      let i := { i with pendingDatagrams := rest }
      match parseHeader datagram.asRef with
      | .error _ => []
      | .ok header =>
          match i.acceptHeader header with
          | (.error _, _) => []
          | (.ok _, i) =>
              match header.kind with
              | .data => i.decodeDataSums streamId datagram header now
              | _ => []

/-- All sums of one decode, the promoted candidates included. -/
def decodeNextSums (i : Inner F) (now : Instant) : List ℕ :=
  i.processNextPendingSums (i.clock now) ++
    (i.confirmed now).flatMap GapRequestHandler.recordGapSums

end Inner

/-! ## Room for the sums -/

/-- Every one of the sums is a 64-bit word. -/
def SumsFit (sums : List ℕ) : Prop := ∀ x ∈ sums, x < 2 ^ 64

@[simp] theorem sumsFit_nil : SumsFit [] := fun _ hx ↦ (List.not_mem_nil hx).elim

@[simp] theorem sumsFit_cons {x : ℕ} {sums : List ℕ} :
    SumsFit (x :: sums) ↔ x < 2 ^ 64 ∧ SumsFit sums := List.forall_mem_cons

@[simp] theorem sumsFit_append {sums sums' : List ℕ} :
    SumsFit (sums ++ sums') ↔ SumsFit sums ∧ SumsFit sums' := List.forall_mem_append

theorem sumsFit_rangeFromSums {seq count : ℕ} (h : seq + count + 1 < 2 ^ 64) :
    SumsFit (rangeFromSums seq count) := by
  intro x hx
  have := (mem_rangeFromSums.mp hx).2
  omega

theorem SequenceReassembler.room_drainReady {S : Type} {r : SequenceReassembler S}
    (hring : ∀ s, (r.lookup s).isSome → s + 2 < 2 ^ 64) (hnext : r.expectedNext + 1 < 2 ^ 64) :
    r.expectedNext + r.drainReady.1.length + 1 < 2 ^ 64 := by
  obtain ⟨-, hpay, -⟩ :=
    @SequenceReassembler.drain_spec _ r.capacity r fun s hs ↦ by have := hring s hs; omega
  change ∀ j, j < r.drainReady.1.length → _ = r.drainReady.1[j]? at hpay
  rcases Nat.eq_zero_or_pos r.drainReady.1.length with hzero | hpos
  · omega
  · -- the last payload drained was in the ring
    have hlast := hpay (r.drainReady.1.length - 1) (by omega)
    rw [List.getElem?_eq_getElem (by omega)] at hlast
    have := hring _ (Option.isSome_iff_exists.mpr ⟨_, hlast⟩)
    omega

theorem SequenceReassembler.sumsFit_drainReady {S : Type} {r : SequenceReassembler S}
    (h : r.expectedNext + r.drainReady.1.length < 2 ^ 64) : SumsFit r.drainReadySums := by
  intro x hx
  have := (List.mem_range'_1.mp hx).2
  omega

theorem AbArbiter.sumsFit_observe {a : AbArbiter} {seq : ℕ}
    (hwindow : a.windowBase + a.windowLen < 2 ^ 64) (hseq : seq < 2 ^ 64) :
    SumsFit (a.observeSums seq) := by
  have hpos := a.windowLen_pos
  unfold observeSums
  split
  · exact sumsFit_nil
  · refine sumsFit_cons.mpr ⟨hwindow, ?_⟩
    split
    · refine sumsFit_cons.mpr ⟨by omega, fun x hx ↦ ?_⟩
      have := (List.mem_range'_1.mp hx).2
      omega
    · exact sumsFit_nil

theorem AbArbiter.sumsFit_noteMissingRange {a : AbArbiter}
    (hwindow : a.windowBase + a.windowLen < 2 ^ 64) (start stop : ℕ) :
    SumsFit (a.noteMissingRangeSums start stop) := by
  intro x hx
  obtain ⟨seq, -, rfl⟩ := List.mem_map.mp hx
  exact hwindow

/-- Only a tracked number is added to, and the end of its range is a word. -/
theorem GapRequestHandler.WellFormed.sumsFit_markReceived {g : GapRequestHandler}
    (hg : g.WellFormed) (seq : ℕ) : SumsFit (g.markReceivedSums seq) := by
  unfold markReceivedSums
  split
  · exact sumsFit_nil
  · next start stop hlast =>
      split
      · exact sumsFit_nil
      · have := hg.bounded _ (SortedMap.lastUpTo_mem hlast).1
        exact sumsFit_cons.mpr ⟨by omega, sumsFit_nil⟩

/-- The window ends within the words, and the numbers in the ring have two successors. -/
structure Inner.Roomy (i : Inner F) : Prop where
  ring : ∀ s, (i.reassembler.lookup s).isSome → s + 2 < 2 ^ 64
  window : ∀ a ∈ i.arbiter, a.windowBase + a.windowLen < 2 ^ 64
  gaps : i.gapHandler.WellFormed

namespace Inner.Roomy

variable {i i' : Inner F}

theorem congr (h : i.Roomy) (hring : i'.reassembler = i.reassembler)
    (harbiter : i'.arbiter = i.arbiter) (hgap : i'.gapHandler = i.gapHandler) : i'.Roomy :=
  ⟨fun s hs ↦ h.ring s (hring ▸ hs), fun a ha ↦ h.window a (harbiter ▸ ha), hgap ▸ h.gaps⟩

theorem fits (h : i.Roomy) : i.RingFits := fun s hs ↦ by
  have := h.ring s hs
  omega

theorem lt_len (h : i.Roomy) : ∀ a ∈ i.arbiter, a.windowLen < 2 ^ 64 := fun a ha ↦ by
  have := h.window a ha
  omega

theorem markReceived (h : i.Roomy) (seq : ℕ) : (i.markReceived seq).Roomy :=
  ⟨h.ring, h.window, (GapRequestHandler.markReceived_spec h.gaps seq).1⟩

theorem sumsFit_observe (h : i.Roomy) {seq : ℕ} (now : Option Instant) (hseq : seq < 2 ^ 64) :
    SumsFit (i.observeSums seq now) := by
  unfold Inner.observeSums
  split
  · next harbiter => exact AbArbiter.sumsFit_observe (h.window _ harbiter) hseq
  · exact sumsFit_nil

theorem sumsFit_noteJump (h : i.Roomy) (sequence : ℕ) (now : Option Instant) :
    SumsFit (i.noteJumpSums sequence now) := by
  unfold noteJumpSums
  split
  · split
    · next harbiter => exact AbArbiter.sumsFit_noteMissingRange (h.window _ harbiter) _ _
    · exact sumsFit_nil
  · exact sumsFit_nil

/-- The arbiter, now `a'`, has forwarded a number with a successor. -/
theorem forwarded (h : i.Roomy) {a a' : AbArbiter} {seq : ℕ} (harbiter : i.arbiter = some a)
    (hforward : a.Forwarded a' seq) (hseq : seq + 1 < 2 ^ 64) :
    ({ i with arbiter := some a' } : Inner F).Roomy := by
  refine ⟨h.ring, ?_, h.gaps⟩
  rintro _ ⟨⟩
  have hwindow := h.window a harbiter
  rw [hforward.base, hforward.len]
  omega

theorem unmoved (h : i.Roomy) {a a' : AbArbiter} (harbiter : i.arbiter = some a)
    (hunmoved : a.Unmoved a') : ({ i with arbiter := some a' } : Inner F).Roomy := by
  refine ⟨h.ring, ?_, h.gaps⟩
  rintro _ ⟨⟩
  rw [hunmoved.base, hunmoved.len]
  exact h.window a harbiter

end Inner.Roomy

/-! ## The block loop -/

namespace Decoding

variable {d : Decoding F}

theorem deliver_roomy (h : d.inner.Roomy) (streamId : UInt8) {b : Block}
    (hb : b.seq = d.inner.reassembler.expectedNext) (hroom : b.seq + 2 < 2 ^ 64) :
    (d.deliver streamId b).inner.Roomy ∧ SumsFit (d.deliverSums b) := by
  have hnext : (d.inner.reassembler.advanceExpected 1).expectedNext = b.seq + 1 := by
    rw [SequenceReassembler.expectedNext_advanceExpected, ← hb, wrappingAdd_of_lt (by omega)]
  have hdrained := @SequenceReassembler.room_drainReady _ (d.inner.reassembler.advanceExpected 1)
    h.ring (by omega)
  rw [hnext] at hdrained
  obtain ⟨views, -, -, -, -, hlook, -⟩ := deliver_spec h.fits streamId hb (by omega)
  refine ⟨⟨fun s hs ↦ ?_, h.window, h.gaps⟩, ?_⟩
  · rw [hlook] at hs
    split at hs
    · cases hs
    · exact h.ring s hs
  · unfold deliverSums SequenceReassembler.advanceExpectedSums
    simp only [List.cons_append, List.nil_append, sumsFit_cons, sumsFit_append]
    exact ⟨by omega, by omega, sumsFit_rangeFromSums hdrained,
      SequenceReassembler.sumsFit_drainReady (by omega)⟩

theorem buffer_roomy (h : d.inner.Roomy) (streamId : UInt8) {b : Block}
    (hb : d.inner.reassembler.expectedNext < b.seq) (hroom : b.seq + 2 < 2 ^ 64) :
    (d.buffer streamId b).2.inner.Roomy ∧ SumsFit (d.bufferSums b) := by
  unfold Decoding.buffer bufferSums
  rcases d.inner.reassembler.insert_cases b.seq ⟨d.backing.share.2, b.offset, b.len⟩ with
    ⟨hlt, -⟩ | ⟨-, -, hinsert⟩ | ⟨-, -, -, -, hinsert⟩ | ⟨-, -, hfree, hinsert⟩
  · omega
  · rw [hinsert]
    exact ⟨h, sumsFit_nil⟩
  · rw [hinsert]
    exact ⟨h, sumsFit_nil⟩
  · have hahead : decide (b.seq = d.inner.reassembler.expectedNext) = false := by
      simp only [decide_eq_false_iff_not]
      omega
    rw [hinsert, hahead]
    refine ⟨⟨fun s hs ↦ ?_, h.window, h.gaps⟩, sumsFit_nil⟩
    change ((d.inner.reassembler.store b.seq _).lookup s).isSome at hs
    rw [SequenceReassembler.lookup_store _ hfree] at hs
    split at hs
    · next heq =>
        rw [heq]
        exact hroom
    · exact h.ring s hs

theorem place_roomy (h : d.inner.Roomy) (streamId : UInt8) {b : Block}
    (hroom : b.seq + 2 < 2 ^ 64) :
    (d.place streamId b).2.inner.Roomy ∧ SumsFit (d.placeSums b) := by
  unfold Decoding.place placeSums
  cases hcompare : compare b.seq d.inner.reassembler.expectedNext with
  | eq => exact deliver_roomy h streamId (compare_eq_iff_eq.mp hcompare) hroom
  | gt => exact buffer_roomy h streamId (compare_gt_iff_gt.mp hcompare) hroom
  | lt => exact ⟨h, sumsFit_nil⟩

theorem decodeBlock_roomy (h : d.inner.Roomy) (streamId : UInt8) (now : Option Instant)
    {b : Block} (hroom : b.seq + 2 < 2 ^ 64) :
    (decodeBlock streamId now b d).2.inner.Roomy ∧
      SumsFit (decodeBlockSums streamId now b d) := by
  have hseq : b.seq < 2 ^ 64 := by omega
  have hobserved := h.sumsFit_observe now hseq
  -- what the gap handler adds and what placing adds, once the block goes through
  have hplace : ∀ i : Inner F, i.Roomy →
      (place { d with inner := i.markReceived b.seq } streamId b).2.inner.Roomy ∧
        SumsFit (i.gapHandler.markReceivedSums b.seq ++
          placeSums { d with inner := i.markReceived b.seq } b) := by
    intro i hi
    obtain ⟨hplaced, hsums⟩ := place_roomy (d := { d with inner := i.markReceived b.seq })
      (hi.markReceived b.seq) streamId hroom
    exact ⟨hplaced, sumsFit_append.mpr ⟨hi.gaps.sumsFit_markReceived b.seq, hsums⟩⟩
  unfold decodeBlock decodeBlockSums
  rw [sumsFit_append]
  rcases d.inner.observe_cases streamId now hseq h.lt_len with
    ⟨-, hobserve⟩ | ⟨a, a', t, harbiter, -, -, hforward, hobserve⟩ |
    ⟨a, a', t, verdict, harbiter, -, -, hunmoved, hverdict, hobserve⟩
  · rw [hobserve]
    obtain ⟨hplaced, hsums⟩ := hplace _ h
    exact ⟨hplaced, hobserved, hsums⟩
  · rw [hobserve]
    obtain ⟨hplaced, hsums⟩ := hplace _ (h.forwarded harbiter hforward (by omega))
    exact ⟨hplaced, hobserved, hsums⟩
  · rw [hobserve]
    have hdropped := h.unmoved harbiter hunmoved
    cases verdict with
    | forward => exact (hverdict rfl).elim
    | duplicate => exact ⟨hdropped, hobserved, sumsFit_nil⟩
    | outOfWindow => exact ⟨hdropped, hobserved, sumsFit_nil⟩

theorem decodeBlocks_roomy (streamId : UInt8) (now : Option Instant) {todo : List Block}
    (hroom : ∀ b ∈ todo, b.seq + 2 < 2 ^ 64) : ∀ {d : Decoding F}, d.inner.Roomy →
      (decodeBlocks streamId now todo d).2.inner.Roomy ∧
        SumsFit (decodeBlocksSums streamId now todo d) := by
  induction todo with
  | nil => exact fun h ↦ ⟨h, sumsFit_nil⟩
  | cons b todo ih =>
      intro d h
      obtain ⟨hstep, hsums⟩ := decodeBlock_roomy h streamId now (hroom b List.mem_cons_self)
      unfold decodeBlocks decodeBlocksSums
      rw [sumsFit_append]
      generalize decodeBlock streamId now b d = decoded at hstep ⊢
      obtain ⟨_ | _, d'⟩ := decoded
      · exact ⟨hstep, hsums, sumsFit_nil⟩
      · obtain ⟨hend, hrest⟩ := ih (fun b' hb' ↦ hroom b' (List.mem_cons_of_mem b hb')) hstep
        exact ⟨hend, hsums, hrest⟩

end Decoding

/-! ## One decode step -/

theorem getElem?_of_numberBlocks {items : List (Except MoldUdpError (ℕ × List UInt8))} :
    ∀ {seq k : ℕ}, k < (numberBlocks seq items).1.length → ∃ p, items[k]? = some (.ok p) := by
  induction items with
  | nil => intro seq k hk; simp [numberBlocks] at hk
  | cons item items ih =>
      intro seq k hk
      cases item with
      | error e => simp [numberBlocks] at hk
      | ok p =>
          cases k with
          | zero => exact ⟨p, rfl⟩
          | succ k => exact ih (Nat.lt_of_succ_lt_succ hk)

theorem length_numberBlocks_le (header : DownstreamHeader) (datagram : List UInt8) :
    (numberBlocks header.sequence (header.blocks datagram)).1.length ≤ header.messageCount := by
  by_contra hlt
  obtain ⟨p, hp⟩ := getElem?_of_numberBlocks (Nat.lt_of_not_le hlt)
  exact lt_irrefl _ (MessageBlockIter.lt_blocksLeft_of_getElem? hp)

/-- The two numbers after the datagram's last one are words. -/
def DownstreamHeader.Ample (header : DownstreamHeader) : Prop :=
  header.sequence + header.messageCount + 1 < 2 ^ 64

instance (header : DownstreamHeader) : Decidable header.Ample := inferInstanceAs (Decidable (_ < _))

theorem DownstreamHeader.Ample.fits {header : DownstreamHeader} (h : header.Ample) :
    header.Fits := Nat.lt_of_succ_lt h

/-- From `i` to `i'` all of `sums` fit and an anchored `expected_next` does not go back. -/
structure Inner.Exact (i i' : Inner F) (sums : List ℕ) : Prop where
  roomy : i'.Roomy
  fit : SumsFit sums
  le : i.seqAnchored = true → i.reassembler.expectedNext ≤ i'.reassembler.expectedNext

namespace Inner.Roomy

variable {i : Inner F}

theorem accepted (h : i.Roomy) (htracking : i.Tracking) (rest : List (UInt8 × Held F))
    {header : DownstreamHeader}
    (hanchor : i.seqAnchored = false → i.arbiter.isSome →
      header.sequence + ringCapacity < 2 ^ 64) : (i.accepted rest header).Roomy := by
  unfold Inner.accepted anchor
  split
  · exact h.congr rfl rfl rfl
  · next hfalse =>
      refine ⟨h.ring, fun a ha ↦ ?_, h.gaps⟩
      obtain ⟨a, harbiter, rfl⟩ := Option.map_eq_some_iff.mp ha
      change header.sequence + a.windowLen < 2 ^ 64
      rw [(htracking.arbiter a harbiter).len]
      exact hanchor (Bool.eq_false_of_not_eq_true hfalse)
        (Option.isSome_iff_exists.mpr ⟨a, harbiter⟩)

theorem noteJump (h : i.Roomy) {sequence : ℕ} {now : Option Instant}
    (hgaps : (i.noteJump sequence now).gapHandler.WellFormed) :
    (i.noteJump sequence now).Roomy := by
  refine ⟨fun s hs ↦ h.ring s (i.reassembler_noteJump sequence now ▸ hs), fun a ha ↦ ?_, hgaps⟩
  rcases i.noteJump_cases sequence now with
    ⟨-, hjump⟩ | ⟨-, a₀, t, harbiter, -, hjump⟩ | ⟨-, -, hjump⟩
  · exact h.window a (hjump ▸ ha)
  · rw [hjump] at ha
    cases ha
    have hsame := a₀.sameWindow_noteMissingRange i.nextUnseen sequence t
    rw [hsame.base, hsame.len]
    exact h.window a₀ harbiter
  · rw [hjump] at ha
    exact h.window a ha

variable [AsRef F]

theorem decodeData (h : i.Roomy) (htracking : i.Tracking) (hanchored : i.seqAnchored = true)
    (hready : i.ready = []) (streamId : UInt8) {datagram : Held F} {header : DownstreamHeader}
    (now : Option Instant) (hparse : parseHeader datagram.asRef = .ok header)
    (hample : header.Ample) :
    i.Exact (i.decodeData streamId datagram header now).2
      (i.decodeDataSums streamId datagram header now) := by
  have hqueues : Inner.Queues (fun _ _ ↦ True) i (i.decodeData streamId datagram header now).2 :=
    Inner.queues_decodeData hready h.fits (fun _ _ _ ↦ trivial) streamId now hparse hample.fits
      fun _ _ _ _ _ _ ↦ trivial
  have hnumbering : SumsFit (rangeFromSums header.sequence
      (numberBlocks header.sequence (header.blocks datagram.asRef)).1.length) := by
    apply sumsFit_rangeFromSums
    have hle := length_numberBlocks_le header datagram.asRef
    rw [DownstreamHeader.Ample] at hample
    omega
  unfold decodeDataSums
  rcases i.decodeData_cases streamId datagram header now with
    ⟨blocks, e, hnumber, hdecode⟩ | ⟨blocks, hnumber, hloop⟩
  · rw [hnumber] at hnumbering ⊢
    refine ⟨?_, sumsFit_append.mpr ⟨hnumbering, sumsFit_nil⟩, fun _ ↦ hqueues.le⟩
    rw [hdecode]
    exact h.congr rfl rfl rfl
  have hroom : ∀ b ∈ blocks, b.seq + 2 < 2 ^ 64 := by
    intro b hb
    have hlt := ((exists_block_iff hparse hample.fits hnumber b.seq).mp ⟨b, hb, rfl⟩).2
    rw [DownstreamHeader.Ample] at hample
    omega
  have hentered : ({ i with blocks := blocks } : Inner F).Roomy := h.congr rfl rfl rfl
  have hlisted : ({ i with blocks := blocks } : Inner F).Tracking :=
    htracking.congr rfl rfl rfl rfl rfl
  have hjumped := hentered.noteJump
    (hlisted.enterLoop datagram now (parseHeader_sequence_lt hparse) hanchored).gaps
  obtain ⟨hend, hsums⟩ := Decoding.decodeBlocks_roomy streamId now hroom
    (d := enterLoop { i with blocks := blocks } header datagram now)
    (hjumped.congr rfl rfl rfl)
  rw [hnumber] at hnumbering ⊢
  refine ⟨?_, ?_, fun _ ↦ hqueues.le⟩
  · rcases hloop with ⟨e, d, hloop, hdecode⟩ | ⟨d, hloop, hdecode⟩
    · rw [hloop] at hend
      rw [hdecode]
      exact hend
    · rw [hloop] at hend
      rw [hdecode]
      dsimp only
      unfold Decoding.install
      split
      · exact hend.congr rfl rfl rfl
      · exact hend
  · simp only [sumsFit_append]
    exact ⟨hnumbering, hentered.sumsFit_noteJump header.sequence now, hsums⟩

end Inner.Roomy

namespace Inner

variable [AsRef F]

/-- The datagram up next, if its header is accepted, leaves room above its own numbers; and
if it anchors a receiver of several legs, for a window above the anchor. -/
def LeavesRoom (i : Inner F) : Prop :=
  ∀ p ∈ i.pendingDatagrams.head?, ∀ header, parseHeader p.2.asRef = .ok header →
    (i.session = none ∨ i.session = some header.session) →
    (header.kind = .data → header.Ample) ∧
      (i.seqAnchored = false → i.arbiter.isSome → header.sequence + ringCapacity < 2 ^ 64)

instance (i : Inner F) : Decidable i.LeavesRoom :=
  inferInstanceAs (Decidable (∀ p ∈ i.pendingDatagrams.head?, ∀ header,
    parseHeader p.2.asRef = .ok header → (_ ∨ _) → (_ → _) ∧ (_ → _ → _)))

/-- Only an accepted data datagram is added up. -/
theorem sumsFit_processNextPending {i : Inner F} {now : Option Instant}
    (hdata : ∀ streamId datagram rest header,
      i.pendingDatagrams = (streamId, datagram) :: rest →
      parseHeader datagram.asRef = .ok header →
      (i.session = none ∨ i.session = some header.session) → header.kind = .data →
      SumsFit ((i.accepted rest header).decodeDataSums streamId datagram header now)) :
    SumsFit (i.processNextPendingSums now) := by
  unfold processNextPendingSums
  cases hpending : i.pendingDatagrams with
  | nil => exact sumsFit_nil
  | cons p rest =>
      obtain ⟨streamId, datagram⟩ := p
      dsimp only
      cases hparse : parseHeader datagram.asRef with
      | error e => exact sumsFit_nil
      | ok header =>
          dsimp only
          rcases acceptHeader_cases { i with pendingDatagrams := rest } header with
            ⟨expected, -, -, haccept⟩ | ⟨hsession, haccept⟩
          · rw [haccept]
            exact sumsFit_nil
          · rw [haccept]
            dsimp only
            split
            · next hkind => exact hdata streamId datagram rest header hpending hparse hsession hkind
            · exact sumsFit_nil

omit [AsRef F] in
/-- Accepting a header leaves an anchored `expected_next` alone. -/
theorem expectedNext_accepted_of_anchored {i : Inner F} (h : i.seqAnchored = true)
    (rest : List (UInt8 × Held F)) (header : DownstreamHeader) :
    (i.accepted rest header).reassembler.expectedNext = i.reassembler.expectedNext :=
  (i.expectedNext_accepted rest header).trans (if_pos h)

theorem Roomy.processNextPending {i : Inner F} (h : i.Roomy) (htracking : i.Tracking)
    (hready : i.ready = []) (hroom : i.LeavesRoom) (now : Option Instant) :
    i.Exact (i.processNextPending now).2 (i.processNextPendingSums now) := by
  -- a header that passes: room for the window above it, and for its blocks if it has any
  have haccepted : ∀ {streamId datagram rest header},
      i.pendingDatagrams = (streamId, datagram) :: rest →
      parseHeader datagram.asRef = .ok header →
      (i.session = none ∨ i.session = some header.session) →
      (i.accepted rest header).Roomy ∧ (header.kind = .data →
        (i.accepted rest header).Exact
          ((i.accepted rest header).decodeData streamId datagram header now).2
          ((i.accepted rest header).decodeDataSums streamId datagram header now)) := by
    intro streamId datagram rest header hpop hparse hsession
    obtain ⟨hample, hanchor⟩ :=
      hroom (streamId, datagram) (by rw [hpop]; rfl) header hparse hsession
    have hroomy := h.accepted htracking rest hanchor
    exact ⟨hroomy, fun hkind ↦
      hroomy.decodeData (htracking.accepted rest (parseHeader_sequence_lt hparse))
        (i.accepted_session rest header).2 ((i.ready_accepted rest header).trans hready) streamId
        now hparse (hample hkind)⟩
  have hfit : SumsFit (i.processNextPendingSums now) :=
    sumsFit_processNextPending fun streamId datagram rest header hpop hparse hsession hkind ↦
      ((haccepted hpop hparse hsession).2 hkind).fit
  have hprocessed := i.processNextPending_processed now
  have hgaps := (hprocessed.tracking htracking).gaps
  generalize i.processNextPending now = processed at hprocessed hgaps ⊢
  obtain ⟨r, i'⟩ := processed
  dsimp only at hprocessed hgaps ⊢
  cases hprocessed with
  | idle => exact ⟨h, hfit, fun _ ↦ le_rfl⟩
  | unparsed => exact ⟨h.congr rfl rfl rfl, hfit, fun _ ↦ le_rfl⟩
  | mismatch => exact ⟨h.congr rfl rfl rfl, hfit, fun _ ↦ le_rfl⟩
  | @control _ _ rest header ev hpop hparse hsession =>
      obtain ⟨hroomy, -⟩ := haccepted hpop hparse hsession
      have hring := (i.accepted rest header).reassembler_noteTailGap header.sequence
      have harbiter := (i.accepted rest header).arbiter_noteTailGap header.sequence
      refine ⟨⟨fun s hs ↦ hroomy.ring s (hring ▸ hs), fun a ha ↦ hroomy.window a (harbiter ▸ ha),
        hgaps⟩, hfit, fun hanchored ↦ ?_⟩
      rw [← expectedNext_accepted_of_anchored hanchored rest header]
      exact (congrArg SequenceReassembler.expectedNext hring).ge
  | @data _ _ rest header hpop hparse hsession hkind =>
      have hexact := (haccepted hpop hparse hsession).2 hkind
      refine ⟨hexact.roomy, hfit, fun hanchored ↦ ?_⟩
      rw [← expectedNext_accepted_of_anchored hanchored rest header]
      exact hexact.le (i.accepted_session rest header).2

theorem Roomy.decodeNext {i : Inner F} (h : i.Roomy) (htracking : i.Tracking)
    (hready : i.ready = []) (hroom : i.LeavesRoom) (now : Instant) :
    i.Exact (i.decodeNext now).2 (i.decodeNextSums now) := by
  have hexact := h.processNextPending htracking hready hroom (i.clock now)
  have htracking₁ := (i.processNextPending_processed (i.clock now)).tracking htracking
  have hpromoted := i.decodeNext_promoted now
  have hring : (i.decodeNext now).2.reassembler =
      (i.processNextPending (i.clock now)).2.reassembler := by
    unfold Inner.decodeNext
    generalize i.processNextPending (i.clock now) = processed
    obtain ⟨_ | _, i₁⟩ := processed
    · rfl
    · dsimp only
      split
      · unfold drainConfirmedGaps
        split <;> rfl
      · rfl
  refine ⟨⟨fun s hs ↦ hexact.roomy.ring s (hring ▸ hs), fun a ha ↦ ?_,
    (htracking.decodeNext now).gaps⟩, sumsFit_append.mpr ⟨hexact.fit, fun x hx ↦ ?_⟩, ?_⟩
  · rcases hpromoted.arbiter a ha with hold | ⟨a₁, ha₁, rfl⟩
    · exact hexact.roomy.window a hold
    · exact hexact.roomy.window a₁ ha₁
  · -- a candidate lies below the mark
    obtain ⟨s, hs, hx⟩ := List.mem_flatMap.mp hx
    obtain rfl := List.mem_singleton.mp hx
    obtain ⟨t, ht, -⟩ := hpromoted.waited s hs
    have hlt : s < _ := htracking₁.candidate_lt ht
    have hsmall := htracking₁.small
    omega
  · rw [hring]
    exact hexact.le

theorem nextUnseen_le_decodeNext {i : Inner F} (h : i.seqAnchored = true) (now : Instant) :
    i.nextUnseen ≤ (i.decodeNext now).2.nextUnseen :=
  ((i.processNextPending_decodes (i.clock now)).nextUnseen_le h).2.trans_eq
    (i.decodeNext_promoted now).nextUnseen.symm

end Inner

/-! ## Whole runs -/

theorem Inner.roomy_fresh {cfg : MoldUdpReceiverConfig} {legs : List Leg}
    (hstart : 1 < legs.length → ∀ start ∈ cfg.startSequence,
      start.toNat + ringCapacity < 2 ^ 64) : (Inner.fresh cfg legs : Inner F).Roomy := by
  refine ⟨fun s hs ↦ ?_, fun a ha ↦ ?_, GapRequestHandler.wellFormed_new⟩
  · rw [lookup_fresh] at hs
    cases hs
  · obtain ⟨hlen, hbase, -⟩ := arbiter_fresh cfg legs ha
    rw [hlen, hbase]
    cases hcfg : cfg.startSequence with
    | none => norm_num [ringCapacity]
    | some start =>
        refine hstart ?_ start (by rw [hcfg]; rfl)
        by_contra hone
        unfold Inner.fresh at ha
        simp [hcfg, hone] at ha

variable [AsRef F]

namespace Session

/-- The sums of one action; only decoding adds sequence numbers. -/
def sums (s : Session F) : Event F → List ℕ
  | .decode now => s.inner.decodeNextSums now
  | _ => []

/-- A decode is allowed on a datagram that leaves room. -/
def LeavesRoom (s : Session F) : Event F → Prop
  | .decode _ => s.inner.LeavesRoom
  | _ => True

instance (s : Session F) : ∀ e, Decidable (s.LeavesRoom e)
  | .decode _ => inferInstanceAs (Decidable s.inner.LeavesRoom)
  | .retire => .isTrue trivial
  | .land .. => .isTrue trivial
  | .yieldItem => .isTrue trivial
  | .yieldOwned => .isTrue trivial

/-- One action: its sums fit, and neither mark of an anchored receiver goes back. -/
theorem step_exact {s t : Session F} {e : Event F} (h : s.inner.Roomy)
    (htracking : s.inner.Tracking) (hroom : s.LeavesRoom e) (hstep : s.next e = some t) :
    s.inner.Exact t.inner (s.sums e) ∧
      (s.inner.seqAnchored = true → s.inner.nextUnseen ≤ t.inner.nextUnseen) := by
  have hstep := step_of_next hstep
  by_cases hdecode : ∀ now, e ≠ .decode now
  · obtain ⟨hsame, -⟩ := hstep.sameTracking hdecode
    refine ⟨⟨h.congr hsame.reassembler hsame.arbiter hsame.gapHandler, ?_, fun _ ↦ ?_⟩,
      fun _ ↦ hsame.nextUnseen.ge⟩
    · cases e with
      | decode now => exact (hdecode now rfl).elim
      | _ => exact sumsFit_nil
    · rw [hsame.reassembler]
  · cases hstep with
    | decode now hready _ =>
        exact ⟨h.decodeNext htracking hready hroom now,
          fun hanchored ↦ Inner.nextUnseen_le_decodeNext hanchored now⟩
    | _ => exact (hdecode fun now ↦ by simp).elim

end Session

/-- On every run whose data datagrams leave room above their numbers, and with several legs
a window above the anchor, no sum of sequence numbers overflows: not in a decode, and not in
the re-requests for the gaps pending at any time.  `expected_next` and `next_unseen` never go
back once anchored. -/
theorem sequence_sums_fit {cfg : MoldUdpReceiverConfig} {legs : List Leg} {inner : Inner F}
    {s : Session F} (hnew : fromLegs cfg legs = .ok inner)
    (hstart : 1 < legs.length → ∀ start ∈ cfg.startSequence,
      start.toNat + ringCapacity < 2 ^ 64)
    (hrun : (machine F).Run Session.LeavesRoom (Session.start inner) s) :
    (∀ e t, s.LeavesRoom e → s.next e = some t → SumsFit (s.sums e) ∧
      (s.inner.seqAnchored = true →
        s.inner.reassembler.expectedNext ≤ t.inner.reassembler.expectedNext ∧
        s.inner.nextUnseen ≤ t.inner.nextUnseen)) ∧
      ∀ gap ∈ s.inner.gapHandler.pendingGaps, gap.startSeq.toNat + gap.count.toNat < 2 ^ 64 := by
  have htracking : ∀ s, (machine F).Run Session.LeavesRoom (Session.start inner) s →
      s.inner.Tracking := fun s ↦ tracking_of_run hnew
  obtain rfl := fromLegs_ok hnew
  have hroomy : s.inner.Roomy := hrun.invariant_of (I := fun s ↦ s.inner.Roomy)
    (J := fun s ↦ s.inner.Tracking) htracking (Inner.roomy_fresh hstart)
    fun s e t htracking h hroom hstep ↦ (Session.step_exact h htracking hroom hstep).1.roomy
  refine ⟨fun e t hroom hstep ↦ ?_, fun gap hgap ↦ ?_⟩
  · obtain ⟨hexact, hunseen⟩ := Session.step_exact hroomy (htracking s hrun) hroom hstep
    exact ⟨hexact.fit, fun hanchored ↦ ⟨hexact.le hanchored, hunseen hanchored⟩⟩
  · exact ((pendingGaps_spec (htracking s hrun).gaps).1 gap hgap).1

/-- A receiver of two legs that delivers 2 behind 1: all sums of the second decode fit. -/
theorem sequence_sums_fit_two_legs :
    ∃ s t : Session (List UInt8),
      Machine.follow Session.next (Session.start sampleTwoLegs)
        [.land [(0, .frame (moldPacket sampleSession 2 [7])),
          (1, .frame (moldPacket sampleSession 1 [8]))] [], .decode 0] = some s ∧
      s.next (.decode 1) = some t ∧ s.sums (.decode 1) ≠ [] ∧ SumsFit (s.sums (.decode 1)) := by
  have hend : ∃ s ∈ Machine.follow Session.next (Session.start sampleTwoLegs)
        [.land [(0, .frame (moldPacket sampleSession 2 [7])),
          (1, .frame (moldPacket sampleSession 1 [8]))] [], .decode 0],
      s.LeavesRoom (.decode 1) ∧ s.sums (.decode 1) ≠ [] ∧
        ∃ t ∈ s.next (.decode 1), t.inner.reassembler.expectedNext = 3 := by
    decide +kernel
  obtain ⟨s, hs, hroom, hsums, t, hnext, -⟩ := hend
  have hrun : (machine (List UInt8)).Run Session.LeavesRoom (Session.start sampleTwoLegs) s :=
    .of_follow (by decide +kernel) hs
  have hstart : ∀ start ∈ some (1 : UInt64), start.toNat + ringCapacity < 2 ^ 64 := by
    rintro _ ⟨⟩
    norm_num [ringCapacity, UInt64.toNat_one]
  exact ⟨s, t, hs, hnext, hsums, ((@sequence_sums_fit _ _ { startSequence := some 1 }
    [⟨minLegPoolCapacity⟩, ⟨minLegPoolCapacity⟩] _ s rfl (fun _ ↦ hstart) hrun).1 _ t hroom
    hnext).1⟩

/-- The last number of all: `expected_next` is advanced past it and starts over at 0. -/
theorem last_sequence_wraps :
    ∃ s t : Session (List UInt8),
      Session.Reaches (Session.start (.fresh { startSequence := some 18446744073709551615 }
        [⟨minLegPoolCapacity⟩])) s ∧
      s.next (.decode 0) = some t ∧ 2 ^ 64 ∈ s.sums (.decode 0) ∧ s.inner.seqAnchored = true ∧
      s.inner.reassembler.expectedNext = max64 ∧ t.inner.reassembler.expectedNext = 0 := by
  have hend : ∃ s ∈ Machine.follow Session.next
        (Session.start (.fresh { startSequence := some 18446744073709551615 }
          [⟨minLegPoolCapacity⟩]) : Session (List UInt8))
        [.land [(0, .frame (moldPacket sampleSession max64 [7]))] []],
      2 ^ 64 ∈ s.sums (.decode 0) ∧ s.inner.seqAnchored = true ∧
      s.inner.reassembler.expectedNext = max64 ∧
      ∃ t ∈ s.next (.decode 0), t.inner.reassembler.expectedNext = 0 := by
    decide +kernel
  obtain ⟨s, hs, hsum, hanchored, hbefore, t, hnext, hafter⟩ := hend
  exact ⟨s, t, .of_follow (Machine.allowedAlong_of_forall (fun _ _ ↦ trivial) _ _) hs, hnext, hsum,
    hanchored, hbefore, hafter⟩

end MoldUdp
