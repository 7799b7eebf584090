import PolarisTrade.MoldUdp.Types

/-!
# MoldUDP64 downstream packets

Header parse and message block iteration.  A block is a two byte length and that
many payload bytes; the iterator yields it together with its byte position in the
whole datagram.
-/

namespace MoldUdp

open Transport Word

def headerLen : ℕ := 20

def maxDownstreamDatagram : ℕ := 64 * 1024

structure DownstreamHeader where
  session : SessionId
  sequence : ℕ
  messageCount : ℕ
  deriving DecidableEq

inductive PacketKind where
  | heartbeat
  | endOfSession
  | data
  deriving DecidableEq

def DownstreamHeader.kind (header : DownstreamHeader) : PacketKind :=
  if header.messageCount = 0 then .heartbeat
  else if header.messageCount = 0xFFFF then .endOfSession
  else .data

def parseHeader (buf : List UInt8) : Except MoldUdpError DownstreamHeader :=
  if maxDownstreamDatagram < buf.length then .error .packetTooLarge
  else do
    let (session, rest) ← okOr (splitFirstChunk 10 buf) .packetTooShort
    let (sequence, rest) ← okOr (splitFirstChunk 8 rest) .packetTooShort
    let (messageCount, _) ← okOr (splitFirstChunk 2 rest) .packetTooShort
    .ok
      { session := session
        sequence := fromBeBytes sequence.1
        messageCount := fromBeBytes messageCount.1 }

/-- An accepted buffer is a header laid out byte for byte. -/
theorem parseHeader_ok {buf : List UInt8} {header : DownstreamHeader}
    (h : parseHeader buf = .ok header) :
    ∃ seq count rest : List UInt8, seq.length = 8 ∧ count.length = 2 ∧
      buf = header.session.1 ++ (seq ++ (count ++ rest)) ∧
      header.sequence = fromBeBytes seq ∧ header.messageCount = fromBeBytes count := by
  unfold parseHeader at h
  split at h
  · cases h
  · simp only [bind_eq_ok, okOr_eq_ok] at h
    obtain ⟨⟨session, rest₁⟩, h₁, ⟨seq, rest₂⟩, h₂, ⟨count, rest₃⟩, h₃, hheader⟩ := h
    cases hheader
    refine ⟨seq.1, count.1, rest₃, seq.2, count.2, ?_, rfl, rfl⟩
    have hrest₁ : rest₁ = seq.1 ++ rest₂ := splitFirstChunk_eq_some h₂
    have hrest₂ : rest₂ = count.1 ++ rest₃ := splitFirstChunk_eq_some h₃
    rw [splitFirstChunk_eq_some h₁, hrest₁, hrest₂]

theorem parseHeader_error {buf : List UInt8} {e : MoldUdpError} (h : parseHeader buf = .error e) :
    e = .packetTooLarge ∨ e = .packetTooShort := by
  unfold parseHeader at h
  split at h
  · exact Or.inl (Except.error.inj h).symm
  · right
    cases h₁ : splitFirstChunk 10 buf with
    | none => simpa [h₁, okOr, bind, Except.bind, eq_comm] using h
    | some p₁ =>
        cases h₂ : splitFirstChunk 8 p₁.2 with
        | none => simpa [h₁, h₂, okOr, bind, Except.bind, eq_comm] using h
        | some p₂ =>
            cases h₃ : splitFirstChunk 2 p₂.2 with
            | none => simpa [h₁, h₂, h₃, okOr, bind, Except.bind, eq_comm] using h
            | some p₃ => simp [h₁, h₂, h₃, okOr, bind, Except.bind] at h

theorem headerLen_le_of_parseHeader {buf : List UInt8} {header : DownstreamHeader}
    (h : parseHeader buf = .ok header) : headerLen ≤ buf.length := by
  obtain ⟨seq, count, rest, hseq, hcount, rfl, -, -⟩ := parseHeader_ok h
  simp only [headerLen, List.length_append, header.session.2, hseq, hcount]
  omega

theorem parseHeader_sequence_lt {buf : List UInt8} {header : DownstreamHeader}
    (h : parseHeader buf = .ok header) : header.sequence < 2 ^ 64 := by
  obtain ⟨seq, -, -, hlen, -, -, hseq, -⟩ := parseHeader_ok h
  have hlt := fromBeBytes_lt seq
  rw [hlen] at hlt
  rw [hseq]
  exact hlt.trans_le (by norm_num)

theorem parseHeader_messageCount_lt {buf : List UInt8} {header : DownstreamHeader}
    (h : parseHeader buf = .ok header) : header.messageCount < 2 ^ 16 := by
  obtain ⟨-, count, -, -, hlen, -, -, hcount⟩ := parseHeader_ok h
  have hlt := fromBeBytes_lt count
  rw [hlen] at hlt
  rw [hcount]
  exact hlt.trans_le (by norm_num)

/-! ## Message blocks -/

structure MessageBlockIter where
  remaining : List UInt8
  blocksLeft : ℕ
  truncated : Bool
  nextOffset : ℕ

namespace MessageBlockIter

def new (payload : List UInt8) (messageCount : ℕ) : MessageBlockIter where
  remaining := payload
  blocksLeft := messageCount
  truncated := false
  nextOffset := headerLen

def next (it : MessageBlockIter) :
    Option (Except MoldUdpError (ℕ × List UInt8)) × MessageBlockIter :=
  if it.truncated || it.blocksLeft = 0 then (none, it)
  else match splitFirstChunk 2 it.remaining with
    | none => (some (.error .packetTooShort), { it with truncated := true })
    | some (len, rest) =>
        let len := fromBeBytes len.1
        if rest.length < len then
          (some (.error .packetTooShort), { it with truncated := true })
        else
          (some (.ok (it.nextOffset + 2, rest.take len)),
            { remaining := rest.drop len
              blocksLeft := it.blocksLeft - 1
              truncated := it.truncated
              nextOffset := it.nextOffset + (2 + len) })

/-- Items of at most `fuel` calls of `next`, stopping at the first `none`. -/
def items : ℕ → MessageBlockIter → List (Except MoldUdpError (ℕ × List UInt8))
  | 0, _ => []
  | fuel + 1, it =>
      match it.next with
      | (none, _) => []
      | (some item, it') => item :: items fuel it'

end MessageBlockIter

/-- Everything the iterator over this header's blocks yields.  It ends after at
most `messageCount` calls, the last of them possibly an error. -/
def DownstreamHeader.blocks (header : DownstreamHeader) (datagram : List UInt8) :
    List (Except MoldUdpError (ℕ × List UInt8)) :=
  (MessageBlockIter.new (datagram.drop headerLen) header.messageCount).items
    (header.messageCount + 1)

/-- Payload of block number `k` of a datagram whose header is `header`. -/
def DownstreamHeader.payload (header : DownstreamHeader) (datagram : List UInt8) (k : ℕ) :
    Option (List UInt8) :=
  match (header.blocks datagram)[k]? with
  | some (.ok (_, bytes)) => some bytes
  | _ => none

namespace MessageBlockIter

/-- The iterator has read the datagram up to `nextOffset`. -/
def At (it : MessageBlockIter) (datagram : List UInt8) : Prop :=
  it.remaining = datagram.drop it.nextOffset ∧ it.nextOffset ≤ datagram.length

/-- One call of `next`: nothing left, a truncated block, or the block at
`nextOffset` with the iterator moved past it. -/
theorem next_cases (it : MessageBlockIter) :
    (it.next = (none, it) ∧ (it.truncated = true ∨ it.blocksLeft = 0)) ∨
    (it.next = (some (.error .packetTooShort), { it with truncated := true })) ∨
    ∃ len bytes rest : List UInt8, len.length = 2 ∧ bytes.length = fromBeBytes len ∧
      it.remaining = len ++ (bytes ++ rest) ∧ it.truncated = false ∧ 0 < it.blocksLeft ∧
      it.next = (some (.ok (it.nextOffset + 2, bytes)),
        { remaining := rest
          blocksLeft := it.blocksLeft - 1
          truncated := false
          nextOffset := it.nextOffset + (2 + bytes.length) }) := by
  unfold next
  split
  · next h => exact Or.inl ⟨rfl, by simpa using h⟩
  · next h =>
      right
      obtain ⟨htrunc, hleft⟩ : it.truncated = false ∧ it.blocksLeft ≠ 0 := by simpa using h
      cases hsplit : splitFirstChunk 2 it.remaining with
      | none => exact Or.inl rfl
      | some p =>
          obtain ⟨len, rest⟩ := p
          simp only
          split
          · exact Or.inl rfl
          · next hlen =>
              have htake : (rest.take (fromBeBytes len.1)).length = fromBeBytes len.1 := by
                rw [List.length_take]
                omega
              refine Or.inr ⟨len.1, rest.take (fromBeBytes len.1),
                rest.drop (fromBeBytes len.1), len.2, htake, ?_, htrunc,
                Nat.pos_of_ne_zero hleft, ?_⟩
              · rw [List.take_append_drop]
                exact splitFirstChunk_eq_some hsplit
              · rw [htake, htrunc]

/-- A yielded block is the slice of the datagram at its offset. -/
theorem slice_of_mem_items {datagram : List UInt8} {fuel offset : ℕ} {bytes : List UInt8} :
    ∀ {it : MessageBlockIter}, it.At datagram → .ok (offset, bytes) ∈ it.items fuel →
      slice datagram offset bytes.length = some bytes := by
  induction fuel with
  | zero => intro it _ hmem; simp [items] at hmem
  | succ fuel ih =>
      intro it hat hmem
      rcases it.next_cases with ⟨hnext, -⟩ | hnext | ⟨len, block, rest, hlen, -, hrem, -, -, hnext⟩
      · simp [items, hnext] at hmem
      · have hat' : ({ it with truncated := true } : MessageBlockIter).At datagram := hat
        simp only [items, hnext, List.mem_cons, reduceCtorEq, false_or] at hmem
        exact ih hat' hmem
      · have hdata : datagram.drop it.nextOffset = len ++ (block ++ rest) := hat.1 ▸ hrem
        have htotal : it.nextOffset + (2 + (block.length + rest.length)) = datagram.length := by
          have hl := congrArg List.length hdata
          simp only [List.length_drop, List.length_append, hlen] at hl
          have := hat.2
          omega
        have hafter : datagram.drop (it.nextOffset + 2) = block ++ rest := by
          rw [← List.drop_drop, hdata, ← hlen, List.drop_left]
        simp only [items, hnext, List.mem_cons, Except.ok.injEq, Prod.mk.injEq] at hmem
        rcases hmem with ⟨rfl, rfl⟩ | hmem
        · refine slice_eq_some_iff.mpr ⟨by omega, ?_⟩
          rw [hafter, List.take_left]
        · refine ih ⟨?_, ?_⟩ hmem
          · change rest = datagram.drop (it.nextOffset + (2 + block.length))
            rw [← Nat.add_assoc, ← List.drop_drop, hafter, List.drop_left]
          · change it.nextOffset + (2 + block.length) ≤ datagram.length
            omega

/-- Without an error the iterator yields exactly the promised number of blocks. -/
theorem length_items {fuel : ℕ} :
    ∀ {it : MessageBlockIter}, it.truncated = false → it.blocksLeft ≤ fuel →
      (∀ e, .error e ∉ it.items fuel) → (it.items fuel).length = it.blocksLeft := by
  induction fuel with
  | zero =>
      intro it _ hleft _
      simp only [items, List.length_nil]
      omega
  | succ fuel ih =>
      intro it htrunc hleft herr
      rcases it.next_cases with ⟨hnext, hend⟩ | hnext | ⟨len, block, rest, -, -, -, -, hpos, hnext⟩
      · rcases hend with hend | hend
        · simp [htrunc] at hend
        · simp [items, hnext, hend]
      · exact (herr .packetTooShort (by simp [items, hnext])).elim
      · simp only [items, hnext, List.length_cons]
        rw [ih rfl (by simp only; omega) fun e he ↦ herr e (by simp [items, hnext, he])]
        simp only
        omega

theorem error_mem_items {fuel : ℕ} {e : MoldUdpError} :
    ∀ {it : MessageBlockIter}, .error e ∈ it.items fuel → e = .packetTooShort := by
  induction fuel with
  | zero => intro it hmem; simp [items] at hmem
  | succ fuel ih =>
      intro it hmem
      rcases it.next_cases with ⟨hnext, -⟩ | hnext | ⟨len, block, rest, -, -, -, -, -, hnext⟩
      · simp [items, hnext] at hmem
      · simp only [items, hnext, List.mem_cons, Except.error.injEq] at hmem
        exact hmem.elim id ih
      · simp only [items, hnext, List.mem_cons, reduceCtorEq, false_or] at hmem
        exact ih hmem

theorem items_of_truncated {fuel : ℕ} {it : MessageBlockIter} (h : it.truncated = true) :
    it.items fuel = [] := by
  cases fuel with
  | zero => rfl
  | succ fuel => simp [items, next, h]

/-- At most the promised number of blocks is yielded. -/
theorem lt_blocksLeft_of_getElem? {fuel : ℕ} {p : ℕ × List UInt8} :
    ∀ {k : ℕ} {it : MessageBlockIter}, (it.items fuel)[k]? = some (.ok p) →
      k < it.blocksLeft := by
  induction fuel with
  | zero => intro k it h; simp [items] at h
  | succ fuel ih =>
      intro k it h
      rcases it.next_cases with ⟨hnext, -⟩ | hnext | ⟨len, block, rest, -, -, -, -, hpos, hnext⟩
      · simp [items, hnext] at h
      · have hlast : ({ it with truncated := true } : MessageBlockIter).items fuel = [] :=
          items_of_truncated rfl
        simp only [items, hnext, hlast] at h
        cases k <;> simp at h
      · simp only [items, hnext] at h
        cases k with
        | zero => exact hpos
        | succ k =>
            have hlt : k < it.blocksLeft - 1 := ih (by simpa using h)
            omega

end MessageBlockIter

namespace DownstreamHeader

variable {header : DownstreamHeader} {datagram : List UInt8}

theorem slice_of_mem_blocks {offset : ℕ} {bytes : List UInt8}
    (hlen : headerLen ≤ datagram.length) (h : .ok (offset, bytes) ∈ header.blocks datagram) :
    slice datagram offset bytes.length = some bytes :=
  MessageBlockIter.slice_of_mem_items ⟨rfl, hlen⟩ h

theorem lt_messageCount_of_payload {k : ℕ} {bytes : List UInt8}
    (h : header.payload datagram k = some bytes) : k < header.messageCount := by
  unfold payload at h
  split at h
  · next hitem => exact MessageBlockIter.lt_blocksLeft_of_getElem? hitem
  · cases h

theorem length_blocks (h : ∀ e, .error e ∉ header.blocks datagram) :
    (header.blocks datagram).length = header.messageCount :=
  MessageBlockIter.length_items rfl (Nat.le_succ _) h

end DownstreamHeader

/-- Whether a result holds a value with a property. -/
instance decidableExistsOk {ε α : Type} (P : α → Prop) [DecidablePred P] :
    ∀ r : Except ε α, Decidable (∃ a, r = .ok a ∧ P a)
  | .ok a => decidable_of_iff (P a)
      ⟨fun h ↦ ⟨a, rfl, h⟩, fun ⟨_, ha, h⟩ ↦ Except.ok.inj ha ▸ h⟩
  | .error _ => .isFalse fun ⟨_, ha, _⟩ ↦ nomatch ha

instance decidableEqOk {ε : Type} : ∀ r : Except ε Unit, Decidable (r = .ok ())
  | .ok _ => .isTrue rfl
  | .error _ => .isFalse fun h ↦ nomatch h

/-! ## Building packets -/

def moldControl (session : SessionId) (sequence messageCount : ℕ) : List UInt8 :=
  session.1 ++ (toBeBytes 8 sequence ++ toBeBytes 2 messageCount)

/-- One message with its length in front. -/
def moldBlock (message : List UInt8) : List UInt8 :=
  toBeBytes 2 message.length ++ message

def moldMultiPacket (session : SessionId) (firstSequence : ℕ) (messages : List (List UInt8)) :
    List UInt8 :=
  moldControl session firstSequence messages.length ++ messages.flatMap moldBlock

def moldPacket (session : SessionId) (sequence : ℕ) (payload : List UInt8) : List UInt8 :=
  moldMultiPacket session sequence [payload]

def moldHeartbeat (session : SessionId) (nextExpected : ℕ) : List UInt8 :=
  moldControl session nextExpected 0

/-- The header read back from a packet is the one it was built with. -/
theorem parseHeader_moldControl (session : SessionId) {sequence messageCount : ℕ}
    {rest : List UInt8} (hsequence : sequence < 2 ^ 64) (hcount : messageCount < 2 ^ 16)
    (hlen : rest.length + headerLen ≤ maxDownstreamDatagram) :
    parseHeader (moldControl session sequence messageCount ++ rest) =
      .ok ⟨session, sequence, messageCount⟩ := by
  have hseq : fromBeBytes (toBeBytes 8 sequence) = sequence :=
    fromBeBytes_toBeBytes (hsequence.trans_eq (by norm_num))
  have hmsg : fromBeBytes (toBeBytes 2 messageCount) = messageCount :=
    fromBeBytes_toBeBytes (hcount.trans_eq (by norm_num))
  have hsize : ¬ maxDownstreamDatagram <
      (moldControl session sequence messageCount ++ rest).length := by
    simp only [moldControl, List.length_append, session.2, length_toBeBytes]
    rw [headerLen] at hlen
    omega
  have hsplit₁ : splitFirstChunk 10 (moldControl session sequence messageCount ++ rest) =
      some (session, toBeBytes 8 sequence ++ (toBeBytes 2 messageCount ++ rest)) := by
    rw [moldControl, List.append_assoc, List.append_assoc]
    exact splitFirstChunk_append session _
  have hsplit₂ : splitFirstChunk 8 (toBeBytes 8 sequence ++ (toBeBytes 2 messageCount ++ rest)) =
      some (⟨toBeBytes 8 sequence, length_toBeBytes 8 sequence⟩,
        toBeBytes 2 messageCount ++ rest) :=
    splitFirstChunk_append ⟨toBeBytes 8 sequence, length_toBeBytes 8 sequence⟩ _
  have hsplit₃ : splitFirstChunk 2 (toBeBytes 2 messageCount ++ rest) =
      some (⟨toBeBytes 2 messageCount, length_toBeBytes 2 messageCount⟩, rest) :=
    splitFirstChunk_append ⟨toBeBytes 2 messageCount, length_toBeBytes 2 messageCount⟩ _
  rw [parseHeader, if_neg hsize]
  simp only [hsplit₁, hsplit₂, hsplit₃, okOr, bind, Except.bind, hseq, hmsg]

end MoldUdp
