import PolarisTrade.MoldUdp.Wire

/-!
# Block iteration is exact

The body of a datagram is read as a list of length-framed blocks.  `Leads` says which blocks it
starts with; the iterator yields the longest such list the header allows, each block with the
place it has in the datagram, then stops or reports one truncated block.
-/

namespace MoldUdp

open Transport Word

/-! ## Framed blocks -/

theorem length_moldBlock (message : List UInt8) :
    (moldBlock message).length = 2 + message.length := by
  rw [moldBlock, List.length_append, length_toBeBytes]

/-- A two byte length and that many bytes are the block of those bytes. -/
theorem moldBlock_of_length {len bytes : List UInt8} (hlen : len.length = 2)
    (hbytes : bytes.length = fromBeBytes len) : moldBlock bytes = len ++ bytes := by
  rw [moldBlock, hbytes, ← hlen, toBeBytes_fromBeBytes]

/-- A framed block can be told from what follows it. -/
theorem moldBlock_append_inj {a b x y : List UInt8} (ha : a.length < 2 ^ 16)
    (hb : b.length < 2 ^ 16) (h : moldBlock a ++ x = moldBlock b ++ y) : a = b ∧ x = y := by
  unfold moldBlock at h
  rw [List.append_assoc, List.append_assoc] at h
  obtain ⟨hlen, hrest⟩ := List.append_inj h (by rw [length_toBeBytes, length_toBeBytes])
  have hlength : a.length = b.length := by
    have hread := congrArg fromBeBytes hlen
    rwa [fromBeBytes_toBeBytes (by omega), fromBeBytes_toBeBytes (by omega)] at hread
  exact List.append_inj hrest hlength

/-- `body` starts with these blocks. -/
structure Leads (blocks : List (List UInt8)) (body : List UInt8) : Prop where
  short : ∀ block ∈ blocks, block.length < 2 ^ 16
  isPrefix : blocks.flatMap moldBlock <+: body

namespace Leads

variable {block body rest : List UInt8} {blocks more : List (List UInt8)}

theorem nil : Leads [] body := ⟨nofun, List.nil_prefix⟩

theorem cons (h : Leads blocks rest) (hshort : block.length < 2 ^ 16) :
    Leads (block :: blocks) (moldBlock block ++ rest) := by
  refine ⟨List.forall_mem_cons.mpr ⟨hshort, h.short⟩, ?_⟩
  rw [List.flatMap_cons, List.prefix_append_right_inj]
  exact h.isPrefix

/-- A body that starts with some blocks starts with the first of them. -/
theorem uncons (h : Leads (block :: blocks) body) :
    ∃ rest, body = moldBlock block ++ rest ∧ Leads blocks rest := by
  obtain ⟨hshort, hblocks⟩ := List.forall_mem_cons.mp h.short
  obtain ⟨rest, hbody⟩ := h.isPrefix
  rw [List.flatMap_cons, List.append_assoc] at hbody
  exact ⟨_, hbody.symm, hblocks, List.prefix_append _ _⟩

end Leads

/-! ## Calls of `next` -/

namespace MessageBlockIter

/-- What the call number `k` of `next` returns. -/
def call (it : MessageBlockIter) : ℕ → Option (Except MoldUdpError (ℕ × List UInt8))
  | 0 => it.next.1
  | k + 1 => it.next.2.call k

variable {it : MessageBlockIter} {block rest : List UInt8}

/-- The iterator behind the block it yields. -/
def past (it : MessageBlockIter) (block rest : List UInt8) : MessageBlockIter where
  remaining := rest
  blocksLeft := it.blocksLeft - 1
  truncated := false
  nextOffset := it.nextOffset + (2 + block.length)

/-- An iterator that is done stays so. -/
theorem call_of_done (h : it.truncated = true ∨ it.blocksLeft = 0) (k : ℕ) : it.call k = none := by
  have hnext : it.next = (none, it) := by
    unfold next
    rw [if_pos (by simpa using h)]
  induction k with
  | zero => rw [call, hnext]
  | succ k ih => rw [call, hnext, ih]

/-- A complete block is yielded. -/
theorem next_block (htruncated : it.truncated = false) (hleft : 0 < it.blocksLeft)
    (hshort : block.length < 2 ^ 16) (hremaining : it.remaining = moldBlock block ++ rest) :
    it.next = (some (.ok (it.nextOffset + 2, block)), it.past block rest) := by
  have hsplit : splitFirstChunk 2 it.remaining =
      some (⟨toBeBytes 2 block.length, length_toBeBytes 2 _⟩, block ++ rest) := by
    rw [hremaining, moldBlock, List.append_assoc]
    exact splitFirstChunk_append ⟨toBeBytes 2 block.length, length_toBeBytes 2 _⟩ _
  have hlen : fromBeBytes (toBeBytes 2 block.length) = block.length :=
    fromBeBytes_toBeBytes (by omega)
  have hfits : ¬ (block ++ rest).length < block.length := by
    rw [List.length_append]
    omega
  unfold next past
  rw [if_neg (by simp [htruncated]; omega), hsplit]
  dsimp only
  rw [hlen, if_neg hfits, List.take_left, List.drop_left, htruncated]

/-- A call that is not over yields the next complete block or reports that there is none. -/
theorem next_active (htruncated : it.truncated = false) (hleft : 0 < it.blocksLeft) :
    (∃ block rest, block.length < 2 ^ 16 ∧ it.remaining = moldBlock block ++ rest ∧
      it.next = (some (.ok (it.nextOffset + 2, block)), it.past block rest)) ∨
    ((∀ block blocks, ¬ Leads (block :: blocks) it.remaining) ∧
      it.next = (some (.error .packetTooShort), { it with truncated := true })) := by
  rcases it.next_cases with ⟨-, hdone⟩ | hnext | ⟨len, bytes, rest, hlen, hbytes, hrem, -, -, -⟩
  · simp [htruncated] at hdone
    omega
  · refine Or.inr ⟨fun block blocks hleads ↦ ?_, hnext⟩
    obtain ⟨rest, hremaining, -⟩ := hleads.uncons
    rw [next_block htruncated hleft (hleads.short block List.mem_cons_self) hremaining] at hnext
    cases congrArg Prod.fst hnext
  · have hlt := fromBeBytes_lt len
    rw [hlen] at hlt
    have hremaining : it.remaining = moldBlock bytes ++ rest := by
      rw [moldBlock_of_length hlen hbytes, List.append_assoc, hrem]
    have hshort : bytes.length < 2 ^ 16 := by omega
    exact Or.inl ⟨bytes, rest, hshort, hremaining, next_block htruncated hleft hshort hremaining⟩

/-- The calls yield `blocks`, the longest list the rest starts with, and then end. -/
structure Iterates (it : MessageBlockIter) (blocks : List (List UInt8)) : Prop where
  leads : Leads blocks it.remaining
  length_le : blocks.length ≤ it.blocksLeft
  longest : ∀ more, Leads more it.remaining → more.length ≤ it.blocksLeft → more <+: blocks
  yields : ∀ i block, blocks[i]? = some block → it.call i =
    some (.ok (it.nextOffset + ((blocks.take i).flatMap moldBlock).length + 2, block))
  ends : it.call blocks.length =
    if blocks.length = it.blocksLeft then none else some (.error .packetTooShort)
  silent : ∀ i, blocks.length < i → it.call i = none

namespace Iterates

theorem done (hleft : it.blocksLeft = 0) : it.Iterates [] := by
  refine ⟨.nil, Nat.zero_le _, fun more _ hlength ↦ ?_, by simp, ?_, fun i _ ↦ ?_⟩
  · rw [hleft, Nat.le_zero, List.length_eq_zero_iff] at hlength
    exact hlength ▸ List.nil_prefix
  · rw [call_of_done (Or.inr hleft), List.length_nil, if_pos hleft.symm]
  · exact call_of_done (Or.inr hleft) i

theorem short (hleft : 0 < it.blocksLeft)
    (hnone : ∀ block blocks, ¬ Leads (block :: blocks) it.remaining)
    (hnext : it.next = (some (.error .packetTooShort), { it with truncated := true })) :
    it.Iterates [] := by
  refine ⟨.nil, Nat.zero_le _, fun more hmore _ ↦ ?_, by simp, ?_, fun i hi ↦ ?_⟩
  · cases more with
    | nil => exact List.nil_prefix
    | cons block blocks => exact (hnone block blocks hmore).elim
  · rw [List.length_nil, call, hnext, if_neg (by omega)]
  · cases i with
    | zero => simp at hi
    | succ i =>
        rw [call, hnext]
        exact call_of_done (Or.inl rfl) i

theorem cons {blocks : List (List UInt8)} (h : (it.past block rest).Iterates blocks)
    (hleft : 0 < it.blocksLeft) (hshort : block.length < 2 ^ 16)
    (hremaining : it.remaining = moldBlock block ++ rest)
    (hnext : it.next = (some (.ok (it.nextOffset + 2, block)), it.past block rest)) :
    it.Iterates (block :: blocks) := by
  have hcall : ∀ i, it.call (i + 1) = (it.past block rest).call i := fun i ↦ by
    rw [call, hnext]
  have hlength : blocks.length ≤ it.blocksLeft - 1 := h.length_le
  refine ⟨?_, ?_, fun more hmore hmany ↦ ?_, fun i b hi ↦ ?_, ?_, fun i hi ↦ ?_⟩
  · rw [hremaining]
    exact h.leads.cons hshort
  · rw [List.length_cons]
    omega
  · cases more with
    | nil => exact List.nil_prefix
    | cons b more =>
        -- another list the body starts with has the same first block
        obtain ⟨rest', hbody, hleads⟩ := hmore.uncons
        rw [hremaining] at hbody
        obtain ⟨rfl, rfl⟩ :=
          moldBlock_append_inj hshort (hmore.short b List.mem_cons_self) hbody
        rw [List.length_cons] at hmany
        refine List.cons_prefix_cons.mpr ⟨rfl, h.longest more hleads ?_⟩
        change more.length ≤ it.blocksLeft - 1
        omega
  · cases i with
    | zero =>
        rw [List.getElem?_cons_zero, Option.some.injEq] at hi
        rw [call, hnext, hi]
        rfl
    | succ i =>
        rw [hcall, h.yields i b hi, List.take_succ_cons, List.flatMap_cons, List.length_append,
          length_moldBlock, past]
        simp only [Option.some.injEq, Except.ok.injEq, Prod.mk.injEq, and_true]
        omega
  · rw [List.length_cons, hcall, h.ends]
    have hiff : blocks.length = it.blocksLeft - 1 ↔ blocks.length + 1 = it.blocksLeft := by omega
    simp only [past, hiff]
  · cases i with
    | zero => simp at hi
    | succ i =>
        rw [List.length_cons, Nat.add_lt_add_iff_right] at hi
        rw [hcall]
        exact h.silent i hi

end Iterates

/-- An iterator that has not met a truncated block yields some list of blocks. -/
theorem exists_iterates (htruncated : it.truncated = false) : ∃ blocks, it.Iterates blocks := by
  -- along the promised blocks: a call yields one and leaves fewer, or it is the last
  induction hn : it.blocksLeft generalizing it with
  | zero => exact ⟨[], .done hn⟩
  | succ n ih =>
      have hleft : 0 < it.blocksLeft := by omega
      rcases next_active htruncated hleft with
        ⟨block, rest, hshort, hremaining, hnext⟩ | ⟨hnone, hnext⟩
      · have hpast : (it.past block rest).blocksLeft = n := by
          change it.blocksLeft - 1 = n
          omega
        obtain ⟨blocks, hblocks⟩ := @ih (it.past block rest) rfl hpast
        exact ⟨block :: blocks, hblocks.cons hleft hshort hremaining hnext⟩
      · exact ⟨[], .short hleft hnone hnext⟩

/-- The items of an iteration are what the calls return, one by one. -/
theorem getElem?_items {fuel : ℕ} :
    ∀ {it : MessageBlockIter} {k : ℕ}, k < fuel → (it.items fuel)[k]? = it.call k := by
  induction fuel with
  | zero => exact fun hk ↦ (Nat.not_lt_zero _ hk).elim
  | succ fuel ih =>
      intro it k hk
      -- a call that returns something is the first item, whether a block or the error
      have hitem : ∀ {item it'}, it.next = (some item, it') →
          (it.items (fuel + 1))[k]? = it.call k := by
        intro item it' hnext
        rw [items, hnext]
        cases k with
        | zero => rw [call, hnext, List.getElem?_cons_zero]
        | succ k =>
            rw [call, hnext, List.getElem?_cons_succ]
            exact ih (Nat.lt_of_succ_lt_succ hk)
      rcases it.next_cases with ⟨hnext, hdone⟩ | hnext | ⟨_, _, _, _, _, _, _, _, hnext⟩
      · rw [items, hnext, call_of_done hdone, List.getElem?_nil]
      · exact hitem hnext
      · exact hitem hnext

theorem length_items_le : ∀ (fuel : ℕ) (it : MessageBlockIter), (it.items fuel).length ≤ fuel
  | 0, _ => Nat.le_refl 0
  | fuel + 1, it => by
      unfold items
      split
      · exact Nat.zero_le _
      · exact Nat.succ_le_succ (length_items_le fuel _)

end MessageBlockIter

/-! ## The blocks of a datagram -/

namespace DownstreamHeader

variable {header : DownstreamHeader} {datagram : List UInt8} {blocks : List (List UInt8)}

/-- The iterator `header.blocks(datagram)` before its first call. -/
def blockIter (header : DownstreamHeader) (datagram : List UInt8) : MessageBlockIter :=
  .new (datagram.drop headerLen) header.messageCount

@[simp] theorem blocksLeft_blockIter :
    (header.blockIter datagram).blocksLeft = header.messageCount := rfl

theorem getElem?_blocks (h : (header.blockIter datagram).Iterates blocks) (k : ℕ) :
    (header.blocks datagram)[k]? = (header.blockIter datagram).call k := by
  by_cases hk : k < header.messageCount + 1
  · exact MessageBlockIter.getElem?_items hk
  · have hle : blocks.length ≤ header.messageCount := h.length_le
    rw [h.silent k (by omega), List.getElem?_eq_none_iff]
    exact (MessageBlockIter.length_items_le _ _).trans (Nat.le_of_not_lt hk)

/-- A block comes with the place it has in the datagram. -/
theorem slice_of_call (h : (header.blockIter datagram).Iterates blocks)
    (hlen : headerLen ≤ datagram.length) {i offset : ℕ} {block : List UInt8}
    (hcall : (header.blockIter datagram).call i = some (.ok (offset, block))) :
    slice datagram offset block.length = some block :=
  slice_of_mem_blocks hlen (List.mem_of_getElem? ((getElem?_blocks h i).trans hcall))

/-- What the call number `i` yields is the block number `i`. -/
theorem call_eq_ok_iff (h : (header.blockIter datagram).Iterates blocks) {i offset : ℕ}
    {block : List UInt8} :
    (header.blockIter datagram).call i = some (.ok (offset, block)) ↔
      blocks[i]? = some block ∧
        offset = headerLen + ((blocks.take i).flatMap moldBlock).length + 2 := by
  constructor
  · intro hcall
    rcases Nat.lt_trichotomy i blocks.length with hlt | rfl | hgt
    · have hyield := h.yields i blocks[i] (List.getElem?_eq_getElem hlt)
      rw [hcall] at hyield
      cases hyield
      exact ⟨List.getElem?_eq_getElem hlt, rfl⟩
    · rw [h.ends] at hcall
      split at hcall <;> cases hcall
    · rw [h.silent i hgt] at hcall
      cases hcall
  · rintro ⟨hblock, rfl⟩
    exact h.yields i block hblock

/-- The header promises no more than the datagram has when every call yields a block. -/
theorem length_eq_iff (h : (header.blockIter datagram).Iterates blocks) :
    blocks.length = header.messageCount ↔ ∃ more : List (List UInt8),
      more.length = header.messageCount ∧ Leads more (datagram.drop headerLen) := by
  constructor
  · exact fun hlength ↦ ⟨blocks, hlength, h.leads⟩
  · rintro ⟨more, hmore, hleads⟩
    have hlonger := (h.longest more hleads hmore.le).length_le
    have hle : blocks.length ≤ header.messageCount := h.length_le
    omega

/-- All promised blocks are yielded, and then nothing, when there are that many. -/
theorem yields_all_iff (h : (header.blockIter datagram).Iterates blocks) :
    ((∀ i < header.messageCount, ∃ item, (header.blockIter datagram).call i = some (.ok item)) ∧
        ∀ i, header.messageCount ≤ i → (header.blockIter datagram).call i = none) ↔
      blocks.length = header.messageCount := by
  constructor
  · rintro ⟨hyields, -⟩
    have hle : blocks.length ≤ header.messageCount := h.length_le
    by_contra hne
    obtain ⟨item, hitem⟩ := hyields blocks.length (by omega)
    rw [h.ends] at hitem
    split at hitem <;> cases hitem
  · intro hlength
    refine ⟨fun i hi ↦ ?_, fun i hi ↦ ?_⟩
    · rw [← hlength] at hi
      exact ⟨_, h.yields i blocks[i] (List.getElem?_eq_getElem hi)⟩
    · rcases Nat.eq_or_lt_of_le hi with rfl | hlt
      · rw [← hlength, h.ends, blocksLeft_blockIter, if_pos hlength]
      · exact h.silent i (by omega)

end DownstreamHeader

/-- A buffer that is neither too short nor too long has a header. -/
theorem exists_parseHeader {datagram : List UInt8} (hmin : headerLen ≤ datagram.length)
    (hmax : datagram.length ≤ maxDownstreamDatagram) :
    ∃ header, parseHeader datagram = .ok header := by
  rw [headerLen] at hmin
  have hsession : 10 ≤ datagram.length := by omega
  have hsequence : 8 ≤ (datagram.drop 10).length := by
    rw [List.length_drop]
    omega
  have hcount : 2 ≤ ((datagram.drop 10).drop 8).length := by
    rw [List.length_drop, List.length_drop]
    omega
  rw [parseHeader, if_neg (Nat.not_lt.mpr hmax)]
  simp only [splitFirstChunk, dif_pos hsession, dif_pos hsequence, dif_pos hcount, okOr, bind,
    Except.bind]
  exact ⟨_, rfl⟩

/-- A block list takes two bytes for each block and the bytes of each block. -/
theorem le_length_flatMap_moldBlock (messages : List (List UInt8)) :
    2 * messages.length ≤ (messages.flatMap moldBlock).length ∧
      ∀ message ∈ messages, 2 + message.length ≤ (messages.flatMap moldBlock).length := by
  induction messages with
  | nil => simp
  | cons message messages ih =>
      rw [List.flatMap_cons, List.length_append, length_moldBlock, List.length_cons,
        List.forall_mem_cons]
      refine ⟨by omega, by omega, fun m hm ↦ ?_⟩
      have := ih.2 m hm
      omega

/-- The blocks of an encoded packet are its messages. -/
theorem blocks_moldMultiPacket (session : SessionId) (sequence : UInt64)
    (messages : List (List UInt8)) (trailing : List UInt8)
    (hmax : (moldMultiPacket session sequence.toNat messages ++ trailing).length ≤
      maxDownstreamDatagram) :
    ∃ header, parseHeader (moldMultiPacket session sequence.toNat messages ++ trailing) =
        .ok header ∧
      (header.blocks (moldMultiPacket session sequence.toNat messages ++ trailing)).map
        (Except.map Prod.snd) = messages.map .ok := by
  obtain ⟨htwo, hshort⟩ := le_length_flatMap_moldBlock messages
  have hcontrol : (moldControl session sequence.toNat messages.length).length = headerLen := by
    simp only [moldControl, List.length_append, session.2, length_toBeBytes, headerLen]
  rw [moldMultiPacket, List.append_assoc] at hmax ⊢
  rw [List.length_append, List.length_append, hcontrol, headerLen, maxDownstreamDatagram] at hmax
  have hheader := @parseHeader_moldControl session _ messages.length
    (messages.flatMap moldBlock ++ trailing) sequence.toNat_lt (by omega)
    (by rw [List.length_append, headerLen, maxDownstreamDatagram]; omega)
  refine ⟨_, hheader, ?_⟩
  generalize hdatagram : moldControl session sequence.toNat messages.length ++
    (messages.flatMap moldBlock ++ trailing) = datagram
  have hbody : datagram.drop headerLen = messages.flatMap moldBlock ++ trailing := by
    rw [← hdatagram, List.drop_left' hcontrol]
  have hleads : Leads messages (datagram.drop headerLen) :=
    ⟨fun m hm ↦ by have := hshort m hm; omega, hbody ▸ List.prefix_append _ _⟩
  obtain ⟨blocks, h⟩ := @MessageBlockIter.exists_iterates
    (DownstreamHeader.blockIter ⟨session, sequence.toNat, messages.length⟩ datagram) rfl
  obtain rfl : blocks = messages :=
    ((h.longest messages hleads le_rfl).eq_of_length_le h.length_le).symm
  refine List.ext_getElem? fun k ↦ ?_
  rw [List.getElem?_map, List.getElem?_map, DownstreamHeader.getElem?_blocks h]
  rcases Nat.lt_trichotomy k blocks.length with hlt | rfl | hgt
  · rw [h.yields k _ (List.getElem?_eq_getElem hlt), List.getElem?_eq_getElem hlt]
    rfl
  · rw [h.ends, DownstreamHeader.blocksLeft_blockIter, if_pos rfl,
      List.getElem?_eq_none le_rfl]
    rfl
  · rw [h.silent k hgt, List.getElem?_eq_none hgt.le]
    rfl

/-- Block iteration is exact.  The calls yield every promised block and then nothing exactly when
the body starts with that many; otherwise they yield the complete leading blocks, one error, and
then nothing.  Each block comes with its place in the datagram, and an encoded list is read
back whatever follows it. -/
theorem blocks_exact :
    (∀ datagram : List UInt8, headerLen ≤ datagram.length →
      datagram.length ≤ maxDownstreamDatagram → ∃ header, parseHeader datagram = .ok header ∧
      (((∀ i < header.messageCount, ∃ item,
            (header.blockIter datagram).call i = some (.ok item)) ∧
          ∀ i, header.messageCount ≤ i → (header.blockIter datagram).call i = none) ↔
        ∃ blocks : List (List UInt8), blocks.length = header.messageCount ∧
          Leads blocks (datagram.drop headerLen)) ∧
      ∃ blocks : List (List UInt8), blocks.length ≤ header.messageCount ∧
        Leads blocks (datagram.drop headerLen) ∧
        (blocks.length < header.messageCount →
          (∀ block, ¬ Leads (blocks ++ [block]) (datagram.drop headerLen)) ∧
          (header.blockIter datagram).call blocks.length = some (.error .packetTooShort) ∧
          ∀ i, blocks.length < i → (header.blockIter datagram).call i = none) ∧
        (∀ i < blocks.length, ∃ item, (header.blockIter datagram).call i = some (.ok item)) ∧
        ∀ i offset block, (header.blockIter datagram).call i = some (.ok (offset, block)) →
          blocks[i]? = some block ∧
          offset = headerLen + ((blocks.take i).flatMap moldBlock).length + 2 ∧
          offset + block.length ≤ datagram.length ∧
          slice datagram offset block.length = some block) ∧
    ∀ (session : SessionId) (sequence : UInt64) (messages : List (List UInt8))
      (trailing : List UInt8),
      (moldMultiPacket session sequence.toNat messages ++ trailing).length ≤
        maxDownstreamDatagram →
      ∃ header, parseHeader (moldMultiPacket session sequence.toNat messages ++ trailing) =
          .ok header ∧
        (header.blocks (moldMultiPacket session sequence.toNat messages ++ trailing)).map
          (Except.map Prod.snd) = messages.map .ok := by
  refine ⟨fun datagram hmin hmax ↦ ?_, blocks_moldMultiPacket⟩
  obtain ⟨header, hheader⟩ := exists_parseHeader hmin hmax
  obtain ⟨blocks, h⟩ := @MessageBlockIter.exists_iterates (header.blockIter datagram) rfl
  refine ⟨header, hheader,
    (DownstreamHeader.yields_all_iff h).trans (DownstreamHeader.length_eq_iff h), blocks,
    h.length_le, h.leads, fun hlt ↦ ⟨fun block hmore ↦ ?_, ?_, h.silent⟩, fun i hi ↦ ?_,
    fun i offset block hcall ↦ ?_⟩
  · have hlonger := (h.longest _ hmore (by simpa using Nat.succ_le_of_lt hlt)).length_le
    simp at hlonger
  · rw [h.ends, DownstreamHeader.blocksLeft_blockIter, if_neg hlt.ne]
  · exact ⟨_, h.yields i blocks[i] (List.getElem?_eq_getElem hi)⟩
  · obtain ⟨hblock, hoffset⟩ := (DownstreamHeader.call_eq_ok_iff h).mp hcall
    have hslice := DownstreamHeader.slice_of_call h hmin hcall
    exact ⟨hblock, hoffset, (slice_eq_some_iff.mp hslice).1, hslice⟩

/-- Of two promised blocks only one is there; two encoded blocks, one of them empty, are read
back in front of a stray byte. -/
theorem blocks_exact_truncated :
    (¬ ∃ blocks : List (List UInt8), blocks.length = 2 ∧ Leads blocks [0, 1, 7, 0]) ∧
    ∃ header, parseHeader
        (moldMultiPacket ⟨List.replicate 10 65, List.length_replicate⟩ 1 [[7], []] ++ [9]) =
          .ok header ∧
      (header.blocks
          (moldMultiPacket ⟨List.replicate 10 65, List.length_replicate⟩ 1 [[7], []] ++ [9])).map
        (Except.map Prod.snd) = [.ok [7], .ok []] := by
  refine ⟨fun hblocks ↦ ?_, blocks_exact.2 _ 1 [[7], []] [9] (by decide)⟩
  obtain ⟨header, hheader, hiff, -⟩ := blocks_exact.1
    (moldControl ⟨List.replicate 10 65, List.length_replicate⟩ 1 2 ++ [0, 1, 7, 0])
    (by decide) (by decide)
  obtain rfl : ⟨⟨List.replicate 10 65, List.length_replicate⟩, 1, 2⟩ = header :=
    Except.ok.inj hheader
  obtain ⟨item, hitem⟩ := (hiff.mpr hblocks).1 1 (by decide)
  cases hitem

end MoldUdp
