import PolarisTrade.MoldUdp.Recv

/-!
# Items that borrow from the datagram being handed out

An `Inline` item carries no share of its datagram: it is a range of `backing`, and
`inline_pending` counts the items still out.  Items are queued inside the block loop,
`backing` and the count are written only after it.
-/

namespace MoldUdp

open Transport Word

variable {F : Type}

/-- The range an item borrows, if it is an `Inline` one. -/
def ReadyItem.borrowed : ReadyItem F → Option Block
  | .inline sequence _ offset len => some ⟨sequence, offset, len⟩
  | _ => none

def borrows (items : List (ReadyItem F)) : List Block := items.filterMap ReadyItem.borrowed

@[simp] theorem borrows_nil : borrows ([] : List (ReadyItem F)) = [] := rfl

@[simp] theorem borrows_append (xs ys : List (ReadyItem F)) :
    borrows (xs ++ ys) = borrows xs ++ borrows ys := List.filterMap_append

@[simp] theorem borrows_inline (sequence offset len : ℕ) (streamId : UInt8)
    (items : List (ReadyItem F)) :
    borrows (.inline sequence streamId offset len :: items) =
      ⟨sequence, offset, len⟩ :: borrows items := rfl

@[simp] theorem borrows_view (view : MessageView F) (sequence : ℕ) (streamId : UInt8)
    (items : List (ReadyItem F)) :
    borrows (.view view sequence streamId :: items) = borrows items := rfl

@[simp] theorem borrows_event (ev : MoldUdpEvent) (items : List (ReadyItem F)) :
    borrows (.event ev :: items) = borrows items := rfl

@[simp] theorem borrows_gap (items : List (ReadyItem F)) :
    borrows (.gap :: items) = borrows items := rfl

@[simp] theorem borrows_viewItems (streamId : UInt8) (seq : ℕ) (views : List (MessageView F)) :
    borrows (viewItems streamId seq views) = [] := by
  induction views generalizing seq with
  | nil => rfl
  | cons view views ih => exact ih _

theorem borrows_gaps {α : Type} (confirmed : List α) :
    borrows (confirmed.map fun _ ↦ (.gap : ReadyItem F)) = [] := by
  induction confirmed with
  | nil => rfl
  | cons _ confirmed ih => exact ih

/-- Ranges borrowed by the items in `current` and `ready`. -/
def Inner.outstanding (i : Inner F) : List Block := borrows (i.current.toList ++ i.ready)

namespace Inner

@[simp] theorem ready_accepted (i : Inner F) (rest : List (UInt8 × Held F))
    (header : DownstreamHeader) : (i.accepted rest header).ready = i.ready := by
  unfold accepted anchor
  split <;> rfl

@[simp] theorem inlinePending_accepted (i : Inner F) (rest : List (UInt8 × Held F))
    (header : DownstreamHeader) : (i.accepted rest header).inlinePending = i.inlinePending := by
  unfold accepted anchor
  split <;> rfl

@[simp] theorem borrows_noteTailGap (i : Inner F) (nextExpected : ℕ) :
    borrows (i.noteTailGap nextExpected).ready = borrows i.ready := by
  unfold noteTailGap
  split
  · simp
  · rfl

@[simp] theorem inlinePending_noteTailGap (i : Inner F) (nextExpected : ℕ) :
    (i.noteTailGap nextExpected).inlinePending = i.inlinePending := by
  unfold noteTailGap
  split <;> rfl

@[simp] theorem borrows_noteJump (i : Inner F) (sequence : ℕ) (now : Option Instant) :
    borrows (i.noteJump sequence now).ready = borrows i.ready := by
  unfold noteJump
  split
  · split
    · rfl
    · simp
  · rfl

@[simp] theorem borrows_drainConfirmedGaps (i : Inner F) (now : Instant) :
    borrows (i.drainConfirmedGaps now).ready = borrows i.ready := by
  unfold drainConfirmedGaps
  split
  · rfl
  · rw [borrows_append, borrows_gaps, List.append_nil]

theorem drainConfirmedGaps_backing (i : Inner F) (now : Instant) :
    (i.drainConfirmedGaps now).backing = i.backing ∧
      (i.drainConfirmedGaps now).inlinePending = i.inlinePending := by
  unfold drainConfirmedGaps
  split <;> exact ⟨rfl, rfl⟩

end Inner

/-! ## The block loop -/

/-- Inside the loop over `blocks` of `datagram`: the loop's backing is that datagram, and
`inline` counts the items queued so far, each one of its blocks. -/
structure Decoding.Lends (d : Decoding F) (datagram : Held F) (blocks : List Block) : Prop where
  backing : d.backing.held = datagram
  count : (borrows d.inner.ready).length = d.inline
  mem : ∀ b ∈ borrows d.inner.ready, b ∈ blocks

namespace Decoding

variable {d : Decoding F} {datagram : Held F} {blocks : List Block}

theorem Lends.deliver (h : d.Lends datagram blocks) (streamId : UInt8) {b : Block}
    (hb : b ∈ blocks) : (d.deliver streamId b).Lends datagram blocks where
  backing := h.backing
  count := by
    change (borrows (d.inner.ready ++ _)).length = d.inline + 1
    rw [borrows_append, borrows_inline, borrows_viewItems, List.length_append, h.count]
    rfl
  mem := by
    change ∀ b' ∈ borrows (d.inner.ready ++ _), b' ∈ blocks
    intro b' hb'
    rw [borrows_append, borrows_inline, borrows_viewItems, List.mem_append,
      List.mem_singleton] at hb'
    rcases hb' with hb' | rfl
    · exact h.mem b' hb'
    · exact hb

theorem Lends.buffer (h : d.Lends datagram blocks) (streamId : UInt8) (b : Block) :
    (d.buffer streamId b).2.Lends datagram blocks := by
  have hheld : d.backing.share.1.held = datagram := (Backing.held_share _).trans h.backing
  unfold Decoding.buffer
  split
  · exact ⟨hheld, h.count, h.mem⟩
  · exact ⟨hheld, h.count, h.mem⟩
  · refine ⟨hheld, ?_, ?_⟩
    · simpa using h.count
    · simpa using h.mem

theorem Lends.place (h : d.Lends datagram blocks) (streamId : UInt8) {b : Block}
    (hb : b ∈ blocks) : (d.place streamId b).2.Lends datagram blocks := by
  unfold Decoding.place
  split
  · exact h.deliver streamId hb
  · exact h.buffer streamId b
  · exact h

theorem observe_ready (i : Inner F) (streamId : UInt8) (seq : ℕ) (now : Option Instant) :
    (i.observe streamId seq now).2.ready = i.ready := by
  unfold Inner.observe
  split <;> rfl

theorem Lends.decodeBlock (h : d.Lends datagram blocks) (streamId : UInt8)
    (now : Option Instant) {b : Block} (hb : b ∈ blocks) :
    (Decoding.decodeBlock streamId now b d).2.Lends datagram blocks := by
  have hready := observe_ready d.inner streamId b.seq now
  unfold Decoding.decodeBlock
  generalize d.inner.observe streamId b.seq now = observed at hready ⊢
  obtain ⟨verdict, inner⟩ := observed
  have hkept : ∀ i : Inner F, i.ready = d.inner.ready →
      ({ d with inner := i } : Decoding F).Lends datagram blocks := fun i hi ↦
    ⟨h.backing, (congrArg (fun items ↦ (borrows items).length) hi).trans h.count,
      fun b' hb' ↦ h.mem b' (hi ▸ hb')⟩
  cases verdict with
  | duplicate => exact hkept inner hready
  | outOfWindow => exact hkept inner hready
  | forward => exact (hkept (inner.markReceived b.seq) hready).place streamId hb

theorem Lends.decodeBlocks (streamId : UInt8) (now : Option Instant) {todo : List Block}
    (htodo : ∀ b ∈ todo, b ∈ blocks) (h : d.Lends datagram blocks) :
    (Decoding.decodeBlocks streamId now todo d).2.Lends datagram blocks := by
  induction todo generalizing d with
  | nil => exact h
  | cons b todo ih =>
      have hstep := h.decodeBlock streamId now (htodo b List.mem_cons_self)
      unfold Decoding.decodeBlocks
      generalize Decoding.decodeBlock streamId now b d = decoded at hstep ⊢
      obtain ⟨_ | _, d'⟩ := decoded
      · exact hstep
      · exact ih (fun b' hb' ↦ htodo b' (List.mem_cons_of_mem b hb')) hstep

theorem inline_decodeBlock_le (streamId : UInt8) (now : Option Instant) (b : Block)
    (d : Decoding F) : (Decoding.decodeBlock streamId now b d).2.inline ≤ d.inline + 1 := by
  have hbuffer : ∀ d : Decoding F, (d.buffer streamId b).2.inline = d.inline := by
    intro d
    unfold Decoding.buffer
    split <;> rfl
  unfold Decoding.decodeBlock
  split
  · exact Nat.le_succ _
  · exact Nat.le_succ _
  · unfold Decoding.place
    split
    · exact le_rfl
    · rw [hbuffer]
      exact Nat.le_succ _
    · exact Nat.le_succ _

theorem inline_decodeBlocks_le (streamId : UInt8) (now : Option Instant) (todo : List Block)
    (d : Decoding F) :
    (Decoding.decodeBlocks streamId now todo d).2.inline ≤ d.inline + todo.length := by
  induction todo generalizing d with
  | nil => exact le_rfl
  | cons b todo ih =>
      have hstep := inline_decodeBlock_le streamId now b d
      unfold Decoding.decodeBlocks
      generalize Decoding.decodeBlock streamId now b d = decoded at hstep ⊢
      obtain ⟨_ | _, d'⟩ := decoded
      · exact hstep.trans (by simp)
      · refine (ih d').trans ?_
        dsimp only at hstep
        rw [List.length_cons]
        omega

end Decoding

/-! ## Whole runs -/

theorem releaseInline_of_pos {i : Inner F} (hpos : 0 < i.inlinePending)
    (hsmall : i.inlinePending < 2 ^ 64) :
    i.releaseInline = { i with
      inlinePending := i.inlinePending - 1
      backing := if i.inlinePending - 1 = 0 then .empty else i.backing } := by
  have hdec : (i.inlinePending + max64) % 2 ^ 64 = i.inlinePending - 1 := by
    rw [max64]
    omega
  unfold Inner.releaseInline
  rw [hdec]

section Backed

variable [AsRef F]

/-- Block `b` is one of the numbered blocks of `datagram`, and a range inside it. -/
def Carries (datagram : Held F) (b : Block) : Prop :=
  ∃ header k bytes, parseHeader datagram.asRef = .ok header ∧ header.kind = .data ∧
    b.seq = wrappingAdd header.sequence k ∧ header.payload datagram.asRef k = some bytes ∧
    slice datagram.asRef b.offset b.len = some bytes

/-- The count is the number of outstanding items, and each of them is a range of
`backing`, the datagram it was decoded from. -/
structure Session.Backed (s : Session F) : Prop where
  pending : s.inner.inlinePending = s.inner.outstanding.length
  small : s.inner.inlinePending < 2 ^ 64
  inside : ∀ b ∈ s.inner.outstanding, ∃ streamId,
    s.decoded.getLast? = some (streamId, s.inner.backing.held) ∧ Carries s.inner.backing.held b

/-- A decode step that fails after queueing an item that borrows from its datagram. -/
def Inner.Strands (i : Inner F) (now : Instant) : Prop :=
  (∃ e, (i.decodeNext now).1 = .error e) ∧ borrows (i.decodeNext now).2.ready ≠ []

/-- Giving one borrowed range back: the items left are still backed. -/
theorem Session.Backed.release {s : Session F} (h : s.Backed) {b : Block} {rest : List Block}
    (hout : s.inner.outstanding = b :: rest) (i : Inner F) (hi : i.outstanding = rest)
    (hpending : i.inlinePending = s.inner.inlinePending)
    (hheld : i.backing.held = s.inner.backing.held) {handed : List (MoldUdpOutcome F)} :
    Session.Backed ⟨i.releaseInline, handed, s.decoded⟩ := by
  have hlen : i.inlinePending = rest.length + 1 := by
    rw [hpending, h.pending, hout, List.length_cons]
  have hsmall : i.inlinePending < 2 ^ 64 := hpending ▸ h.small
  rw [releaseInline_of_pos (by omega) hsmall]
  refine ⟨?_, ?_, ?_⟩
  · change i.inlinePending - 1 = i.outstanding.length
    rw [hi]
    omega
  · change i.inlinePending - 1 < 2 ^ 64
    omega
  · intro b' hb'
    have hb' : b' ∈ rest := hi ▸ hb'
    have hne : ¬ i.inlinePending - 1 = 0 := by
      have := List.length_pos_of_mem hb'
      omega
    dsimp only
    rw [if_neg hne, hheld]
    exact h.inside b' (hout ▸ List.mem_cons_of_mem b hb')

/-- Nothing but `outstanding`, the count and the backing matters. -/
theorem Session.Backed.congr {s : Session F} (h : s.Backed) (i : Inner F)
    (hout : i.outstanding = s.inner.outstanding)
    (hpending : i.inlinePending = s.inner.inlinePending) (hbacking : i.backing = s.inner.backing)
    {handed : List (MoldUdpOutcome F)} : Session.Backed ⟨i, handed, s.decoded⟩ := by
  refine ⟨?_, ?_, ?_⟩
  · dsimp only
    rw [hout, hpending, h.pending]
  · exact hpending ▸ h.small
  · dsimp only
    rw [hout, hbacking]
    exact h.inside

theorem Session.Backed.retire {s : Session F} (h : s.Backed) :
    Session.Backed { s with inner := s.inner.retireCurrent } := by
  unfold Inner.retireCurrent
  split
  · next sequence streamId offset len hcurrent =>
      have hout : s.inner.outstanding = ⟨sequence, offset, len⟩ :: borrows s.inner.ready := by
        simp [Inner.outstanding, hcurrent]
      exact h.release hout { s.inner with current := none } rfl rfl rfl
  · next hcurrent =>
      refine h.congr { s.inner with current := none } ?_ rfl rfl
      cases hc : s.inner.current with
      | none => simp [Inner.outstanding, hc]
      | some item =>
          cases item with
          | inline sequence streamId offset len =>
              exact (hcurrent sequence streamId offset len hc).elim
          | view => simp [Inner.outstanding, hc]
          | event => simp [Inner.outstanding, hc]
          | gap => simp [Inner.outstanding, hc]

theorem Session.Backed.yieldOwned {s : Session F} (h : s.Backed) {item : ReadyItem F}
    {rest : List (ReadyItem F)} (hready : s.inner.ready = item :: rest)
    (hcurrent : s.inner.current = none) {handed : List (MoldUdpOutcome F)} :
    Session.Backed
      ⟨(Inner.yieldOwned { s.inner with ready := rest } item).2, handed, s.decoded⟩ := by
  have hout : s.inner.outstanding = borrows (item :: rest) := by
    simp [Inner.outstanding, hready, hcurrent]
  have hpopped : ({ s.inner with ready := rest } : Inner F).outstanding = borrows rest := by
    simp [Inner.outstanding, hcurrent]
  cases item with
  | inline sequence streamId offset len =>
      exact h.release hout { s.inner with ready := rest, backing := s.inner.backing.share.1 }
        hpopped rfl (Backing.held_share _)
  | view => exact h.congr { s.inner with ready := rest } (hpopped.trans hout.symm) rfl rfl
  | event => exact h.congr { s.inner with ready := rest } (hpopped.trans hout.symm) rfl rfl
  | gap => exact h.congr { s.inner with ready := rest } (hpopped.trans hout.symm) rfl rfl

/-- An outstanding item can be handed out: its slice is in range. -/
theorem Session.Backed.slice_isSome {s : Session F} (h : s.Backed) {b : Block}
    (hb : b ∈ s.inner.outstanding) : (slice s.inner.backing.bytes b.offset b.len).isSome := by
  obtain ⟨-, -, -, -, bytes, -, -, -, -, hslice⟩ := h.inside b hb
  exact Option.isSome_iff_exists.mpr ⟨bytes, hslice⟩

omit [AsRef F] in
theorem lends_enterLoop {i : Inner F} {header : DownstreamHeader} {datagram : Held F}
    {now : Option Instant} (hready : borrows i.ready = []) (blocks : List Block) :
    (i.enterLoop header datagram now).Lends datagram blocks := by
  have hjump : borrows (i.enterLoop header datagram now).inner.ready = [] :=
    (i.borrows_noteJump header.sequence now).trans hready
  refine ⟨rfl, ?_, ?_⟩
  · rw [hjump]
    rfl
  · simp [hjump]

/-- Decoding with nothing outstanding ends with nothing outstanding, or fails with items
queued, or installs the datagram behind the items it queued. -/
theorem Inner.Processed.lent {i i' : Inner F} {now : Option Instant}
    {r : Except MoldUdpError Unit} (h : i.Processed now r i') (hready : i.ready = [])
    (hpending : i.inlinePending = 0) :
    (borrows i'.ready = [] ∧ i'.inlinePending = 0) ∨
    ((∃ e, r = .error e) ∧ borrows i'.ready ≠ []) ∨
    ∃ streamId, i.pendingDatagrams.head? = some (streamId, i'.backing.held) ∧
      i'.inlinePending = (borrows i'.ready).length ∧ i'.inlinePending < 2 ^ 64 ∧
      ∀ b ∈ borrows i'.ready, Carries i'.backing.held b := by
  cases h with
  | idle => exact Or.inl ⟨by rw [hready, borrows_nil], hpending⟩
  | unparsed => exact Or.inl ⟨by rw [hready, borrows_nil], hpending⟩
  | mismatch => exact Or.inl ⟨by rw [hready, borrows_nil], hpending⟩
  | @control _ _ rest header ev =>
      left
      constructor
      · change borrows (((i.accepted rest header).noteTailGap header.sequence).ready ++ _) = []
        rw [borrows_append, borrows_noteTailGap, ready_accepted, hready]
        rfl
      · exact (inlinePending_noteTailGap _ _).trans ((inlinePending_accepted _ _ _).trans hpending)
  | @data streamId datagram rest header hpop hparse _ hkind =>
      have hready₁ : (i.accepted rest header).ready = [] := (ready_accepted _ _ _).trans hready
      have hpending₁ : (i.accepted rest header).inlinePending = 0 :=
        (inlinePending_accepted _ _ _).trans hpending
      generalize i.accepted rest header = i₁ at hready₁ hpending₁
      rcases i₁.decodeData_cases streamId datagram header now with
        ⟨blocks, e, -, hdecode⟩ | ⟨blocks, hnumber, hloop⟩
      · rw [hdecode]
        exact Or.inl ⟨by rw [hready₁, borrows_nil], hpending₁⟩
      have hlends : (enterLoop { i₁ with blocks := blocks } header datagram now).Lends
          datagram blocks := lends_enterLoop (by rw [hready₁, borrows_nil]) blocks
      have hkept : (enterLoop { i₁ with blocks := blocks } header datagram now).inner.inlinePending
          = 0 := (noteJump_frame _ _ _).inlinePending.trans hpending₁
      rcases hloop with ⟨e, d, hloop, hdecode⟩ | ⟨d, hloop, hdecode⟩
      all_goals
        have hend := Decoding.Lends.decodeBlocks streamId now (fun b hb ↦ hb) hlends
        have hframe := (Decoding.decodeBlocks_frame streamId now blocks
          (enterLoop { i₁ with blocks := blocks } header datagram now)).inlinePending
        rw [hloop] at hend hframe
        rw [hdecode]
      · by_cases hnone : borrows d.inner.ready = []
        · exact Or.inl ⟨hnone, hframe.trans hkept⟩
        · exact Or.inr (Or.inl ⟨⟨e, rfl⟩, hnone⟩)
      · have hcount := hend.count
        dsimp only at hcount hframe
        unfold Decoding.install
        split
        · next hpos =>
            obtain ⟨hlen, hblocks⟩ := numberBlocks_blocks hparse hnumber
            have hle := Decoding.inline_decodeBlocks_le streamId now blocks
              (enterLoop { i₁ with blocks := blocks } header datagram now)
            rw [hloop, hlen] at hle
            have hheld : d.backing.held = datagram := hend.backing
            refine Or.inr (Or.inr ⟨streamId, ?_, hcount.symm, ?_, ?_⟩)
            · rw [hpop, hheld]
              rfl
            · have hbound := parseHeader_messageCount_lt hparse
              have hstart :
                  (enterLoop { i₁ with blocks := blocks } header datagram now).inline = 0 :=
                rfl
              dsimp only at hle ⊢
              omega
            · intro b hb
              obtain ⟨k, hk⟩ := List.mem_iff_getElem?.mp (hend.mem b hb)
              obtain ⟨hseq, bytes, hpayload, hslice⟩ := hblocks k b hk
              dsimp only
              rw [hheld]
              exact ⟨header, k, bytes, hparse, hkind, hseq, hpayload, hslice⟩
        · next hzero =>
            exact Or.inl ⟨List.length_eq_zero_iff.mp (hcount.trans (Nat.eq_zero_of_not_pos hzero)),
              hframe.trans hkept⟩

/-- Confirming candidates afterwards only queues gaps. -/
theorem Inner.decodeNext_lent (i : Inner F) (now : Instant) (hready : i.ready = [])
    (hpending : i.inlinePending = 0) :
    (borrows (i.decodeNext now).2.ready = [] ∧ (i.decodeNext now).2.inlinePending = 0) ∨
    i.Strands now ∨
    ∃ streamId, i.pendingDatagrams.head? = some (streamId, (i.decodeNext now).2.backing.held) ∧
      (i.decodeNext now).2.inlinePending = (borrows (i.decodeNext now).2.ready).length ∧
      (i.decodeNext now).2.inlinePending < 2 ^ 64 ∧
      ∀ b ∈ borrows (i.decodeNext now).2.ready, Carries (i.decodeNext now).2.backing.held b := by
  have hlent := (i.processNextPending_processed (i.clock now)).lent hready hpending
  unfold Strands decodeNext
  generalize i.processNextPending (i.clock now) = processed at hlent ⊢
  obtain ⟨e | _, i'⟩ := processed
  · exact hlent
  · dsimp only at hlent ⊢
    split
    · rw [borrows_drainConfirmedGaps, (drainConfirmedGaps_backing i' now).1,
        (drainConfirmedGaps_backing i' now).2]
      exact hlent
    · exact hlent

/-- With nothing outstanding before, a decode step that does not strand an item leaves
every item it queued backed by the datagram it decoded. -/
theorem Session.Backed.decode {s : Session F} (h : s.Backed) {now : Instant}
    (hready : s.inner.ready = []) (hcurrent : s.inner.current = none)
    (hstrands : ¬ s.inner.Strands now) :
    Session.Backed
      { s with
        inner := (s.inner.decodeNext now).2
        decoded := s.decoded ++ s.inner.pendingDatagrams.take 1 } := by
  have hpending : s.inner.inlinePending = 0 := by
    rw [h.pending]
    simp [Inner.outstanding, hready, hcurrent]
  have hcurrent' := (s.inner.current_decodeNext now).trans hcurrent
  have hout : (s.inner.decodeNext now).2.outstanding =
      borrows (s.inner.decodeNext now).2.ready := by
    simp [Inner.outstanding, hcurrent']
  rcases s.inner.decodeNext_lent now hready hpending with
    ⟨hnone, hzero⟩ | hbad | ⟨streamId, hhead, hcount, hsmall, hcarries⟩
  · refine ⟨?_, ?_, ?_⟩ <;> dsimp only
    · rw [hout, hnone, hzero]
      rfl
    · rw [hzero]
      norm_num
    · rw [hout, hnone]
      simp
  · exact (hstrands hbad).elim
  · refine ⟨?_, hsmall, ?_⟩ <;> dsimp only
    · rw [hout, hcount]
    · intro b hb
      refine ⟨streamId, ?_, hcarries b (hout ▸ hb)⟩
      obtain ⟨rest, hrest⟩ : ∃ rest, s.inner.pendingDatagrams = _ :: rest :=
        List.head?_eq_some_iff.mp hhead
      rw [hrest]
      simp

theorem Session.backed_start {cfg : MoldUdpReceiverConfig} {legs : List Leg} {inner : Inner F}
    (h : fromLegs cfg legs = .ok inner) : (Session.start inner).Backed := by
  obtain rfl := fromLegs_ok h
  refine ⟨rfl, ?_, ?_⟩
  · change 0 < 2 ^ 64
    norm_num
  · simp [Session.start, Inner.outstanding, Inner.fresh]

/-- Events that strand no borrowed item. -/
def Session.Keeps (s : Session F) : Event F → Prop
  | .decode now => ¬ s.inner.Strands now
  | _ => True

theorem Session.Backed.next {s t : Session F} {e : Event F} (h : s.Backed) (hkeeps : s.Keeps e)
    (hstep : s.next e = some t) : t.Backed := by
  cases Session.step_of_next hstep with
  | retire => exact h.retire
  | land datagrams batch =>
      exact h.congr
        { s.inner with
          pendingDatagrams := s.inner.pendingDatagrams ++ datagrams
          recvBatch := batch } rfl rfl rfl
  | decode now hready hcurrent => exact h.decode hready hcurrent hkeeps
  | yieldItem item rest r hready hcurrent =>
      refine h.congr { s.inner with ready := rest, current := some item } ?_ rfl rfl
      simp [Inner.outstanding, hready, hcurrent]
  | yieldOwned item rest hready hcurrent => exact h.yieldOwned hready hcurrent

end Backed

end MoldUdp
