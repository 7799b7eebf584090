import PolarisTrade.MoldUdp.Delivery

/-!
# Exactly-once delivery over whole runs

A session remembers what it handed out and which datagrams it decoded.  Over every run
the delivered numbers are consecutive from the anchor, and every payload is a block of a
datagram of the locked session.
-/

namespace MoldUdp

open Transport Word

variable {F : Type}

def MoldUdpOutcome.number : MoldUdpOutcome F → Option ℕ
  | .frame _ sequence _ => some sequence
  | .owned _ sequence _ => some sequence
  | .event _ => none

/-- Numbers of the messages among these outcomes. -/
def handedNumbers (handed : List (MoldUdpOutcome F)) : List ℕ :=
  handed.filterMap MoldUdpOutcome.number

@[simp] theorem handedNumbers_append (xs ys : List (MoldUdpOutcome F)) :
    handedNumbers (xs ++ ys) = handedNumbers xs ++ handedNumbers ys := List.filterMap_append

/-- Numbers handed out, then numbers queued. -/
def Session.delivered (s : Session F) : List ℕ :=
  handedNumbers s.handed ++ numbers s.inner.ready

section

variable [AsRef F]

def MoldUdpOutcome.payload : MoldUdpOutcome F → Option (List UInt8)
  | .frame payload _ _ => some payload
  | .owned view _ _ => view.asRef
  | .event _ => none

/-- The configured start, else the number in the first header that parses. -/
def anchorOf (start : Option UInt64) (decoded : List (UInt8 × Held F)) : Option ℕ :=
  match start with
  | some sequence => some sequence.toNat
  | none => decoded.findSome? fun p ↦
      match parseHeader p.2.asRef with
      | .ok header => some header.sequence
      | .error _ => none

/-- The payload is block `n - header.sequence` of one of these data datagrams, and its
header names the session. -/
def GenuineIn (decoded : List (UInt8 × Held F)) (session : Option SessionId) (n : ℕ)
    (bytes : List UInt8) : Prop :=
  ∃ p ∈ decoded, ∃ header, parseHeader p.2.asRef = .ok header ∧
    session = some header.session ∧ header.kind = .data ∧ header.sequence ≤ n ∧
    header.payload p.2.asRef (n - header.sequence) = some bytes

/-- The payload comes from a decoded datagram of the locked session. -/
def Session.Genuine (s : Session F) (n : ℕ) (bytes : List UInt8) : Prop :=
  GenuineIn s.decoded s.inner.session n bytes

/-- Events that keep the numbers in order: every block has a successor, and with several
legs no insert is refused. -/
def Session.Steady (s : Session F) : Event F → Prop
  | .decode now =>
      (∀ p ∈ s.inner.pendingDatagrams.head?, ∀ header,
        parseHeader p.2.asRef = .ok header → header.kind = .data → header.Fits) ∧
      (s.inner.arbiter = none ∨
        ∀ capacity, (s.inner.decodeNext now).1 ≠ .error (.reassemblyBufferFull capacity))
  | _ => True

/-- The same with the bound on every header: numbers stay below `u64::MAX - 65536`. -/
def Session.Orderly (s : Session F) : Event F → Prop
  | .decode now =>
      (∀ p ∈ s.inner.pendingDatagrams.head?, ∀ header,
        parseHeader p.2.asRef = .ok header → header.sequence < max64 - 65536) ∧
      (s.inner.arbiter = none ∨
        ∀ capacity, (s.inner.decodeNext now).1 ≠ .error (.reassemblyBufferFull capacity))
  | _ => True

theorem Session.Orderly.steady {s : Session F} {e : Event F} (h : s.Orderly e) : s.Steady e := by
  cases e with
  | decode now =>
      refine ⟨fun p hp header hparse _ ↦ ?_, h.2⟩
      have hlt := h.1 p hp header hparse
      have hcount := parseHeader_messageCount_lt hparse
      rw [max64] at hlt
      rw [DownstreamHeader.Fits]
      omega
  | _ => trivial

/-- A condition on the header that a result may hold. -/
instance decidableForallOk {ε α : Type} (P : α → Prop) [DecidablePred P] :
    ∀ r : Except ε α, Decidable (∀ a, r = .ok a → P a)
  | .ok a => decidable_of_iff (P a) ⟨fun h _ ha ↦ Except.ok.inj ha ▸ h, fun h ↦ h a rfl⟩
  | .error _ => .isTrue fun _ ha ↦ nomatch ha

/-- Whether a result reports a full buffer. -/
instance decidableNeFull : ∀ r : Except MoldUdpError Unit,
    Decidable (∀ capacity, r ≠ .error (.reassemblyBufferFull capacity))
  | .error (.reassemblyBufferFull capacity) => .isFalse fun h ↦ h capacity rfl
  | .error (.transport _) => .isTrue fun _ h ↦ nomatch h
  | .error (.sessionMismatch ..) => .isTrue fun _ h ↦ nomatch h
  | .error .gapDetected => .isTrue fun _ h ↦ nomatch h
  | .error .packetTooShort => .isTrue fun _ h ↦ nomatch h
  | .error .packetTooLarge => .isTrue fun _ h ↦ nomatch h
  | .error (.poolTooSmall ..) => .isTrue fun _ h ↦ nomatch h
  | .error (.legCount _) => .isTrue fun _ h ↦ nomatch h
  | .ok _ => .isTrue fun _ h ↦ nomatch h

instance (s : Session F) : ∀ e, Decidable (s.Orderly e)
  | .decode _ => inferInstanceAs (Decidable (_ ∧ (_ ∨ _)))
  | .retire => .isTrue trivial
  | .land .. => .isTrue trivial
  | .yieldItem => .isTrue trivial
  | .yieldOwned => .isTrue trivial

/-- The joint invariant of ring, queue, backing and history. -/
structure Session.InOrder (start : Option UInt64) (s : Session F) : Prop where
  backed : s.Backed
  fits : s.inner.RingFits
  views : s.inner.Views fun n view ↦ ∃ bytes, view.asRef = some bytes ∧ s.Genuine n bytes
  lender : s.inner.outstanding ≠ [] → ∀ p ∈ s.decoded.getLast?, ∀ header,
    parseHeader p.2.asRef = .ok header →
    s.inner.session = some header.session ∧ header.Fits
  handed : ∀ outcome ∈ s.handed, ∀ n, outcome.number = some n →
    ∃ bytes, outcome.payload = some bytes ∧ s.Genuine n bytes
  locked : s.inner.session.isSome → s.inner.seqAnchored = true
  anchored : s.inner.seqAnchored = (anchorOf start s.decoded).isSome
  order : ∀ a, anchorOf start s.decoded = some a → a ≤ s.inner.reassembler.expectedNext ∧
    s.delivered = List.range' a (s.inner.reassembler.expectedNext - a)
  blank : anchorOf start s.decoded = none → s.delivered = []

variable {start : Option UInt64} {s t : Session F}

theorem Session.Genuine.mono {n : ℕ} {bytes : List UInt8} (h : s.Genuine n bytes)
    (hdecoded : ∀ p ∈ s.decoded, p ∈ t.decoded) (hsession : t.inner.session = s.inner.session) :
    t.Genuine n bytes := by
  obtain ⟨p, hp, header, hparse, hlocked, hrest⟩ := h
  exact ⟨p, hdecoded p hp, header, hparse, hsession.trans hlocked, hrest⟩

/-- A borrowed range holds the block its number says. -/
theorem Session.InOrder.borrowed (h : s.InOrder start) {b : Block}
    (hb : b ∈ s.inner.outstanding) :
    ∃ bytes, slice s.inner.backing.bytes b.offset b.len = some bytes ∧ s.Genuine b.seq bytes := by
  obtain ⟨streamId, hlast, header, k, bytes, hparse, hkind, hseq, hpayload, hslice⟩ :=
    h.backed.inside b hb
  obtain ⟨hsession, hrange⟩ :=
    h.lender (List.ne_nil_of_mem hb) _ hlast header hparse
  have hk := DownstreamHeader.lt_messageCount_of_payload hpayload
  rw [DownstreamHeader.Fits] at hrange
  rw [wrappingAdd_of_lt (by omega)] at hseq
  refine ⟨bytes, hslice, _, List.mem_of_getLast? hlast, header, hparse, hsession, hkind,
    by omega, ?_⟩
  rw [hseq, Nat.add_sub_cancel_left]
  exact hpayload

/-- Events other than decoding: the ring and the datagrams stay, items move from the
queue to the caller. -/
theorem Session.InOrder.congr (h : s.InOrder start) (hbacked : t.Backed)
    (hdecoded : t.decoded = s.decoded) (hsession : t.inner.session = s.inner.session)
    (hring : t.inner.reassembler = s.inner.reassembler)
    (hanchored : t.inner.seqAnchored = s.inner.seqAnchored)
    (hout : t.inner.outstanding ≠ [] → s.inner.outstanding ≠ [])
    (hready : ∀ item ∈ t.inner.ready, item ∈ s.inner.ready)
    (hhanded : ∀ outcome ∈ t.handed, outcome ∈ s.handed ∨ ∀ n, outcome.number = some n →
      ∃ bytes, outcome.payload = some bytes ∧ s.Genuine n bytes)
    (hdelivered : t.delivered = s.delivered) : t.InOrder start := by
  have hgenuine : ∀ {n bytes}, s.Genuine n bytes → t.Genuine n bytes := fun hg ↦
    hg.mono (fun p hp ↦ hdecoded ▸ hp) hsession
  refine ⟨hbacked, ?_, ?_, ?_, ?_, ?_, ?_, ?_, ?_⟩
  · intro n hn
    exact h.fits n (hring ▸ hn)
  · refine ⟨fun n view hview ↦ ?_, fun n view streamId hmem ↦ ?_⟩
    · obtain ⟨bytes, href, hg⟩ := h.views.ring n view (hring ▸ hview)
      exact ⟨bytes, href, hgenuine hg⟩
    · obtain ⟨bytes, href, hg⟩ := h.views.queue n view streamId (hready _ hmem)
      exact ⟨bytes, href, hgenuine hg⟩
  · intro hne p hp header hparse
    rw [hsession]
    exact h.lender (hout hne) p (hdecoded ▸ hp) header hparse
  · intro outcome hmem n hn
    rcases hhanded outcome hmem with hold | hnew
    · obtain ⟨bytes, hpay, hg⟩ := h.handed outcome hold n hn
      exact ⟨bytes, hpay, hgenuine hg⟩
    · obtain ⟨bytes, hpay, hg⟩ := hnew n hn
      exact ⟨bytes, hpay, hgenuine hg⟩
  · rw [hsession, hanchored]
    exact h.locked
  · rw [hanchored, hdecoded]
    exact h.anchored
  · rw [hdecoded, hdelivered, hring]
    exact h.order
  · rw [hdecoded, hdelivered]
    exact h.blank

theorem outcomes_yieldItem {i i' : Inner F} {item : ReadyItem F}
    {r : Except MoldUdpError (MoldUdpOutcome F)} (h : i.yieldItem item = some (r, i')) :
    handedNumbers (outcomes r) = numbers [item] := by
  cases item with
  | inline =>
      obtain ⟨_, -, hpair⟩ := Option.map_eq_some_iff.mp h
      rw [← (Prod.mk.inj hpair).1]
      rfl
  | view =>
      obtain ⟨_, -, hpair⟩ := Option.map_eq_some_iff.mp h
      rw [← (Prod.mk.inj hpair).1]
      rfl
  | event =>
      rw [← (Prod.mk.inj (Option.some.inj h)).1]
      rfl
  | gap =>
      rw [← (Prod.mk.inj (Option.some.inj h)).1]
      rfl

omit [AsRef F] in
theorem outcomes_yieldOwned (i : Inner F) (item : ReadyItem F) :
    handedNumbers (outcomes (i.yieldOwned item).1) = numbers [item] := by
  cases item <;> rfl

theorem Session.InOrder.retire (h : s.InOrder start) :
    Session.InOrder start { s with inner := s.inner.retireCurrent } := by
  obtain ⟨hsame, -⟩ := (Session.Step.retire (s := s)).sameTracking fun _ h ↦ nomatch h
  obtain ⟨hready, hcurrent⟩ := s.inner.retireCurrent_queue
  refine h.congr h.backed.retire rfl hsame.session hsame.reassembler hsame.seqAnchored ?_ ?_
    (fun _ ho ↦ Or.inl ho) ?_
  · intro hne hnil
    refine hne ?_
    rw [Inner.outstanding, borrows_append, List.append_eq_nil_iff] at hnil
    simp [Inner.outstanding, hcurrent, hready, hnil.2]
  · intro item hitem
    exact hready ▸ hitem
  · simp only [Session.delivered, hready]

/-- Handing out the first item: its payload is genuine, whichever way it is borrowed. -/
theorem Session.InOrder.payload_front (h : s.InOrder start) {item : ReadyItem F}
    {rest : List (ReadyItem F)} (hready : s.inner.ready = item :: rest) :
    (∀ sequence streamId offset len, item = .inline sequence streamId offset len →
      ∃ bytes, slice s.inner.backing.bytes offset len = some bytes ∧
        s.Genuine sequence bytes) ∧
    ∀ view sequence streamId, item = .view view sequence streamId →
      ∃ bytes, view.asRef = some bytes ∧ s.Genuine sequence bytes := by
  constructor
  · rintro sequence streamId offset len rfl
    refine h.borrowed (b := ⟨sequence, offset, len⟩) ?_
    rw [Inner.outstanding, borrows_append, hready, borrows_inline]
    exact List.mem_append_right _ List.mem_cons_self
  · rintro view sequence streamId rfl
    refine h.views.queue sequence view streamId ?_
    rw [hready]
    exact List.mem_cons_self

theorem Session.InOrder.yieldItem (h : s.InOrder start) {item : ReadyItem F}
    {rest : List (ReadyItem F)} {r : Except MoldUdpError (MoldUdpOutcome F)}
    (hready : s.inner.ready = item :: rest) (hbacked : Session.Backed
      { s with
        inner := { s.inner with ready := rest, current := some item }
        handed := s.handed ++ outcomes r })
    (hcurrent : s.inner.current = none)
    (hyield : Inner.yieldItem { s.inner with ready := rest } item =
      some (r, { s.inner with ready := rest, current := some item })) :
    Session.InOrder start
      { s with
        inner := { s.inner with ready := rest, current := some item }
        handed := s.handed ++ outcomes r } := by
  obtain ⟨hinline, hview⟩ := h.payload_front hready
  refine h.congr hbacked rfl rfl rfl rfl ?_ ?_ ?_ ?_
  · simp [Inner.outstanding, hready, hcurrent]
  · intro item' hitem'
    rw [hready]
    exact List.mem_cons_of_mem item hitem'
  · intro outcome hmem
    rcases List.mem_append.mp hmem with hold | hnew
    · exact Or.inl hold
    · right
      clear hmem
      cases item with
      | inline sequence streamId offset len =>
          obtain ⟨bytes, hslice, hg⟩ := hinline sequence streamId offset len rfl
          obtain ⟨bytes', hslice', hpair⟩ := Option.map_eq_some_iff.mp hyield
          obtain rfl : bytes = bytes' := Option.some.inj (hslice.symm.trans hslice')
          rw [← (Prod.mk.inj hpair).1, outcomes, List.mem_singleton] at hnew
          subst hnew
          intro n hn
          obtain rfl : sequence = n := Option.some.inj hn
          exact ⟨bytes, rfl, hg⟩
      | view view sequence streamId =>
          obtain ⟨bytes, href, hg⟩ := hview view sequence streamId rfl
          obtain ⟨bytes', href', hpair⟩ := Option.map_eq_some_iff.mp hyield
          obtain rfl : bytes = bytes' := Option.some.inj (href.symm.trans href')
          rw [← (Prod.mk.inj hpair).1, outcomes, List.mem_singleton] at hnew
          subst hnew
          intro n hn
          obtain rfl : sequence = n := Option.some.inj hn
          exact ⟨bytes, rfl, hg⟩
      | event ev =>
          rw [← (Prod.mk.inj (Option.some.inj hyield)).1, outcomes, List.mem_singleton] at hnew
          subst hnew
          intro n hn
          cases hn
      | gap =>
          rw [← (Prod.mk.inj (Option.some.inj hyield)).1, outcomes] at hnew
          cases hnew
  · simp only [Session.delivered, hready, handedNumbers_append, outcomes_yieldItem hyield]
    rw [List.append_assoc, ← numbers_append]
    rfl

theorem Session.InOrder.yieldOwned (h : s.InOrder start) {item : ReadyItem F}
    {rest : List (ReadyItem F)} (hready : s.inner.ready = item :: rest)
    (hcurrent : s.inner.current = none) :
    Session.InOrder start
      { s with
        inner := (Inner.yieldOwned { s.inner with ready := rest } item).2
        handed := s.handed ++
          outcomes (Inner.yieldOwned { s.inner with ready := rest } item).1 } := by
  obtain ⟨hinline, hview⟩ := h.payload_front hready
  have hfields : (Inner.yieldOwned { s.inner with ready := rest } item).2.session =
        s.inner.session ∧
      (Inner.yieldOwned { s.inner with ready := rest } item).2.reassembler =
        s.inner.reassembler ∧
      (Inner.yieldOwned { s.inner with ready := rest } item).2.seqAnchored =
        s.inner.seqAnchored ∧
      (Inner.yieldOwned { s.inner with ready := rest } item).2.ready = rest ∧
      (Inner.yieldOwned { s.inner with ready := rest } item).2.current = s.inner.current := by
    cases item <;> exact ⟨rfl, rfl, rfl, rfl, rfl⟩
  obtain ⟨hsession, hring, hanchored, hrest, hcur⟩ := hfields
  refine h.congr (h.backed.yieldOwned hready hcurrent) rfl hsession hring hanchored ?_ ?_ ?_ ?_
  · intro hne hnil
    refine hne ?_
    have hsub : borrows rest = [] := by
      have : borrows ([item] ++ rest) = [] := by
        simpa [Inner.outstanding, hready, hcurrent] using hnil
      rw [borrows_append, List.append_eq_nil_iff] at this
      exact this.2
    rw [Inner.outstanding, hcur, hcurrent, hrest]
    exact hsub
  · intro item' hitem'
    rw [hready]
    exact List.mem_cons_of_mem item (hrest ▸ hitem')
  · intro outcome hmem
    rcases List.mem_append.mp hmem with hold | hnew
    · exact Or.inl hold
    · right
      clear hmem
      cases item with
      | inline sequence streamId offset len =>
          obtain ⟨bytes, hslice, hg⟩ := hinline sequence streamId offset len rfl
          obtain rfl : outcome = .owned ⟨s.inner.backing.share.2, offset, len⟩ sequence streamId :=
            List.mem_singleton.mp hnew
          intro n hn
          obtain rfl : sequence = n := Option.some.inj hn
          refine ⟨bytes, ?_, hg⟩
          rw [MoldUdpOutcome.payload, Backing.share_snd]
          exact hslice
      | view view sequence streamId =>
          obtain ⟨bytes, href, hg⟩ := hview view sequence streamId rfl
          obtain rfl : outcome = .owned view sequence streamId := List.mem_singleton.mp hnew
          intro n hn
          obtain rfl : sequence = n := Option.some.inj hn
          exact ⟨bytes, href, hg⟩
      | event ev =>
          obtain rfl : outcome = .event ev := List.mem_singleton.mp hnew
          intro n hn
          cases hn
      | gap => cases hnew
  · simp only [Session.delivered, hready, hrest, handedNumbers_append, outcomes_yieldOwned]
    rw [List.append_assoc, ← numbers_append]
    rfl

omit [AsRef F] in
theorem Inner.Queues.drainConfirmedGaps {P : ℕ → MessageView F → Prop} {i i' : Inner F}
    (h : Inner.Queues P i i') (now : Instant) :
    Inner.Queues P i (i'.drainConfirmedGaps now) := by
  unfold Inner.drainConfirmedGaps
  split
  · exact h
  · refine ⟨h.session, h.seqAnchored, h.le, ?_, h.fits, h.views.ring, ?_⟩
    · dsimp only
      rw [numbers_append, numbers_gaps, List.append_nil]
      exact h.queued
    · intro n view streamId hmem
      rcases List.mem_append.mp hmem with hmem | hmem
      · exact h.views.queue n view streamId hmem
      · obtain ⟨_, -, hgap⟩ := List.mem_map.mp hmem
        cases hgap

/-- Decoding appends the popped datagram; an anchor found before it stays. -/
theorem anchorOf_append {decoded more : List (UInt8 × Held F)} {a : ℕ}
    (h : anchorOf start decoded = some a) : anchorOf start (decoded ++ more) = some a := by
  unfold anchorOf at h ⊢
  cases start with
  | some sequence => exact h
  | none =>
      dsimp only at h ⊢
      rw [List.findSome?_append, h]
      rfl

theorem anchorOf_append_none {decoded more : List (UInt8 × Held F)}
    (h : anchorOf start decoded = none)
    (hmore : ∀ p ∈ more, ∃ e, parseHeader p.2.asRef = .error e) :
    anchorOf start (decoded ++ more) = none := by
  unfold anchorOf at h ⊢
  cases start with
  | some sequence => cases h
  | none =>
      dsimp only at h ⊢
      rw [List.findSome?_append, h, Option.none_or]
      refine List.findSome?_eq_none_iff.mpr fun p hp ↦ ?_
      obtain ⟨e, he⟩ := hmore p hp
      rw [he]

omit [AsRef F] in
theorem borrows_of_numbers_nil {items : List (ReadyItem F)} (h : numbers items = []) :
    borrows items = [] := by
  refine List.filterMap_eq_nil_iff.mpr fun item hitem ↦ ?_
  have hnone := List.filterMap_eq_nil_iff.mp h item hitem
  cases item with
  | inline => cases hnone
  | view => rfl
  | event => rfl
  | gap => rfl

/-- `Processed.ordered` for the decode step with its confirmations. -/
theorem Inner.decodeNext_ordered {P : ℕ → MessageView F → Prop} (i : Inner F) (now : Instant)
    (hready : i.ready = []) (hfits : i.RingFits)
    (hviews : ∀ n view, i.reassembler.lookup n = some view → P n view)
    (hrange : i.HeadFits) (hP : i.HeadHolds P) :
    (numbers (i.decodeNext now).2.ready = [] ∧
      (i.decodeNext now).2.reassembler = i.reassembler ∧
      (i.decodeNext now).2.seqAnchored = i.seqAnchored ∧
      (i.decodeNext now).2.session = i.session ∧ ∀ p ∈ i.pendingDatagrams.head?, ∀ header,
        parseHeader p.2.asRef = .ok header → i.session.isSome) ∨
    ∃ streamId datagram rest header, i.pendingDatagrams = (streamId, datagram) :: rest ∧
      parseHeader datagram.asRef = .ok header ∧
      (i.session = none ∨ i.session = some header.session) ∧
      (header.kind = .data ∨ borrows (i.decodeNext now).2.ready = []) ∧
      Inner.Queues P (i.accepted rest header) (i.decodeNext now).2 := by
  have hordered := (i.processNextPending_processed (i.clock now)).ordered hready hfits hviews
    hrange hP
  unfold decodeNext
  generalize i.processNextPending (i.clock now) = processed at hordered ⊢
  obtain ⟨e | _, i'⟩ := processed
  · rcases hordered with ⟨hnil, hrest⟩ | hqueues
    · exact Or.inl ⟨by rw [hnil, numbers_nil], hrest⟩
    · exact Or.inr hqueues
  · dsimp only at hordered ⊢
    split
    · rcases hordered with ⟨hnil, hring, hanchored, hsession, hsome⟩ |
        ⟨streamId, datagram, rest, header, hpop, hparse, hlocked, hkind, hqueues⟩
      · left
        unfold drainConfirmedGaps
        split
        · exact ⟨by rw [hnil, numbers_nil], hring, hanchored, hsession, hsome⟩
        · refine ⟨?_, hring, hanchored, hsession, hsome⟩
          dsimp only
          rw [numbers_append, numbers_gaps, hnil]
          rfl
      · rw [borrows_drainConfirmedGaps]
        exact Or.inr ⟨streamId, datagram, rest, header, hpop, hparse, hlocked, hkind,
          hqueues.drainConfirmedGaps now⟩
    · rcases hordered with ⟨hnil, hrest⟩ | hqueues
      · exact Or.inl ⟨by rw [hnil, numbers_nil], hrest⟩
      · exact Or.inr hqueues

theorem Session.InOrder.not_strands (h : s.InOrder start) {now : Instant}
    (hready : s.inner.ready = []) (hsteady : s.Steady (.decode now)) :
    ¬ s.inner.Strands now := by
  obtain ⟨hrange, hleg⟩ := hsteady
  refine Inner.not_strands hready fun e he ↦ ?_
  rcases hleg with hone | hfull
  · exact Inner.failsEmpty_of_oneLeg e hone hready h.fits
      fun p hp header hparse _ hkind ↦ hrange p hp header hparse hkind
  · refine Inner.failsEmpty_of_ne_full fun capacity hcapacity ↦ ?_
    exact hfull capacity (by rw [he, hcapacity])

/-- The anchor is where the ring starts once a header is accepted. -/
theorem Session.InOrder.anchor_accepted (h : s.InOrder start) (streamId : UInt8)
    {datagram : Held F} (rest : List (UInt8 × Held F)) {header : DownstreamHeader}
    (hparse : parseHeader datagram.asRef = .ok header) (hready : s.inner.ready = []) :
    ∃ a, anchorOf start (s.decoded ++ [(streamId, datagram)]) = some a ∧
      a ≤ (s.inner.accepted rest header).reassembler.expectedNext ∧
      handedNumbers s.handed = List.range' a
        ((s.inner.accepted rest header).reassembler.expectedNext - a) := by
  have hdelivered : s.delivered = handedNumbers s.handed := by
    simp [Session.delivered, hready]
  have hanchored := h.anchored
  cases hanchor : anchorOf start s.decoded with
  | some a =>
      rw [hanchor] at hanchored
      have hexp : (s.inner.accepted rest header).reassembler.expectedNext =
          s.inner.reassembler.expectedNext := by
        rw [Inner.expectedNext_accepted, hanchored]
        rfl
      rw [hexp, ← hdelivered]
      exact ⟨a, anchorOf_append hanchor, h.order a hanchor⟩
  | none =>
      rw [hanchor] at hanchored
      have hexp : (s.inner.accepted rest header).reassembler.expectedNext = header.sequence := by
        rw [Inner.expectedNext_accepted, hanchored]
        rfl
      rw [hexp, ← hdelivered, h.blank hanchor]
      refine ⟨header.sequence, ?_, le_rfl, by rw [Nat.sub_self]; rfl⟩
      cases start with
      | some sequence => cases hanchor
      | none =>
          dsimp only [anchorOf] at hanchor ⊢
          rw [List.findSome?_append, hanchor]
          simp [hparse]

/-- The view's bytes are genuine for whichever header the next decode step accepts. -/
def Session.GenuineNext (s : Session F) (n : ℕ) (view : MessageView F) : Prop :=
  ∃ bytes, view.asRef = some bytes ∧
    ∀ p ∈ s.inner.pendingDatagrams.head?, ∀ header, parseHeader p.2.asRef = .ok header →
      (s.inner.session = none ∨ s.inner.session = some header.session) →
      GenuineIn (s.decoded ++ s.inner.pendingDatagrams.take 1) (some header.session) n bytes

/-- A step that accepts no header changes the history only. -/
theorem Session.InOrder.decode_nothing (h : s.InOrder start) {i : Inner F}
    (hbacked : Session.Backed
      { s with inner := i, decoded := s.decoded ++ s.inner.pendingDatagrams.take 1 })
    (hready : s.inner.ready = []) (hcurrent : i.current = none) (hnumbers : numbers i.ready = [])
    (hring : i.reassembler = s.inner.reassembler)
    (hanchored : i.seqAnchored = s.inner.seqAnchored) (hsession : i.session = s.inner.session)
    (hsome : ∀ p ∈ s.inner.pendingDatagrams.head?, ∀ header,
      parseHeader p.2.asRef = .ok header → s.inner.session.isSome) :
    Session.InOrder start
      { s with inner := i, decoded := s.decoded ++ s.inner.pendingDatagrams.take 1 } := by
  have hgenuine : ∀ {n bytes}, s.Genuine n bytes → Session.Genuine
      { s with inner := i, decoded := s.decoded ++ s.inner.pendingDatagrams.take 1 } n bytes :=
    fun hg ↦ hg.mono (fun p hp ↦ List.mem_append_left _ hp) hsession
  have hout : i.outstanding = [] := by
    rw [Inner.outstanding, hcurrent]
    exact borrows_of_numbers_nil hnumbers
  have hdelivered : Session.delivered
      { s with inner := i, decoded := s.decoded ++ s.inner.pendingDatagrams.take 1 } =
      s.delivered := by
    simp [Session.delivered, hready, hnumbers]
  have hanchor : anchorOf start (s.decoded ++ s.inner.pendingDatagrams.take 1) =
      anchorOf start s.decoded := by
    cases hold : anchorOf start s.decoded with
    | some a => exact anchorOf_append hold
    | none =>
        refine anchorOf_append_none hold fun p hp ↦ ?_
        rw [List.take_one] at hp
        cases hparse : parseHeader p.2.asRef with
        | error e => exact ⟨e, rfl⟩
        | ok header =>
            have hlocked := h.locked (hsome p (Option.mem_toList.mp hp) header hparse)
            rw [h.anchored, hold] at hlocked
            cases hlocked
  refine ⟨hbacked, ?_, ?_, ?_, ?_, ?_, ?_, ?_, ?_⟩
  · intro n hn
    exact h.fits n (hring ▸ hn)
  · refine Inner.views_of_numbers_nil (fun n view hview ↦ ?_) hnumbers
    obtain ⟨bytes, href, hg⟩ := h.views.ring n view (hring ▸ hview)
    exact ⟨bytes, href, hgenuine hg⟩
  · exact fun hne ↦ (hne hout).elim
  · intro outcome hmem n hn
    obtain ⟨bytes, hpay, hg⟩ := h.handed outcome hmem n hn
    exact ⟨bytes, hpay, hgenuine hg⟩
  · dsimp only
    rw [hsession, hanchored]
    exact h.locked
  · dsimp only
    rw [hanchored, hanchor]
    exact h.anchored
  · rw [hdelivered]
    dsimp only
    rw [hanchor, hring]
    exact h.order
  · rw [hdelivered]
    dsimp only
    rw [hanchor]
    exact h.blank

/-- A step that accepts a header queues what comes next after everything delivered. -/
theorem Session.InOrder.decode_accepted (h : s.InOrder start) {i : Inner F}
    (hbacked : Session.Backed
      { s with inner := i, decoded := s.decoded ++ s.inner.pendingDatagrams.take 1 })
    (hready : s.inner.ready = [])
    (hrange : ∀ p ∈ s.inner.pendingDatagrams.head?, ∀ header,
      parseHeader p.2.asRef = .ok header → header.kind = .data → header.Fits)
    {streamId : UInt8} {datagram : Held F} {rest : List (UInt8 × Held F)}
    {header : DownstreamHeader} (hpop : s.inner.pendingDatagrams = (streamId, datagram) :: rest)
    (hparse : parseHeader datagram.asRef = .ok header)
    (hlocked : s.inner.session = none ∨ s.inner.session = some header.session)
    (hcurrent : i.current = none) (hkind : header.kind = .data ∨ borrows i.ready = [])
    (hqueues : Inner.Queues s.GenuineNext (s.inner.accepted rest header) i) :
    Session.InOrder start
      { s with inner := i, decoded := s.decoded ++ s.inner.pendingDatagrams.take 1 } := by
  obtain ⟨hsession₁, hanchored₁⟩ := s.inner.accepted_session rest header
  have hsession : i.session = some header.session := hqueues.session.trans hsession₁
  have hhead : (streamId, datagram) ∈ s.inner.pendingDatagrams.head? := by
    rw [hpop]
    rfl
  have htake : s.inner.pendingDatagrams.take 1 = [(streamId, datagram)] := by
    rw [hpop]
    rfl
  obtain ⟨a, hanchor, hle, hnumbers⟩ :=
    h.anchor_accepted streamId rest hparse hready
  have hle' := hqueues.le
  refine ⟨hbacked, hqueues.fits, ?_, ?_, ?_, ?_, ?_, ?_, ?_⟩
  · refine hqueues.views.mono ?_
    rintro n view ⟨bytes, href, hg⟩
    refine ⟨bytes, href, ?_⟩
    unfold Session.Genuine
    dsimp only
    rw [hsession]
    exact hg _ hhead header hparse hlocked
  · intro hne p hp header' hparse'
    dsimp only at hne hp ⊢
    rw [htake, List.getLast?_concat, Option.mem_some_iff] at hp
    subst hp
    obtain rfl : header = header' := Except.ok.inj (hparse.symm.trans hparse')
    refine ⟨hsession, hrange _ hhead header hparse (hkind.resolve_right fun hnil ↦ hne ?_)⟩
    rw [Inner.outstanding, hcurrent]
    exact hnil
  · intro outcome hmem n hn
    obtain ⟨bytes, hpay, q, hq, header', hparse', hsome, hblock⟩ := h.handed outcome hmem n hn
    refine ⟨bytes, hpay, q, List.mem_append_left _ hq, header', hparse', ?_, hblock⟩
    rcases hlocked with hnone | hsame
    · rw [hnone] at hsome
      cases hsome
    · exact hsession.trans (hsame.symm.trans hsome)
  · exact fun _ ↦ hqueues.seqAnchored.trans hanchored₁
  · dsimp only
    rw [htake, hanchor]
    exact hqueues.seqAnchored.trans hanchored₁
  · intro a' ha'
    dsimp only at ha' ⊢
    rw [htake, hanchor] at ha'
    obtain rfl : a = a' := Option.some.inj ha'
    refine ⟨hle.trans hle', ?_⟩
    change handedNumbers s.handed ++ numbers i.ready = _
    rw [hnumbers, hqueues.queued]
    have hsplit : i.reassembler.expectedNext - a =
        ((s.inner.accepted rest header).reassembler.expectedNext - a) +
        (i.reassembler.expectedNext -
          (s.inner.accepted rest header).reassembler.expectedNext) := by omega
    have hmid : a + ((s.inner.accepted rest header).reassembler.expectedNext - a) =
        (s.inner.accepted rest header).reassembler.expectedNext := by omega
    rw [hsplit, ← List.range'_append_1, hmid]
  · intro hnone
    dsimp only at hnone
    rw [htake, hanchor] at hnone
    cases hnone

theorem Session.InOrder.decode (h : s.InOrder start) {now : Instant}
    (hready : s.inner.ready = []) (hcurrent : s.inner.current = none)
    (hsteady : s.Steady (.decode now)) :
    Session.InOrder start
      { s with
        inner := (s.inner.decodeNext now).2
        decoded := s.decoded ++ s.inner.pendingDatagrams.take 1 } := by
  have hbacked := h.backed.decode hready hcurrent (h.not_strands hready hsteady)
  have hcurrent' : (s.inner.decodeNext now).2.current = none :=
    (s.inner.current_decodeNext now).trans hcurrent
  obtain ⟨hrange, -⟩ := hsteady
  have hold : ∀ n view, s.inner.reassembler.lookup n = some view → s.GenuineNext n view := by
    intro n view hview
    obtain ⟨bytes, href, q, hq, header', hparse', hsession, hblock⟩ :=
      h.views.ring n view hview
    refine ⟨bytes, href, fun p hp header hparse hlocked ↦ ?_⟩
    rcases hlocked with hnone | hsame
    · rw [hnone] at hsession
      cases hsession
    · exact ⟨q, List.mem_append_left _ hq, header', hparse', hsame.symm.trans hsession, hblock⟩
  have hnew : ∀ p ∈ s.inner.pendingDatagrams.head?, ∀ header,
      parseHeader p.2.asRef = .ok header →
      (s.inner.session = none ∨ s.inner.session = some header.session) → header.kind = .data →
      ∀ k bytes offset len, header.payload p.2.asRef k = some bytes →
        slice p.2.asRef offset len = some bytes →
        s.GenuineNext (header.sequence + k) ⟨p.2, offset, len⟩ := by
    intro p hp header hparse _ hkind k bytes offset len hpayload hslice
    refine ⟨bytes, hslice, fun q hq header' hparse' _ ↦ ?_⟩
    obtain rfl : p = q := Option.some.inj (hp.symm.trans hq)
    obtain rfl : header = header' := Except.ok.inj (hparse.symm.trans hparse')
    refine ⟨p, List.mem_append_right _ ?_, header, hparse, rfl, hkind, Nat.le_add_right _ _, ?_⟩
    · obtain ⟨rest, hrest⟩ := List.head?_eq_some_iff.mp hp
      rw [hrest]
      exact List.mem_cons_self
    · rw [Nat.add_sub_cancel_left]
      exact hpayload
  rcases s.inner.decodeNext_ordered now hready h.fits hold
      (fun p hp header hparse _ hkind ↦ hrange p hp header hparse hkind) hnew with
    ⟨hnumbers, hring, hanchored, hsession, hsome⟩ |
    ⟨streamId, datagram, rest, header, hpop, hparse, hlocked, hkind, hqueues⟩
  · exact h.decode_nothing hbacked hready hcurrent' hnumbers hring hanchored hsession hsome
  · exact h.decode_accepted hbacked hready hrange hpop hparse hlocked hcurrent' hkind hqueues

theorem Session.inOrder_start {cfg : MoldUdpReceiverConfig} {legs : List Leg} {inner : Inner F}
    (hnew : fromLegs cfg legs = .ok inner) :
    (Session.start inner).InOrder cfg.startSequence := by
  have hbacked := Session.backed_start hnew
  obtain rfl := fromLegs_ok hnew
  have hring := @lookup_fresh F cfg legs
  refine ⟨hbacked, ?_, ?_, ?_, ?_, ?_, ?_, ?_, ?_⟩
  · intro n hn
    change ((Inner.fresh cfg legs : Inner F).reassembler.lookup n).isSome at hn
    rw [hring] at hn
    cases hn
  · refine Inner.views_of_numbers_nil (fun n view hview ↦ ?_) rfl
    rw [show (Session.start (Inner.fresh cfg legs : Inner F)).inner.reassembler.lookup n = none
      from hring n] at hview
    cases hview
  · exact fun hne ↦ (hne rfl).elim
  · intro outcome hmem
    cases hmem
  · intro hsome
    cases hsome
  · change cfg.startSequence.isSome = _
    cases hstart : cfg.startSequence <;> simp [anchorOf, Session.start]
  · intro a ha
    have hexp : (Inner.fresh cfg legs : Inner F).reassembler.expectedNext = a := by
      cases hstart : cfg.startSequence with
      | none => rw [hstart] at ha; cases ha
      | some sequence =>
          rw [hstart] at ha
          exact (expectedNext_fresh cfg legs hstart).trans (Option.some.inj ha)
    change a ≤ (Inner.fresh cfg legs : Inner F).reassembler.expectedNext ∧
      [] = List.range' a ((Inner.fresh cfg legs : Inner F).reassembler.expectedNext - a)
    rw [hexp, Nat.sub_self]
    exact ⟨le_rfl, rfl⟩
  · exact fun _ ↦ rfl

theorem Session.InOrder.next {e : Event F} (h : s.InOrder start) (hsteady : s.Steady e)
    (hstep : s.next e = some t) : t.InOrder start := by
  have hbacked : t.Backed := by
    refine h.backed.next ?_ hstep
    cases Session.step_of_next hstep with
    | decode now hready hcurrent => exact h.not_strands hready hsteady
    | _ => trivial
  cases Session.step_of_next hstep with
  | retire => exact h.retire
  | land datagrams batch =>
      exact h.congr hbacked rfl rfl rfl rfl id (fun _ hi ↦ hi) (fun _ ho ↦ Or.inl ho) rfl
  | decode now hready hcurrent => exact h.decode hready hcurrent hsteady
  | yieldItem item rest r hready hcurrent hyield =>
      exact h.yieldItem hready hbacked hcurrent hyield
  | yieldOwned item rest hready hcurrent => exact h.yieldOwned hready hcurrent

/-- In-order exactly-once delivery.  In every state a run reaches, the numbers handed out
followed by the numbers queued are consecutive from the anchor up to `expected_next`, and
each payload handed out is the block of that number in a decoded datagram of the locked
session. -/
theorem delivered_exactly_once {cfg : MoldUdpReceiverConfig} {legs : List Leg} {inner : Inner F}
    {s : Session F} (hnew : fromLegs cfg legs = .ok inner)
    (hrun : (machine F).Run Session.Orderly (Session.start inner) s) :
    (∀ a, anchorOf cfg.startSequence s.decoded = some a →
      a ≤ s.inner.reassembler.expectedNext ∧
      handedNumbers s.handed ++ numbers s.inner.ready =
        List.range' a (s.inner.reassembler.expectedNext - a)) ∧
    (anchorOf cfg.startSequence s.decoded = none →
      handedNumbers s.handed ++ numbers s.inner.ready = []) ∧
    ∀ outcome ∈ s.handed, ∀ n, outcome.number = some n →
      ∃ bytes, outcome.payload = some bytes ∧ ∃ p ∈ s.decoded, ∃ header,
        parseHeader p.2.asRef = .ok header ∧ s.inner.session = some header.session ∧
        header.kind = .data ∧ header.sequence ≤ n ∧
        header.payload p.2.asRef (n - header.sequence) = some bytes := by
  have h : s.InOrder cfg.startSequence := hrun.invariant (Session.inOrder_start hnew)
    fun _ _ _ hinv horderly hstep ↦ hinv.next horderly.steady hstep
  exact ⟨h.order, h.blank, h.handed⟩

end

/-- 2 arrives before 1: the first call reports the gap, the next two hand out 1 and 2. -/
def sampleReordered : List (Event (List UInt8)) :=
  [.land [(0, .frame (moldPacket sampleSession 2 [8, 9])),
      (0, .frame (moldPacket sampleSession 1 [7]))] [],
    .decode 0, .yieldItem, .retire, .decode 0, .yieldItem, .retire, .yieldOwned]

theorem delivered_exactly_once_reordered :
    ∃ s : Session (List UInt8),
      Machine.follow Session.next (Session.start sampleOneLeg) sampleReordered = some s ∧
      handedNumbers s.handed ++ numbers s.inner.ready =
        List.range' 1 (s.inner.reassembler.expectedNext - 1) := by
  have hsome : (Machine.follow Session.next (Session.start sampleOneLeg)
      sampleReordered).isSome := by decide +kernel
  obtain ⟨s, hs⟩ := Option.isSome_iff_exists.mp hsome
  have hallowed : Machine.AllowedAlong Session.next Session.Orderly (Session.start sampleOneLeg)
      sampleReordered := by decide +kernel
  have hrun := Machine.Run.of_follow hallowed hs
  obtain ⟨horder, -, -⟩ := @delivered_exactly_once _ _ { startSequence := some 1 }
    [⟨minLegPoolCapacity⟩] _ _ rfl hrun
  exact ⟨s, hs, (horder 1 rfl).2⟩

end MoldUdp
