import PolarisTrade.MoldUdp.Window

/-!
# Complete delivery

Datagrams of one stream, in any order and on any leg, each block of them inside the
reorder window when it is decoded: no decode step fails, and once every number up to the
last one has occurred the delivered stream is the whole stream.
-/

namespace MoldUdp

open Transport Word

variable {F : Type} [AsRef F]

/-- The blocks of a data datagram: whole, numbers up to `top`, payloads those of the
stream `m`, and every block inside the window when its turn comes. -/
def Inner.FeedsBlocks (i : Inner F) (m : ℕ → List UInt8) (top : ℕ) (now : Instant)
    (streamId : UInt8) (datagram : Held F) (header : DownstreamHeader) : Prop :=
  let numbered := numberBlocks header.sequence (header.blocks datagram.asRef)
  numbered.2 = .ok () ∧ header.sequence + header.messageCount ≤ top + 1 ∧
    (∀ b ∈ numbered.1, slice datagram.asRef b.offset b.len = some (m b.seq)) ∧
    Decoding.InWindow streamId (i.clock now) numbered.1
      (enterLoop { i.accepted i.pendingDatagrams.tail header with blocks := numbered.1 } header
        datagram (i.clock now))

/-- The next datagram, if any, belongs to `session` and is a control packet or a piece of
the stream `m`, which ends at `top`. -/
def Inner.Feeds (i : Inner F) (session : SessionId) (m : ℕ → List UInt8) (top : ℕ)
    (now : Instant) : Prop :=
  ∀ p ∈ i.pendingDatagrams.head?, ∃ header, parseHeader p.2.asRef = .ok header ∧
    header.session = session ∧
    (header.kind = .data → i.FeedsBlocks m top now p.1 p.2 header)

def Session.Feeds (session : SessionId) (m : ℕ → List UInt8) (top : ℕ) (s : Session F) :
    Event F → Prop
  | .decode now => s.inner.Feeds session m top now
  | _ => True

instance (i : Inner F) (m : ℕ → List UInt8) (top : ℕ) (now : Instant) (streamId : UInt8)
    (datagram : Held F) (header : DownstreamHeader) :
    Decidable (i.FeedsBlocks m top now streamId datagram header) :=
  inferInstanceAs (Decidable (_ ∧ _ ∧ _ ∧ _))

instance (session : SessionId) (m : ℕ → List UInt8) (top : ℕ) (s : Session F) :
    ∀ e, Decidable (s.Feeds session m top e)
  | .decode _ => inferInstanceAs (Decidable (∀ p ∈ s.inner.pendingDatagrams.head?, _))
  | .retire => .isTrue trivial
  | .land .. => .isTrue trivial
  | .yieldItem => .isTrue trivial
  | .yieldOwned => .isTrue trivial

/-- Number `n` occurs in one of these datagrams. -/
def Occurs (decoded : List (UInt8 × Held F)) (n : ℕ) : Prop :=
  ∃ p ∈ decoded, ∃ header, parseHeader p.2.asRef = .ok header ∧ header.kind = .data ∧
    header.sequence ≤ n ∧ n < header.sequence + header.messageCount

instance (decoded : List (UInt8 × Held F)) (n : ℕ) : Decidable (Occurs decoded n) :=
  inferInstanceAs (Decidable (∃ p ∈ decoded, _))

theorem occurs_append {xs ys : List (UInt8 × Held F)} {n : ℕ} :
    Occurs (xs ++ ys) n ↔ Occurs xs n ∨ Occurs ys n := by
  unfold Occurs
  constructor
  · rintro ⟨p, hp, hrest⟩
    rcases List.mem_append.mp hp with hp | hp
    · exact Or.inl ⟨p, hp, hrest⟩
    · exact Or.inr ⟨p, hp, hrest⟩
  · rintro (⟨p, hp, hrest⟩ | ⟨p, hp, hrest⟩)
    · exact ⟨p, List.mem_append_left _ hp, hrest⟩
    · exact ⟨p, List.mem_append_right _ hp, hrest⟩

theorem occurs_singleton {streamId : UInt8} {datagram : Held F} {header : DownstreamHeader}
    (hparse : parseHeader datagram.asRef = .ok header) {n : ℕ} :
    Occurs [(streamId, datagram)] n ↔
      header.kind = .data ∧ header.sequence ≤ n ∧ n < header.sequence + header.messageCount := by
  constructor
  · rintro ⟨p, hp, header', hparse', hrest⟩
    obtain rfl : p = (streamId, datagram) := List.mem_singleton.mp hp
    obtain rfl : header = header' := Except.ok.inj (hparse.symm.trans hparse')
    exact hrest
  · exact fun h ↦ ⟨_, List.mem_singleton.mpr rfl, header, hparse, h⟩

namespace Inner

variable {i i' : Inner F} {session : SessionId} {m : ℕ → List UInt8} {top : ℕ} {now : Instant}

omit [AsRef F] in
theorem Windowed.noteTailGap (h : i.Windowed) (nextExpected : ℕ) :
    (i.noteTailGap nextExpected).Windowed := by
  refine h.of_eq (i.reassembler_noteTailGap nextExpected) ?_
  unfold Inner.noteTailGap
  split <;> rfl

/-- A data datagram of the stream is decoded to its end, and afterwards the receiver has
its numbers besides what it had. -/
theorem Windowed.decodeData (h : i.Windowed) {streamId : UInt8} {datagram : Held F}
    {header : DownstreamHeader} {now : Option Instant} {blocks : List Block}
    (hparse : parseHeader datagram.asRef = .ok header) (hfits : header.Fits)
    (hnumber : numberBlocks header.sequence (header.blocks datagram.asRef) = (blocks, .ok ()))
    (hwindow : Decoding.InWindow streamId now blocks
      (enterLoop { i with blocks := blocks } header datagram now))
    (hnow : i.arbiter.isSome → now.isSome) :
    (i.decodeData streamId datagram header now).1 = .ok () ∧
      (i.decodeData streamId datagram header now).2.Windowed ∧
      ∀ n, (i.decodeData streamId datagram header now).2.Has n ↔ i.Has n ∨
        (header.sequence ≤ n ∧ n < header.sequence + header.messageCount) := by
  set d₀ := enterLoop { i with blocks := blocks } header datagram now with hd₀
  have hblocks : ({ i with blocks := blocks } : Inner F).Windowed := h.of_eq rfl rfl
  have hwindowed₀ : d₀.inner.Windowed := (hblocks.noteJump header.sequence now).of_eq rfl rfl
  have hring₀ : d₀.inner.reassembler = i.reassembler := reassembler_noteJump _ _ _
  have hnow₀ : d₀.inner.arbiter.isSome → now.isSome := by
    intro hsome
    refine hnow ?_
    rw [← isSome_arbiter_noteJump { i with blocks := blocks } header.sequence now]
    exact hsome
  obtain ⟨-, hfit⟩ := numberedFrom_blocks hparse hfits hnumber
  obtain ⟨hok, hwindowed, hhas⟩ :=
    Decoding.decodeBlocks_windowed hwindowed₀ hwindow hfit hnow₀
  rcases i.decodeData_cases streamId datagram header now with
    ⟨blocks', e, hnumber', -⟩ | ⟨blocks', hnumber', hloop⟩
  · rw [hnumber] at hnumber'
    cases hnumber'
  obtain rfl : blocks = blocks' := (Prod.mk.inj (hnumber.symm.trans hnumber')).1
  rw [← hd₀] at hloop
  rcases hloop with ⟨e, d, hloop, -⟩ | ⟨d, hloop, hdecode⟩
  · rw [hloop] at hok
    cases hok
  · rw [hloop] at hwindowed hhas
    have hinstall : d.install.reassembler = d.inner.reassembler ∧
        d.install.arbiter = d.inner.arbiter := by
      unfold Decoding.install
      split <;> exact ⟨rfl, rfl⟩
    rw [hdecode]
    refine ⟨rfl, hwindowed.of_eq hinstall.1 hinstall.2, fun n ↦ ?_⟩
    rw [has_congr hinstall.1, hhas, has_congr hring₀, exists_block_iff hparse hfits hnumber]

theorem Processed.windowed {r : Except MoldUdpError Unit}
    (h : i.Processed (i.clock now) r i') (hwindowed : i.Windowed)
    (hanchored : i.seqAnchored = true) (hlocked : ∀ locked ∈ i.session, locked = session)
    (hfeeds : i.Feeds session m top now) (htop : top + 65536 < 2 ^ 64) :
    r = .ok () ∧ i'.Windowed ∧
      ∀ n, i'.Has n ↔ i.Has n ∨ Occurs (i.pendingDatagrams.take 1) n := by
  have hkept : ∀ rest header, (i.accepted rest header).Windowed ∧
      ∀ n, (i.accepted rest header).Has n ↔ i.Has n := by
    intro rest header
    rw [accepted_of_anchored hanchored]
    exact ⟨hwindowed.of_eq rfl rfl, fun _ ↦ Iff.rfl⟩
  cases h with
  | idle hpop =>
      refine ⟨rfl, hwindowed, fun n ↦ ?_⟩
      rw [hpop]
      simp [Occurs]
  | unparsed e hpop hparse =>
      obtain ⟨header, hparse', -⟩ := hfeeds _ (by rw [hpop]; rfl)
      rw [hparse] at hparse'
      cases hparse'
  | mismatch expected hpop hparse hsession hne =>
      obtain ⟨header, hparse', hsame, -⟩ := hfeeds _ (by rw [hpop]; rfl)
      cases hparse.symm.trans hparse'
      exact (hne ((hlocked expected hsession).trans hsame.symm)).elim
  | @control streamId datagram rest header ev hpop hparse hsession hkind =>
      obtain ⟨hwindowed₁, hhas₁⟩ := hkept rest header
      refine ⟨rfl, ?_, fun n ↦ ?_⟩
      · exact (hwindowed₁.noteTailGap header.sequence).of_eq rfl rfl
      · rw [hpop, List.take_succ_cons, List.take_zero, occurs_singleton hparse]
        refine ((has_congr (reassembler_noteTailGap _ header.sequence) n).trans (hhas₁ n)).trans ?_
        exact ⟨Or.inl, fun hn ↦ hn.resolve_right fun hdata ↦ hkind hdata.1⟩
  | @data streamId datagram rest header hpop hparse hsession hkind =>
      obtain ⟨header', hparse', -, hblocks⟩ := hfeeds _ (by rw [hpop]; rfl)
      cases hparse.symm.trans hparse'
      obtain ⟨hok, hle, -, hwindow⟩ := hblocks hkind
      rw [hpop, List.tail_cons] at hwindow
      obtain ⟨hwindowed₁, hhas₁⟩ := hkept rest header
      have hfits : header.Fits := by
        rw [DownstreamHeader.Fits]
        omega
      have hnow : (i.accepted rest header).arbiter.isSome → (i.clock now).isSome := by
        rw [isSome_clock, isSome_arbiter_accepted]
        exact id
      obtain ⟨hdone, hwindowed', hhas⟩ := hwindowed₁.decodeData hparse hfits
        (Prod.ext rfl hok) hwindow hnow
      refine ⟨hdone, hwindowed', fun n ↦ ?_⟩
      rw [hpop, List.take_succ_cons, List.take_zero, occurs_singleton hparse, hhas, hhas₁]
      simp only [hkind, true_and]

theorem decodeNext_windowed (hwindowed : i.Windowed) (hanchored : i.seqAnchored = true)
    (hlocked : ∀ locked ∈ i.session, locked = session) (hfeeds : i.Feeds session m top now)
    (htop : top + 65536 < 2 ^ 64) :
    (i.decodeNext now).1 = .ok () ∧ (i.decodeNext now).2.Windowed ∧
      ∀ n, (i.decodeNext now).2.Has n ↔ i.Has n ∨ Occurs (i.pendingDatagrams.take 1) n := by
  obtain ⟨hok, hwindowed', hhas⟩ := (i.processNextPending_processed (i.clock now)).windowed
    hwindowed hanchored hlocked hfeeds htop
  unfold decodeNext
  generalize i.processNextPending (i.clock now) = processed at hok hwindowed' hhas ⊢
  obtain ⟨_ | _, i₁⟩ := processed
  · cases hok
  · dsimp only at hwindowed' hhas ⊢
    split
    · have hring : (i₁.drainConfirmedGaps now).reassembler = i₁.reassembler := by
        unfold drainConfirmedGaps
        split <;> rfl
      exact ⟨rfl, hwindowed'.drainConfirmedGaps now,
        fun n ↦ (has_congr hring n).trans (hhas n)⟩
    · exact ⟨rfl, hwindowed', hhas⟩

end Inner

/-! ## Whole runs -/

variable {session : SessionId} {m : ℕ → List UInt8} {top : ℕ} {start : UInt64} {s t : Session F}

/-- Every number and payload in a decoded datagram is one of the stream's. -/
def PartOf (session : SessionId) (m : ℕ → List UInt8) (top : ℕ) (p : UInt8 × Held F) : Prop :=
  ∀ header, parseHeader p.2.asRef = .ok header → header.session = session ∧
    (header.kind = .data → header.sequence + header.messageCount ≤ top + 1 ∧
      ∀ k bytes, header.payload p.2.asRef k = some bytes → bytes = m (header.sequence + k))

/-- Along a run that is fed one stream from `start` on, the receiver has the numbers below
`start` and those that occurred, and no others. -/
structure Session.Fed (session : SessionId) (m : ℕ → List UInt8) (top : ℕ) (start : UInt64)
    (s : Session F) : Prop where
  ordered : s.InOrder (some start)
  windowed : s.inner.Windowed
  locked : ∀ locked ∈ s.inner.session, locked = session
  has : ∀ n, s.inner.Has n ↔ n < start.toNat ∨ Occurs s.decoded n
  part : ∀ p ∈ s.decoded, PartOf session m top p

/-- A whole block carries the payload of its number. -/
theorem Inner.FeedsBlocks.payload_eq {i : Inner F} {now : Instant} {streamId : UInt8}
    {datagram : Held F} {header : DownstreamHeader}
    (h : i.FeedsBlocks m top now streamId datagram header)
    (hparse : parseHeader datagram.asRef = .ok header) (htop : top + 65536 < 2 ^ 64)
    {k : ℕ} {bytes : List UInt8} (hpayload : header.payload datagram.asRef k = some bytes) :
    bytes = m (header.sequence + k) := by
  obtain ⟨hok, hle, hslice, -⟩ := h
  have hfits : header.Fits := by
    rw [DownstreamHeader.Fits]
    omega
  have hnumber : numberBlocks header.sequence (header.blocks datagram.asRef) =
      ((numberBlocks header.sequence (header.blocks datagram.asRef)).1, .ok ()) :=
    Prod.ext rfl hok
  obtain ⟨hnum, -⟩ := numberedFrom_blocks hparse hfits hnumber
  obtain ⟨-, hlen, hget⟩ := numberBlocks_ok (parseHeader_sequence_lt hparse) hnumber
  have hk : k < (header.blocks datagram.asRef).length := by
    by_contra hge
    rw [DownstreamHeader.payload, List.getElem?_eq_none (Nat.le_of_not_lt hge)] at hpayload
    cases hpayload
  have hblock := List.getElem?_eq_getElem (hlen ▸ hk)
  have hmem := List.mem_of_getElem? hblock
  have hseq := Decoding.NumberedFrom.getElem? hnum hblock
  obtain ⟨-, bytes', hpayload', hslice'⟩ := (numberBlocks_blocks hparse hnumber).2 k _ hblock
  have hm := hslice _ hmem
  rw [hslice', hseq] at hm
  rw [hpayload] at hpayload'
  exact (Option.some.inj hpayload').trans (Option.some.inj hm)

theorem Inner.Feeds.partOf {i : Inner F} {now : Instant} (h : i.Feeds session m top now)
    (htop : top + 65536 < 2 ^ 64) {p : UInt8 × Held F} (hp : p ∈ i.pendingDatagrams.take 1) :
    PartOf session m top p := by
  rw [List.take_one] at hp
  obtain ⟨header, hparse, hsession, hblocks⟩ := h p (Option.mem_toList.mp hp)
  intro header' hparse'
  cases hparse.symm.trans hparse'
  refine ⟨hsession, fun hkind ↦ ⟨(hblocks hkind).2.1, fun k bytes hpayload ↦ ?_⟩⟩
  exact (hblocks hkind).payload_eq hparse htop hpayload

theorem Session.Fed.seqAnchored (h : s.Fed session m top start) : s.inner.seqAnchored = true :=
  h.ordered.anchored

/-- No decode step of such a run fails. -/
theorem Session.Fed.decodeNext_ok (h : s.Fed session m top start) (htop : top + 65536 < 2 ^ 64)
    {now : Instant} (hfeeds : s.inner.Feeds session m top now) :
    (s.inner.decodeNext now).1 = .ok () :=
  (Inner.decodeNext_windowed h.windowed h.seqAnchored h.locked hfeeds htop).1

theorem Session.Fed.steady (h : s.Fed session m top start) (htop : top + 65536 < 2 ^ 64)
    {e : Event F} (hfeeds : s.Feeds session m top e) : s.Steady e := by
  cases e with
  | decode now =>
      refine ⟨fun p hp header hparse hkind ↦ ?_, Or.inr fun capacity hfull ↦ ?_⟩
      · obtain ⟨header', hparse', -, hblocks⟩ := hfeeds p hp
        cases hparse.symm.trans hparse'
        have hle := (hblocks hkind).2.1
        rw [DownstreamHeader.Fits]
        omega
      · rw [h.decodeNext_ok htop hfeeds] at hfull
        cases hfull
  | _ => trivial

/-- The session a decode step leaves is the old one or that of the datagram. -/
theorem Session.Fed.locked_decodeNext (h : s.Fed session m top start)
    (htop : top + 65536 < 2 ^ 64) {now : Instant} (hready : s.inner.ready = [])
    (hfeeds : s.inner.Feeds session m top now) :
    ∀ locked ∈ (s.inner.decodeNext now).2.session, locked = session := by
  have hsteady := h.steady htop (e := .decode now) hfeeds
  rcases s.inner.decodeNext_ordered (P := fun _ _ ↦ True) now hready h.ordered.fits
      (fun _ _ _ ↦ trivial) (fun p hp header hparse _ hkind ↦ hsteady.1 p hp header hparse hkind)
      (fun _ _ _ _ _ _ _ _ _ _ _ _ ↦ trivial) with
    ⟨-, -, -, hsession, -⟩ | ⟨streamId, datagram, rest, header, hpop, hparse, -, -, hqueues⟩
  · rw [hsession]
    exact h.locked
  · obtain ⟨header', hparse', hsame, -⟩ := hfeeds _ (by rw [hpop]; rfl)
    cases hparse.symm.trans hparse'
    rw [hqueues.session, (s.inner.accepted_session rest header).1]
    intro locked hmem
    exact (Option.some.inj hmem).symm.trans hsame

theorem Session.Fed.next {e : Event F} (h : s.Fed session m top start)
    (htop : top + 65536 < 2 ^ 64) (hfeeds : s.Feeds session m top e)
    (hstep : s.next e = some t) : t.Fed session m top start := by
  have hordered := h.ordered.next (h.steady htop hfeeds) hstep
  have hstep' := Session.step_of_next hstep
  by_cases hdecode : ∀ now, e ≠ .decode now
  · obtain ⟨hsame, hdecoded⟩ := hstep'.sameTracking hdecode
    refine ⟨hordered, h.windowed.of_eq hsame.reassembler hsame.arbiter, ?_, fun n ↦ ?_, ?_⟩
    · rw [hsame.session]
      exact h.locked
    · rw [Inner.has_congr hsame.reassembler, hdecoded]
      exact h.has n
    · rw [hdecoded]
      exact h.part
  · cases hstep' with
    | decode now hready hcurrent =>
        obtain ⟨-, hwindowed, hhas⟩ :=
          Inner.decodeNext_windowed h.windowed h.seqAnchored h.locked hfeeds htop
        refine ⟨hordered, hwindowed, h.locked_decodeNext htop hready hfeeds, fun n ↦ ?_, ?_⟩
        · exact (hhas n).trans ((or_congr_left (h.has n)).trans
            (or_assoc.trans (or_congr_right occurs_append.symm)))
        · intro p hp
          rcases List.mem_append.mp hp with hp | hp
          · exact h.part p hp
          · exact hfeeds.partOf htop hp
    | _ => exact (hdecode fun now ↦ by simp).elim

theorem Session.fed_start {cfg : MoldUdpReceiverConfig} {legs : List Leg} {inner : Inner F}
    (hnew : fromLegs cfg legs = .ok inner) (hstart : cfg.startSequence = some start) :
    (Session.start inner).Fed session m top start := by
  have hordered := Session.inOrder_start hnew
  rw [hstart] at hordered
  obtain rfl := fromLegs_ok hnew
  have hexp := @expectedNext_fresh F cfg legs _ hstart
  have hempty : ∀ n, ¬ ((Inner.fresh cfg legs : Inner F).reassembler.lookup n).isSome := by
    intro n
    simp [lookup_fresh]
  have hhas : ∀ n, (Inner.fresh cfg legs : Inner F).Has n ↔ n < start.toNat := by
    intro n
    simp [Inner.Has, hexp, lookup_fresh]
  refine ⟨hordered, ⟨⟨⟨wellPlaced_fresh cfg legs, fun n hn ↦ (hempty n hn).elim, hordered.fits⟩,
    capacity_fresh cfg legs, fun n hn ↦ (hempty n hn).elim⟩, fun a ha ↦ ?_⟩, ?_, fun n ↦ ?_, ?_⟩
  · obtain ⟨hlen, hbase, hseen, -⟩ := arbiter_fresh cfg legs ha
    rw [hstart] at hbase
    have hbase : a.windowBase = start.toNat := hbase
    refine ⟨hlen, (hbase.trans hexp.symm).le, fun n hn ↦ iff_of_false (hseen n) fun hn' ↦ ?_⟩
    have := (hhas n).mp hn'
    omega
  · intro locked hlocked
    cases hlocked
  · refine (hhas n).trans ?_
    simp [Session.start, Occurs]
  · intro p hp
    cases hp

/-! ## Draining -/

theorem Session.InOrder.yieldItem_isSome {start : Option UInt64} (h : s.InOrder start)
    {item : ReadyItem F} {rest : List (ReadyItem F)} (hready : s.inner.ready = item :: rest) :
    (Inner.yieldItem { s.inner with ready := rest } item).isSome := by
  obtain ⟨hinline, hview⟩ := h.payload_front hready
  cases item with
  | inline sequence streamId offset len =>
      obtain ⟨bytes, hslice, -⟩ := hinline sequence streamId offset len rfl
      simp [Inner.yieldItem, hslice]
  | view view sequence streamId =>
      obtain ⟨bytes, href, -⟩ := hview view sequence streamId rfl
      simp [Inner.yieldItem, href]
  | event ev => rfl
  | gap => rfl

/-- Polling on hands out everything queued; no slice on the way is out of range. -/
theorem Session.InOrder.drains {start : Option UInt64} {allowed : Session F → Event F → Prop}
    (hretire : ∀ s, allowed s .retire) (hyield : ∀ s, allowed s .yieldItem)
    (h : s.InOrder start) :
    ∃ t, (machine F).Run allowed s t ∧ t.inner.ready = [] ∧ t.decoded = s.decoded := by
  induction hlen : s.inner.ready.length generalizing s with
  | zero => exact ⟨s, .refl, List.length_eq_zero_iff.mp hlen, rfl⟩
  | succ n ih =>
      obtain ⟨item, rest, hready⟩ := List.exists_cons_of_length_eq_add_one hlen
      obtain ⟨hqueue, hcurrent⟩ := s.inner.retireCurrent_queue
      have hready₁ := hqueue.trans hready
      have h₁ := h.retire
      obtain ⟨⟨r, i⟩, hyielded⟩ := Option.isSome_iff_exists.mp (h₁.yieldItem_isSome hready₁)
      have hstep := @Session.next_yieldItem _ _ _ _ s.handed s.decoded _ _ _ hready₁ hcurrent
        hyielded
      have hlen' : i.ready.length = n := by
        rw [hready, List.length_cons] at hlen
        rw [Inner.yieldItem_state hyielded]
        exact Nat.succ.inj hlen
      obtain ⟨t, hrun, hnil, hdecoded⟩ := ih (h₁.next (e := .yieldItem) trivial hstep) hlen'
      have hretired : (machine F).Run allowed s { s with inner := s.inner.retireCurrent } :=
        .single (e := .retire) (hretire s) rfl
      exact ⟨t, (hretired.trans (.single (hyield _) hstep)).trans hrun, hnil, hdecoded⟩

/-! ## The delivered stream -/

/-- Number and payload of a message outcome. -/
def MoldUdpOutcome.message (outcome : MoldUdpOutcome F) : Option (ℕ × List UInt8) :=
  outcome.number.bind fun n ↦ outcome.payload.map fun bytes ↦ (n, bytes)

def handedMessages (handed : List (MoldUdpOutcome F)) : List (ℕ × List UInt8) :=
  handed.filterMap MoldUdpOutcome.message

theorem handedMessages_eq_map {handed : List (MoldUdpOutcome F)}
    (h : ∀ outcome ∈ handed, ∀ n, outcome.number = some n → outcome.payload = some (m n)) :
    handedMessages handed = (handedNumbers handed).map fun n ↦ (n, m n) := by
  unfold handedMessages handedNumbers
  rw [List.map_filterMap]
  refine List.filterMap_congr fun outcome hmem ↦ ?_
  unfold MoldUdpOutcome.message
  cases hn : outcome.number with
  | none => rfl
  | some n =>
      rw [Option.bind_some, h outcome hmem n hn]
      rfl

theorem Session.Fed.payload_eq (h : s.Fed session m top start) {outcome : MoldUdpOutcome F}
    (hmem : outcome ∈ s.handed) {n : ℕ} (hn : outcome.number = some n) :
    outcome.payload = some (m n) := by
  obtain ⟨bytes, hpay, p, hp, header, hparse, -, hkind, hle, hblock⟩ :=
    h.ordered.handed outcome hmem n hn
  have hbytes := ((h.part p hp header hparse).2 hkind).2 _ bytes hblock
  rw [Nat.add_sub_cancel' hle] at hbytes
  rw [hpay, hbytes]

/-- Every number of the stream has occurred and the queue is empty. -/
def Session.Covers (start : UInt64) (top : ℕ) (s : Session F) : Prop :=
  (∀ n, start.toNat ≤ n → n ≤ top → Occurs s.decoded n) ∧ s.inner.ready = []

theorem Session.Fed.expectedNext_eq (h : s.Fed session m top start)
    (hall : ∀ n, start.toNat ≤ n → n ≤ top → Occurs s.decoded n) :
    s.inner.reassembler.expectedNext = max start.toNat (top + 1) := by
  have hfirst := h.windowed.ring.not_has_expectedNext
  have hle := (h.ordered.order start.toNat rfl).1
  have hbeyond : ¬ s.inner.reassembler.expectedNext ≤ top := fun hin ↦
    hfirst ((h.has _).mpr (Or.inr (hall _ hle hin)))
  refine le_antisymm ?_ (max_le hle (Nat.lt_of_not_le hbeyond))
  -- the number before it was had, so it is below the start or occurred
  by_contra hgt
  have hlast : s.inner.Has (max start.toNat (top + 1)) := Or.inl (Nat.lt_of_not_le hgt)
  rcases (h.has _).mp hlast with hlt | ⟨p, hp, header, hparse, hkind, -, hhi⟩
  · omega
  · have := ((h.part p hp header hparse).2 hkind).1
    omega

theorem Session.Fed.handedMessages_eq (h : s.Fed session m top start)
    (hcovers : s.Covers start top) :
    handedMessages s.handed =
      (List.range' start.toNat (top + 1 - start.toNat)).map fun n ↦ (n, m n) := by
  obtain ⟨hall, hready⟩ := hcovers
  obtain ⟨-, horder⟩ := h.ordered.order start.toNat rfl
  rw [Session.delivered, hready, numbers_nil, List.append_nil, h.expectedNext_eq hall] at horder
  rw [handedMessages_eq_map fun outcome hmem n ↦ h.payload_eq hmem, horder]
  congr 2
  omega

/-- Complete delivery.  A receiver fed one stream, with every block inside the window,
never fails to decode and can always be drained; once every number up to `top` occurred
and the queue is drained, it has handed out the whole stream, as has any other receiver
fed the same stream in another order or over other legs. -/
theorem delivered_whole_stream {cfg : MoldUdpReceiverConfig} {legs : List Leg} {inner : Inner F}
    (hnew : fromLegs cfg legs = .ok inner) (hstart : cfg.startSequence = some start)
    (htop : top + 65536 < 2 ^ 64)
    (hrun : (machine F).Run (Session.Feeds session m top) (Session.start inner) s) :
    (∀ now, s.inner.Feeds session m top now → (s.inner.decodeNext now).1 = .ok ()) ∧
    (∃ t, (machine F).Run (Session.Feeds session m top) s t ∧ t.inner.ready = [] ∧
      t.decoded = s.decoded) ∧
    (s.Covers start top → handedMessages s.handed =
      (List.range' start.toNat (top + 1 - start.toNat)).map fun n ↦ (n, m n)) ∧
    ∀ {cfg' : MoldUdpReceiverConfig} {legs' : List Leg} {inner' : Inner F} {s' : Session F},
      fromLegs cfg' legs' = .ok inner' → cfg'.startSequence = some start →
      (machine F).Run (Session.Feeds session m top) (Session.start inner') s' →
      s.Covers start top → s'.Covers start top →
      handedMessages s'.handed = handedMessages s.handed := by
  have hfed : ∀ {cfg : MoldUdpReceiverConfig} {legs : List Leg} {inner : Inner F} {s : Session F},
      fromLegs cfg legs = .ok inner → cfg.startSequence = some start →
      (machine F).Run (Session.Feeds session m top) (Session.start inner) s →
      s.Fed session m top start := fun hnew hstart hrun ↦
    hrun.invariant (Session.fed_start hnew hstart)
      fun _ _ _ hinv hfeeds hstep ↦ hinv.next htop hfeeds hstep
  have h := hfed hnew hstart hrun
  refine ⟨fun now hfeeds ↦ h.decodeNext_ok htop hfeeds, ?_, h.handedMessages_eq, ?_⟩
  · exact h.ordered.drains (fun _ ↦ trivial) (fun _ ↦ trivial)
  · intro cfg' legs' inner' s' hnew' hstart' hrun' hcovers hcovers'
    rw [h.handedMessages_eq hcovers, (hfed hnew' hstart' hrun').handedMessages_eq hcovers']

/-- 3 on the second leg, a heartbeat, 1 and 2 in one packet on the first, and 2 once more
as a retransmission: the caller gets the heartbeat, then the three messages. -/
def sampleShuffled : List (Event (List UInt8)) :=
  [.land [(1, .frame (moldPacket sampleSession 3 [3])),
      (0, .frame (moldHeartbeat sampleSession 4)),
      (0, .frame (moldMultiPacket sampleSession 1 [[1], [2]])),
      (2, .copied (moldPacket sampleSession 2 [2]))] [],
    .decode 0, .decode 0, .yieldItem, .retire, .decode 0, .yieldItem, .retire, .yieldOwned,
    .yieldItem, .retire, .decode 0]

theorem delivered_whole_stream_shuffled :
    ∃ s : Session (List UInt8),
      Machine.follow Session.next (Session.start sampleTwoLegs) sampleShuffled = some s ∧
      handedMessages s.handed = [(1, [1]), (2, [2]), (3, [3])] := by
  have hend : ∃ s ∈ Machine.follow Session.next (Session.start sampleTwoLegs) sampleShuffled,
      (∀ n ∈ List.range' 1 3, Occurs s.decoded n) ∧ s.inner.ready.isEmpty = true := by
    decide +kernel
  obtain ⟨s, hs, hoccurs, hempty⟩ := hend
  have hallowed : Machine.AllowedAlong Session.next
      (Session.Feeds sampleSession (fun n ↦ [UInt8.ofNat n]) 3) (Session.start sampleTwoLegs)
      sampleShuffled := by decide +kernel
  obtain ⟨-, -, hstream, -⟩ := @delivered_whole_stream _ _ _ _ _ 1 _ { startSequence := some 1 }
    [⟨minLegPoolCapacity⟩, ⟨minLegPoolCapacity⟩] _ rfl rfl (by norm_num)
    (Machine.Run.of_follow hallowed hs)
  refine ⟨s, hs, (hstream ⟨fun n hlo hhi ↦ hoccurs n ?_, List.isEmpty_iff.mp hempty⟩).trans rfl⟩
  rw [List.mem_range'_1]
  exact ⟨hlo, by omega⟩

end MoldUdp
