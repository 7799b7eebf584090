import PolarisTrade.Lib.Lender
import PolarisTrade.MoldUdp.InOrder
import PolarisTrade.MoldUdp.PoolSize

/-!
# The receiver over frames read in place

A leg lends frames of a region it goes on using, and the receiver copies none of them: it parses
a datagram when it gets to it, keeps views of it while numbers are missing, and lets the caller
borrow from it.  Every one of these reads happens at a later time than the one before, on memory
that others write to.  The receiver over such legs takes the steps of one that copies each
datagram when it arrives.
-/

namespace MoldUdp

open Transport Word

variable {F : Type} {P : F → Prop}

/-! ## What the receiver holds -/

def Held.All (P : F → Prop) (held : Held F) : Prop := ∀ f ∈ held.frames, P f

def ReadyItem.All (P : F → Prop) (item : ReadyItem F) : Prop := ∀ f ∈ item.frames, P f

theorem Held.all_empty : (Backing.empty : Backing F).held.All P := List.forall_mem_nil _

/-- Every frame the receiver refers to has the property. -/
structure Inner.Holding (P : F → Prop) (i : Inner F) : Prop where
  ring : ∀ view ∈ i.reassembler.payloads, view.datagram.All P
  ready : ∀ item ∈ i.ready, item.All P
  current : ∀ item ∈ i.current, item.All P
  backing : i.backing.held.All P
  pending : ∀ p ∈ i.pendingDatagrams, p.2.All P
  batch : ∀ f ∈ i.recvBatch, P f

theorem Inner.holding_iff {i : Inner F} : i.Holding P ↔ ∀ f ∈ i.heldFrames, P f := by
  unfold heldFrames ringFrames
  simp only [List.forall_mem_append, List.mem_flatMap, Option.mem_toList, forall_exists_index,
    and_imp]
  constructor
  · intro h
    exact ⟨⟨⟨⟨⟨fun f view hview ↦ h.ring view hview f, fun f item hitem ↦ h.ready item hitem f⟩,
      fun f item hitem ↦ h.current item hitem f⟩, h.backing⟩,
      fun f p hp ↦ h.pending p hp f⟩, h.batch⟩
  · rintro ⟨⟨⟨⟨⟨hring, hready⟩, hcurrent⟩, hbacking⟩, hpending⟩, hbatch⟩
    exact ⟨fun view hview f ↦ hring f view hview, fun item hitem f ↦ hready f item hitem,
      fun item hitem f ↦ hcurrent f item hitem, hbacking, fun p hp f ↦ hpending f p hp, hbatch⟩

namespace SequenceReassembler

variable {S : Type} {r : SequenceReassembler S} {v : S}

theorem mem_payloads : v ∈ r.payloads ↔ ∃ k < r.capacity, (r.slots k).payload = some v := by
  simp [payloads, List.mem_filterMap]

theorem mem_payloads_of_lookup {n : ℕ} (h : r.lookup n = some v) : v ∈ r.payloads := by
  unfold lookup at h
  split at h
  · exact mem_payloads.mpr ⟨_, r.slotIndex_lt n, h⟩
  · cases h

theorem mem_payloads_update {idx expected : ℕ} {slot : Slot S}
    (h : v ∈ payloads { r with
      slots := Function.update r.slots idx slot, expectedNext := expected }) :
    v ∈ r.payloads ∨ slot.payload = some v := by
  obtain ⟨k, hk, hv⟩ := mem_payloads.mp h
  dsimp only at hk hv
  by_cases hidx : k = idx
  · rw [hidx, Function.update_self] at hv
    exact .inr hv
  · rw [Function.update_of_ne hidx] at hv
    exact .inl (mem_payloads.mpr ⟨k, hk, hv⟩)

/-- The cursor hands on what the ring holds and puts nothing in. -/
theorem mem_payloads_of_drain {fuel : ℕ} :
    ∀ {r : SequenceReassembler S}, v ∈ (drain fuel r).1 ∨ v ∈ (drain fuel r).2.payloads →
      v ∈ r.payloads := by
  induction fuel with
  | zero =>
      intro r h
      exact h.resolve_left List.not_mem_nil
  | succ fuel ih =>
      intro r h
      rw [drain_succ] at h
      cases hlookup : r.lookup r.expectedNext with
      | none =>
          rw [hlookup] at h
          exact h.resolve_left List.not_mem_nil
      | some payload =>
          rw [hlookup] at h
          have htake : v ∈ r.take.payloads → v ∈ r.payloads := fun hv ↦
            (mem_payloads_update hv).resolve_right fun h ↦ by cases h
          rcases h with hout | hrest
          · rcases List.mem_cons.mp hout with rfl | hout
            · exact mem_payloads_of_lookup hlookup
            · exact htake (ih (.inl hout))
          · exact htake (ih (.inr hrest))

theorem mem_payloads_of_insert {r' : SequenceReassembler S} {stored : Bool} {seq : ℕ} {slab : S}
    (hinsert : r.insert seq slab = .ok (stored, r')) (h : v ∈ r'.payloads) :
    v ∈ r.payloads ∨ v = slab := by
  rcases r.insert_cases seq slab with ⟨-, hcase⟩ | ⟨-, -, hcase⟩ | ⟨-, -, -, -, hcase⟩ |
    ⟨-, -, -, hcase⟩
  all_goals
    rw [hcase] at hinsert
    cases hinsert
  · exact .inl h
  · exact .inl h
  · exact (mem_payloads_update h).imp_right fun hslot ↦ (Option.some.inj hslot).symm

end SequenceReassembler

theorem ReadyItem.all_of_mem_viewItems {streamId : UInt8} {views : List (MessageView F)}
    (hviews : ∀ view ∈ views, view.datagram.All P) :
    ∀ {seq : ℕ}, ∀ item ∈ viewItems streamId seq views, item.All P := by
  induction views with
  | nil =>
      intro seq item hitem
      cases hitem
  | cons view views ih =>
      obtain ⟨hview, hviews⟩ := List.forall_mem_cons.mp hviews
      intro seq item hitem
      rcases List.mem_cons.mp hitem with rfl | hitem
      · exact hview
      · exact ih hviews item hitem

/-- Draining moves views from the ring to the queue. -/
theorem ReadyItem.all_of_drainReady {r : SequenceReassembler (MessageView F)}
    (hring : ∀ view ∈ r.payloads, view.datagram.All P) :
    (∀ view ∈ r.drainReady.2.payloads, view.datagram.All P) ∧
      ∀ {streamId : UInt8} {seq : ℕ}, ∀ item ∈ viewItems streamId seq r.drainReady.1,
        item.All P := by
  have hdrain : ∀ view, view ∈ r.drainReady.1 ∨ view ∈ r.drainReady.2.payloads →
      view.datagram.All P := fun view hview ↦
    hring view (SequenceReassembler.mem_payloads_of_drain hview)
  refine ⟨fun view hview ↦ hdrain view (.inr hview), ?_⟩
  exact ReadyItem.all_of_mem_viewItems fun view hview ↦ hdrain view (.inl hview)

theorem ReadyItem.all_gap : (.gap : ReadyItem F).All P := List.forall_mem_nil _

theorem ReadyItem.all_append {ready added : List (ReadyItem F)}
    (hready : ∀ item ∈ ready, item.All P) (hadded : ∀ item ∈ added, item.All P) :
    ∀ item ∈ ready ++ added, item.All P :=
  List.forall_mem_append.mpr ⟨hready, hadded⟩

/-! ## One block -/

/-- Inside the block loop the datagram is held as well. -/
structure Decoding.Holding (P : F → Prop) (d : Decoding F) : Prop where
  inner : d.inner.Holding P
  datagram : d.backing.held.All P

namespace Decoding.Holding

variable {d : Decoding F}

theorem deliver (h : d.Holding P) (streamId : UInt8) (b : Block) :
    (d.deliver streamId b).Holding P := by
  have hring : ∀ view ∈ (d.inner.reassembler.advanceExpected 1).payloads,
      view.datagram.All P := h.inner.ring
  obtain ⟨hrest, hviews⟩ := ReadyItem.all_of_drainReady hring
  refine ⟨⟨hrest, ?_, h.inner.current, h.inner.backing, h.inner.pending, h.inner.batch⟩,
    h.datagram⟩
  exact ReadyItem.all_append h.inner.ready
    (List.forall_mem_cons.mpr ⟨List.forall_mem_nil _, hviews⟩)

theorem buffer (h : d.Holding P) (streamId : UInt8) (b : Block) :
    (d.buffer streamId b).2.Holding P := by
  have hbacking : d.backing.share.1.held.All P := by
    rw [Backing.held_share]
    exact h.datagram
  have hinsert : ∀ {stored reassembler}, d.inner.reassembler.insert b.seq
      ⟨d.backing.share.2, b.offset, b.len⟩ = .ok (stored, reassembler) →
      ∀ view ∈ reassembler.payloads, view.datagram.All P := by
    intro stored reassembler hinsert view hview
    rcases SequenceReassembler.mem_payloads_of_insert hinsert hview with hold | rfl
    · exact h.inner.ring view hold
    · rw [Backing.share_snd]
      exact h.datagram
  unfold Decoding.buffer
  split
  · exact ⟨h.inner, hbacking⟩
  · next hstored =>
      exact ⟨⟨hinsert hstored, h.inner.ready, h.inner.current, h.inner.backing, h.inner.pending,
        h.inner.batch⟩, hbacking⟩
  · next reassembler hstored =>
      obtain ⟨hrest, hviews⟩ := ReadyItem.all_of_drainReady (hinsert hstored)
      refine ⟨⟨hrest, ?_, h.inner.current, h.inner.backing, h.inner.pending, h.inner.batch⟩,
        hbacking⟩
      exact ReadyItem.all_append h.inner.ready hviews

theorem place (h : d.Holding P) (streamId : UInt8) (b : Block) :
    (d.place streamId b).2.Holding P := by
  unfold Decoding.place
  split
  · exact h.deliver streamId b
  · exact h.buffer streamId b
  · exact h

theorem decodeBlock (h : d.Holding P) (streamId : UInt8) (now : Option Instant) (b : Block) :
    (Decoding.decodeBlock streamId now b d).2.Holding P := by
  have hobserve : (d.inner.observe streamId b.seq now).2.Holding P := by
    unfold Inner.observe
    split
    · exact ⟨h.inner.ring, h.inner.ready, h.inner.current, h.inner.backing, h.inner.pending,
        h.inner.batch⟩
    · exact h.inner
  unfold Decoding.decodeBlock
  generalize d.inner.observe streamId b.seq now = observed at hobserve ⊢
  obtain ⟨verdict, inner⟩ := observed
  cases verdict with
  | duplicate => exact ⟨hobserve, h.datagram⟩
  | outOfWindow => exact ⟨hobserve, h.datagram⟩
  | forward =>
      have hmark : Holding P { d with inner := inner.markReceived b.seq } :=
        ⟨⟨hobserve.ring, hobserve.ready, hobserve.current, hobserve.backing, hobserve.pending,
          hobserve.batch⟩, h.datagram⟩
      exact hmark.place streamId b

theorem decodeBlocks (streamId : UInt8) (now : Option Instant) (blocks : List Block) :
    ∀ {d : Decoding F}, d.Holding P →
      (Decoding.decodeBlocks streamId now blocks d).2.Holding P := by
  induction blocks with
  | nil => exact fun h ↦ h
  | cons b blocks ih =>
      intro d h
      have hstep := h.decodeBlock streamId now b
      unfold Decoding.decodeBlocks
      generalize Decoding.decodeBlock streamId now b d = decoded at hstep ⊢
      obtain ⟨_ | _, d'⟩ := decoded
      · exact hstep
      · exact ih hstep

theorem install (h : d.Holding P) : d.install.Holding P := by
  unfold Decoding.install
  split
  · exact ⟨h.inner.ring, h.inner.ready, h.inner.current, h.datagram, h.inner.pending,
      h.inner.batch⟩
  · exact h.inner

end Decoding.Holding

/-! ## One step of the receiver -/

namespace Inner.Holding

variable {i : Inner F}

theorem anchor (h : i.Holding P) (header : DownstreamHeader) : (i.anchor header).Holding P := by
  unfold Inner.anchor
  split
  · exact h
  · exact ⟨h.ring, h.ready, h.current, h.backing, h.pending, h.batch⟩

theorem noteTailGap (h : i.Holding P) (nextExpected : ℕ) :
    (i.noteTailGap nextExpected).Holding P := by
  unfold Inner.noteTailGap
  split
  · exact ⟨h.ring, ReadyItem.all_append h.ready (by simpa using ReadyItem.all_gap), h.current,
      h.backing, h.pending, h.batch⟩
  · exact h

theorem noteJump (h : i.Holding P) (sequence : ℕ) (now : Option Instant) :
    (i.noteJump sequence now).Holding P := by
  unfold Inner.noteJump
  split
  · split
    · exact ⟨h.ring, h.ready, h.current, h.backing, h.pending, h.batch⟩
    · exact ⟨h.ring, ReadyItem.all_append h.ready (by simpa using ReadyItem.all_gap), h.current,
        h.backing, h.pending, h.batch⟩
  · exact h

theorem drainConfirmedGaps (h : i.Holding P) (now : Instant) :
    (i.drainConfirmedGaps now).Holding P := by
  unfold Inner.drainConfirmedGaps
  split
  · exact h
  · refine ⟨h.ring, ReadyItem.all_append h.ready ?_, h.current, h.backing, h.pending, h.batch⟩
    intro item hitem
    obtain ⟨_, -, rfl⟩ := List.mem_map.mp hitem
    exact ReadyItem.all_gap

theorem releaseInline (h : i.Holding P) : i.releaseInline.Holding P := by
  unfold Inner.releaseInline
  dsimp only
  split
  · exact ⟨h.ring, h.ready, h.current, Held.all_empty, h.pending, h.batch⟩
  · exact ⟨h.ring, h.ready, h.current, h.backing, h.pending, h.batch⟩

theorem retireCurrent (h : i.Holding P) : i.retireCurrent.Holding P := by
  have hnone : ({ i with current := none } : Inner F).Holding P :=
    ⟨h.ring, h.ready, fun item hitem ↦ absurd hitem (Option.not_mem_none item), h.backing,
      h.pending, h.batch⟩
  unfold Inner.retireCurrent
  split
  · exact hnone.releaseInline
  · exact hnone

variable [AsRef F]

theorem decodeData (h : i.Holding P) (streamId : UInt8) {datagram : Held F}
    (hdatagram : datagram.All P) (header : DownstreamHeader) (now : Option Instant) :
    (i.decodeData streamId datagram header now).2.Holding P := by
  have henter : ∀ blocks, Decoding.Holding P
      (enterLoop { i with blocks := blocks } header datagram now) := by
    intro blocks
    have hblocks : ({ i with blocks := blocks } : Inner F).Holding P :=
      ⟨h.ring, h.ready, h.current, h.backing, h.pending, h.batch⟩
    have hjump := hblocks.noteJump header.sequence now
    exact ⟨⟨hjump.ring, hjump.ready, hjump.current, hjump.backing, hjump.pending, hjump.batch⟩,
      hdatagram⟩
  rcases i.decodeData_cases streamId datagram header now with
    ⟨blocks, e, -, hdecode⟩ | ⟨blocks, -, ⟨e, d, hloop, hdecode⟩ | ⟨d, hloop, hdecode⟩⟩
  · rw [hdecode]
    exact ⟨h.ring, h.ready, h.current, h.backing, h.pending, h.batch⟩
  all_goals
    have hblocks := Decoding.Holding.decodeBlocks streamId now blocks (henter blocks)
    rw [hloop] at hblocks
    rw [hdecode]
  · exact hblocks.inner
  · exact hblocks.install

theorem processed {i' : Inner F} {now : Option Instant} {r : Except MoldUdpError Unit}
    (h : i.Holding P) (hprocessed : i.Processed now r i') : i'.Holding P := by
  have hpop : ∀ {streamId datagram rest}, i.pendingDatagrams = (streamId, datagram) :: rest →
      datagram.All P ∧ ∀ session, ({ i with
        pendingDatagrams := rest, session := session } : Inner F).Holding P := by
    intro streamId datagram rest hpending
    have hall := h.pending
    rw [hpending] at hall
    obtain ⟨hfirst, hrest⟩ := List.forall_mem_cons.mp hall
    exact ⟨hfirst, fun session ↦ ⟨h.ring, h.ready, h.current, h.backing, hrest, h.batch⟩⟩
  cases hprocessed with
  | idle => exact h
  | unparsed e hpending => exact (hpop hpending).2 _
  | mismatch expected hpending => exact (hpop hpending).2 _
  | @control streamId datagram rest header ev hpending =>
      have htail := (((hpop hpending).2 (some header.session)).anchor header).noteTailGap
        header.sequence
      refine ⟨htail.ring, ReadyItem.all_append htail.ready ?_, htail.current, htail.backing,
        htail.pending, htail.batch⟩
      exact List.forall_mem_singleton.mpr (List.forall_mem_nil _)
  | @data streamId datagram rest header hpending =>
      obtain ⟨hdatagram, hrest⟩ := hpop hpending
      exact ((hrest _).anchor header).decodeData streamId hdatagram header now

theorem decodeNext (h : i.Holding P) (now : Instant) : (i.decodeNext now).2.Holding P := by
  have hprocessed := h.processed (i.processNextPending_processed (i.clock now))
  unfold Inner.decodeNext
  generalize i.processNextPending (i.clock now) = processed at hprocessed ⊢
  obtain ⟨_ | _, i'⟩ := processed
  · exact hprocessed
  · dsimp only at hprocessed ⊢
    split
    · exact hprocessed.drainConfirmedGaps now
    · exact hprocessed

end Inner.Holding

theorem Inner.Holding.mono {Q : F → Prop} {i : Inner F} (h : i.Holding P)
    (himp : ∀ f, P f → Q f) : i.Holding Q :=
  Inner.holding_iff.mpr fun f hf ↦ himp f (Inner.holding_iff.mp h f hf)

/-- The owned message in an outcome. -/
def MoldUdpOutcome.view? : MoldUdpOutcome F → Option (MessageView F)
  | .owned view _ _ => some view
  | _ => none

def Event.isCall : Event F → Bool
  | .land .. => false
  | _ => true

section

variable [AsRef F]

/-- A step of the receiver finds every frame it refers to where it referred to it, and hands
out views of such frames only. -/
theorem Session.holding_next {s t : Session F} {e : Event F} (hcall : e.isCall = true)
    (hstep : s.next e = some t) (h : s.inner.Holding P) :
    t.inner.Holding P ∧ ∃ added, t.handed = s.handed ++ added ∧
      ∀ outcome ∈ added, ∀ view ∈ outcome.view?, view.datagram.All P := by
  cases Session.step_of_next hstep with
  | retire => exact ⟨h.retireCurrent, [], (List.append_nil _).symm, List.forall_mem_nil _⟩
  | land datagrams batch => cases hcall
  | decode now => exact ⟨h.decodeNext now, [], (List.append_nil _).symm, List.forall_mem_nil _⟩
  | yieldItem item rest r hready hcurrent hyield =>
      have hall := h.ready
      rw [hready] at hall
      obtain ⟨hitem, hrest⟩ := List.forall_mem_cons.mp hall
      refine ⟨⟨h.ring, hrest, ?_, h.backing, h.pending, h.batch⟩, _, rfl, ?_⟩
      · intro item' hitem'
        cases hitem'
        exact hitem
      · -- a borrowed outcome is no owned one
        intro outcome houtcome view hview
        cases item with
        | inline =>
            obtain ⟨_, -, hpair⟩ := Option.map_eq_some_iff.mp hyield
            cases (Prod.mk.inj hpair).1
            cases List.mem_singleton.mp houtcome
            cases hview
        | view =>
            obtain ⟨_, -, hpair⟩ := Option.map_eq_some_iff.mp hyield
            cases (Prod.mk.inj hpair).1
            cases List.mem_singleton.mp houtcome
            cases hview
        | event =>
            cases (Prod.mk.inj (Option.some.inj hyield)).1
            cases List.mem_singleton.mp houtcome
            cases hview
        | gap =>
            cases (Prod.mk.inj (Option.some.inj hyield)).1
            cases houtcome
  | yieldOwned item rest hready hcurrent =>
      have hall := h.ready
      rw [hready] at hall
      obtain ⟨hitem, hrest⟩ := List.forall_mem_cons.mp hall
      have hpopped : ({ s.inner with ready := rest } : Inner F).Holding P :=
        ⟨h.ring, hrest, h.current, h.backing, h.pending, h.batch⟩
      cases item with
      | inline sequence streamId offset len =>
          have hshared : ({ s.inner with
              ready := rest, backing := s.inner.backing.share.1 } : Inner F).Holding P :=
            ⟨h.ring, hrest, h.current, (Backing.held_share _).symm ▸ h.backing, h.pending, h.batch⟩
          refine ⟨hshared.releaseInline, _, rfl, ?_⟩
          intro outcome houtcome view hview
          cases List.mem_singleton.mp houtcome
          cases hview
          exact (Backing.share_snd _).symm ▸ h.backing
      | view view sequence streamId =>
          refine ⟨hpopped, _, rfl, ?_⟩
          intro outcome houtcome view' hview
          cases List.mem_singleton.mp houtcome
          cases hview
          exact hitem
      | event ev =>
          refine ⟨hpopped, _, rfl, ?_⟩
          intro outcome houtcome view hview
          cases List.mem_singleton.mp houtcome
          cases hview
      | gap => exact ⟨hpopped, _, rfl, List.forall_mem_nil _⟩

end

/-! ## Two ways to read the same frames -/

section Congr

variable {I J : AsRef F}

theorem Held.asRef_congr {held : Held F} (h : held.All fun f ↦ I.asRef f = J.asRef f) :
    @Held.asRef F I held = @Held.asRef F J held := by
  cases held with
  | frame f => exact h f (List.mem_singleton_self f)
  | copied bytes => rfl

theorem MessageView.asRef_congr {view : MessageView F}
    (h : view.datagram.All fun f ↦ I.asRef f = J.asRef f) :
    @MessageView.asRef F I view = @MessageView.asRef F J view := by
  unfold MessageView.asRef
  rw [Held.asRef_congr h]

theorem Inner.decodeNext_congr {i : Inner F} (h : i.Holding fun f ↦ I.asRef f = J.asRef f)
    (now : Instant) : @Inner.decodeNext F I i now = @Inner.decodeNext F J i now := by
  have hprocess : @Inner.processNextPending F I i (i.clock now) =
      @Inner.processNextPending F J i (i.clock now) := by
    unfold processNextPending
    cases hpending : i.pendingDatagrams with
    | nil => rfl
    | cons p rest =>
        obtain ⟨streamId, datagram⟩ := p
        have hread := Held.asRef_congr (h.pending (streamId, datagram)
          (hpending ▸ List.mem_cons_self))
        dsimp only at hread ⊢
        unfold decodeData enterLoop
        rw [hread]
  unfold Inner.decodeNext
  rw [hprocess]

theorem Inner.yieldItem_congr {i : Inner F} {item : ReadyItem F}
    (hbacking : i.backing.held.All fun f ↦ I.asRef f = J.asRef f)
    (hitem : item.All fun f ↦ I.asRef f = J.asRef f) :
    @Inner.yieldItem F I i item = @Inner.yieldItem F J i item := by
  unfold Inner.yieldItem
  cases item with
  | inline sequence streamId offset len =>
      unfold Backing.bytes
      dsimp only
      rw [Held.asRef_congr hbacking]
  | view view sequence streamId =>
      dsimp only
      rw [MessageView.asRef_congr hitem]
  | event ev => rfl
  | gap => rfl

theorem Session.next_congr {s : Session F} (h : s.inner.Holding fun f ↦ I.asRef f = J.asRef f)
    (e : Event F) : @Session.next F I s e = @Session.next F J s e := by
  cases e with
  | retire => rfl
  | land datagrams batch => rfl
  | decode now =>
      unfold Session.next
      dsimp only
      rw [Inner.decodeNext_congr h]
  | yieldItem =>
      unfold Session.next
      dsimp only
      cases hready : s.inner.ready with
      | nil => rfl
      | cons item rest =>
          have hitem := h.ready item (hready ▸ List.mem_cons_self)
          cases s.inner.current with
          | none => exact congrArg (Option.map _) (Inner.yieldItem_congr h.backing hitem)
          | some current => rfl
  | yieldOwned => rfl

end Congr

/-! ## The system -/

/-- A loan stands for the bytes it read when it was made. -/
instance {η : Type} : AsRef (Loan ℕ η) := ⟨Loan.bytes⟩

/-- The receiver with its legs. -/
structure InPlace (σ η : Type) where
  legs : ℕ → σ
  session : Session (Loan ℕ η)
  /-- owned messages the application still has -/
  kept : List (MessageView (Loan ℕ η))
  /-- datagrams read off the requester -/
  recovered : List (List UInt8)

/-- What the item in the caller's hands reads as. -/
def Inner.borrowed [AsRef F] (i : Inner F) : Option (List UInt8) :=
  match i.current with
  | some (.inline _ _ offset len) => slice i.backing.bytes offset len
  | some (.view view _ _) => view.asRef
  | _ => none

theorem Inner.borrowed_congr {I J : AsRef F} {i : Inner F}
    (h : i.Holding fun f ↦ I.asRef f = J.asRef f) :
    @Inner.borrowed F I i = @Inner.borrowed F J i := by
  unfold Inner.borrowed
  split
  · unfold Backing.bytes
    rw [Held.asRef_congr h.backing]
  · next hcurrent => exact MessageView.asRef_congr (h.current _ hcurrent)
  · rfl

namespace InPlace

variable {σ ε η : Type} {L : ℕ → Lender σ ε η} {Good : ℕ → σ → Prop} {Live : ℕ → σ → η → Prop}
  {d d' : InPlace σ η}

/-- A frame read where it lies, as the memory of its leg has it now. -/
@[reducible] def reading (L : ℕ → Lender σ ε η) (d : InPlace σ η) : AsRef (Loan ℕ η) :=
  ⟨fun loan ↦ (L loan.lender).read (d.legs loan.lender) loan.handle⟩

/-- Everything that keeps a frame from being dropped. -/
def held (d : InPlace σ η) : List (Loan ℕ η) :=
  d.session.inner.heldFrames ++ d.kept.flatMap fun view ↦ view.datagram.frames

inductive Step (ε η : Type) where
  /-- a leg or its kernel takes a step; what is lent waits in `recv_batch` -/
  | leg (k : ℕ) (ev : ε)
  /-- the batch is drained after a burst of leg `k` -/
  | drain (k : ℕ)
  /-- a datagram from the requester -/
  | recover (datagram : List UInt8)
  | client (e : Event (Loan ℕ η))
  /-- the application is done with an owned message -/
  | forget (i : ℕ)

/-- A frame is dropped, and its buffer taken back, once nothing holds it.  The receiver reads
frames where they lie. -/
def next (L : ℕ → Lender σ ε η) (d : InPlace σ η) : Step ε η → Option (InPlace σ η)
  | .leg k ev =>
      if k < d.session.inner.legs.length ∧
          ∀ loan ∈ d.held, loan.lender = k → (L k).takes (d.legs k) ev loan.handle = false then
        ((L k).next (d.legs k) ev).map fun leg ↦
          { d with
            legs := Function.update d.legs k leg
            session.inner.recvBatch :=
              d.session.inner.recvBatch ++ Loan.made L d.legs k ev leg }
      else none
  | .drain k =>
      some
        { d with
          session.inner.recvBatch := []
          session.inner.pendingDatagrams := d.session.inner.pendingDatagrams ++
            d.session.inner.recvBatch.map fun loan ↦ (UInt8.ofNat k, .frame loan) }
  | .recover datagram =>
      some
        { d with
          session.inner.pendingDatagrams := d.session.inner.pendingDatagrams ++
            [(d.session.inner.recoveryStream, .copied datagram)]
          recovered := d.recovered ++ [datagram] }
  | .client e =>
      if e.isCall then
        (@Session.next _ (d.reading L) d.session e).map fun session ↦
          { d with
            session := session
            kept := d.kept ++ (session.handed.drop d.session.handed.length).filterMap
              MoldUdpOutcome.view? }
      else none
  | .forget i => some { d with kept := d.kept.eraseIdx i }

def machine (L : ℕ → Lender σ ε η) : Machine (InPlace σ η) (Step ε η) := .ofNext (next L)

def start (legs : ℕ → σ) (inner : Inner (Loan ℕ η)) : InPlace σ η := ⟨legs, .start inner, [], []⟩

/-- The conditions of the copying receiver. -/
def Orderly (d : InPlace σ η) : Step ε η → Prop
  | .client e => d.session.Orderly e
  | _ => True

instance (d : InPlace σ η) : ∀ step : Step ε η, Decidable (d.Orderly step)
  | .client e => inferInstanceAs (Decidable (d.session.Orderly e))
  | .leg .. => .isTrue trivial
  | .drain _ => .isTrue trivial
  | .recover _ => .isTrue trivial
  | .forget _ => .isTrue trivial

/-- A leg lent the datagram, or it came from the requester. -/
def From (L : ℕ → Lender σ ε η) (d : InPlace σ η) : Held (Loan ℕ η) → Prop
  | .frame loan => loan.Recorded L d.legs
  | .copied bytes => bytes ∈ d.recovered

/-- Legs keep their laws, what is held reads as it did when it was lent, and the item in the
caller's hands is the one handed out last. -/
structure Sound (L : ℕ → Lender σ ε η) (Good : ℕ → σ → Prop) (Live : ℕ → σ → η → Prop)
    (d : InPlace σ η) : Prop where
  good : ∀ k, Good k (d.legs k)
  held : d.session.inner.Holding fun loan ↦ loan.Sound L Live d.legs
  kept : ∀ view ∈ d.kept, view.datagram.All (fun loan ↦ loan.Sound L Live d.legs) ∧
    ∃ n streamId, .owned view n streamId ∈ d.session.handed
  origin : ∀ p ∈ d.session.decoded ++ d.session.inner.pendingDatagrams, d.From L p.2
  batch : ∀ loan ∈ d.session.inner.recvBatch, loan.Recorded L d.legs
  last : ∀ item ∈ d.session.inner.current, ∀ n, item.number = some n →
    ∃ payload streamId, d.session.handed.getLast? = some (.frame payload n streamId) ∧
      d.session.inner.borrowed = some payload

theorem Sound.agree (h : d.Sound L Good Live) :
    d.session.inner.Holding fun loan ↦ (d.reading L).asRef loan = loan.bytes :=
  h.held.mono fun _ hloan ↦ hloan.2

/-- The receiver that reads in place takes the step of the one that copied. -/
theorem Sound.next_eq (h : d.Sound L Good Live) (e : Event (Loan ℕ η)) :
    @Session.next _ (d.reading L) d.session e = d.session.next e :=
  Session.next_congr h.agree e

theorem Sound.leg (h : d.Sound L Good Live) (hL : ∀ k, (L k).Lawful (Good k) (Live k)) {k : ℕ}
    {ev : ε} (hnext : d.next L (.leg k ev) = some d') : d'.Sound L Good Live := by
  simp only [InPlace.next] at hnext
  split at hnext
  · next hguard =>
      obtain ⟨leg, hleg, rfl⟩ := Option.map_eq_some_iff.mp hnext
      have hsound : ∀ loan ∈ d.held, loan.Sound L Live d.legs →
          loan.Sound L Live (Function.update d.legs k leg) := fun loan hloan hsound ↦
        hsound.update hL h.good hleg (hguard.2 loan hloan)
      have hrecorded : ∀ {loan : Loan ℕ η}, loan.Recorded L d.legs →
          loan.Recorded L (Function.update d.legs k leg) := fun hloan ↦
        hloan.update hL h.good hleg
      have hheld : d.session.inner.Holding fun loan ↦
          loan.Sound L Live (Function.update d.legs k leg) :=
        Inner.holding_iff.mpr fun loan hloan ↦
          hsound loan (List.mem_append_left _ hloan) (Inner.holding_iff.mp h.held loan hloan)
      refine ⟨Loan.good_update hL h.good hleg, ?_, fun view hview ↦ ⟨?_, (h.kept view hview).2⟩,
        fun p hp ↦ ?_, ?_, h.last⟩
      · refine ⟨hheld.ring, hheld.ready, hheld.current, hheld.backing, hheld.pending, ?_⟩
        refine List.forall_mem_append.mpr ⟨hheld.batch, fun loan hloan ↦ ?_⟩
        exact (Loan.sound_of_made hL h.good hleg hloan).1
      · intro loan hloan
        refine hsound loan (List.mem_append_right _ ?_) ((h.kept view hview).1 loan hloan)
        exact List.mem_flatMap.mpr ⟨view, hview, hloan⟩
      · have horigin := h.origin p hp
        revert horigin
        cases p.2 with
        | frame loan => exact hrecorded
        | copied bytes => exact fun hmem ↦ hmem
      · refine List.forall_mem_append.mpr ⟨fun loan hloan ↦ hrecorded (h.batch loan hloan), ?_⟩
        exact fun loan hloan ↦ (Loan.sound_of_made hL h.good hleg hloan).2
  · cases hnext

theorem Sound.drain (h : d.Sound L Good Live) {k : ℕ}
    (hnext : d.next L (.drain k) = some d') : d'.Sound L Good Live := by
  cases hnext
  have hbatch : ∀ {P : Loan ℕ η → Prop}, (∀ loan ∈ d.session.inner.recvBatch, P loan) →
      ∀ p ∈ d.session.inner.recvBatch.map fun loan ↦ (UInt8.ofNat k, Held.frame loan),
        p.2.All P := by
    intro P hall p hp
    obtain ⟨loan, hloan, rfl⟩ := List.mem_map.mp hp
    exact List.forall_mem_singleton.mpr (hall loan hloan)
  refine ⟨h.good, ⟨h.held.ring, h.held.ready, h.held.current, h.held.backing, ?_,
    List.forall_mem_nil _⟩, h.kept, ?_, List.forall_mem_nil _, h.last⟩
  · exact List.forall_mem_append.mpr ⟨h.held.pending, hbatch h.held.batch⟩
  · intro p hp
    rw [← List.append_assoc] at hp
    rcases List.mem_append.mp hp with hold | hnew
    · exact h.origin p hold
    · obtain ⟨loan, hloan, rfl⟩ := List.mem_map.mp hnew
      exact h.batch loan hloan

theorem Sound.recover (h : d.Sound L Good Live) {datagram : List UInt8}
    (hnext : d.next L (.recover datagram) = some d') : d'.Sound L Good Live := by
  cases hnext
  refine ⟨h.good, ⟨h.held.ring, h.held.ready, h.held.current, h.held.backing, ?_,
    h.held.batch⟩, h.kept, ?_, h.batch, h.last⟩
  · refine List.forall_mem_append.mpr ⟨h.held.pending, ?_⟩
    exact List.forall_mem_singleton.mpr (List.forall_mem_nil _)
  · intro p hp
    rw [← List.append_assoc] at hp
    rcases List.mem_append.mp hp with hold | hnew
    · have horigin := h.origin p hold
      revert horigin
      cases p.2 with
      | frame loan => exact fun hrecorded ↦ hrecorded
      | copied bytes => exact fun hmem ↦ List.mem_append_left _ hmem
    · rw [List.mem_singleton.mp hnew]
      exact List.mem_append_right _ (List.mem_singleton_self datagram)

/-- A call moves datagrams from the queue to the history and reads no source. -/
theorem sources_next {s t : Session (Loan ℕ η)} {e : Event (Loan ℕ η)} (hcall : e.isCall = true)
    (hstep : s.next e = some t) : t.inner.recvBatch = s.inner.recvBatch ∧
      ∀ p ∈ t.decoded ++ t.inner.pendingDatagrams, p ∈ s.decoded ++ s.inner.pendingDatagrams := by
  cases Session.step_of_next hstep with
  | retire =>
      obtain ⟨hsame, hpending⟩ := s.inner.retireCurrent_sameSources
      refine ⟨hsame.recvBatch, fun p hp ↦ ?_⟩
      dsimp only at hp
      rwa [hpending] at hp
  | land datagrams batch => cases hcall
  | decode now =>
      obtain ⟨hsame, hpending⟩ := s.inner.decodeNext_sameSources now
      refine ⟨hsame.recvBatch, fun p hp ↦ ?_⟩
      dsimp only at hp
      rwa [hpending, ← List.drop_one, List.append_assoc, List.take_append_drop] at hp
  | yieldItem => exact ⟨rfl, fun p hp ↦ hp⟩
  | yieldOwned item rest =>
      obtain ⟨hsame, hpending⟩ := ({ s.inner with ready := rest } : Inner _).yieldOwned_sameSources
        item
      refine ⟨hsame.recvBatch, fun p hp ↦ ?_⟩
      dsimp only at hp
      rwa [hpending] at hp

/-- Only `yield_item` leaves an item in the caller's hands, the one it returned. -/
theorem last_next {s t : Session (Loan ℕ η)} {e : Event (Loan ℕ η)} (hcall : e.isCall = true)
    (hstep : s.next e = some t) : ∀ item ∈ t.inner.current, ∀ n, item.number = some n →
      ∃ payload streamId, t.handed.getLast? = some (.frame payload n streamId) ∧
        t.inner.borrowed = some payload := by
  intro item hitem n hn
  cases Session.step_of_next hstep with
  | retire =>
      have hnone : s.inner.retireCurrent.current = none := by
        unfold Inner.retireCurrent
        split <;> rfl
      rw [hnone] at hitem
      cases hitem
  | land datagrams batch => cases hcall
  | decode now hready hcurrent =>
      rw [(s.inner.current_decodeNext now).trans hcurrent] at hitem
      cases hitem
  | yieldItem item' rest r hready hcurrent hyield =>
      cases hitem
      cases item with
      | inline sequence streamId offset len =>
          obtain ⟨payload, hslice, hpair⟩ := Option.map_eq_some_iff.mp hyield
          cases (Prod.mk.inj hpair).1
          cases hn
          exact ⟨payload, streamId, List.getLast?_concat, hslice⟩
      | view view sequence streamId =>
          obtain ⟨payload, hslice, hpair⟩ := Option.map_eq_some_iff.mp hyield
          cases (Prod.mk.inj hpair).1
          cases hn
          exact ⟨payload, streamId, List.getLast?_concat, hslice⟩
      | event ev => cases hn
      | gap => cases hn
  | yieldOwned item' rest hready hcurrent =>
      have hnone : (Inner.yieldOwned { s.inner with ready := rest } item').2.current = none := by
        cases item' <;> exact hcurrent
      dsimp only at hitem
      rw [hnone] at hitem
      cases hitem

theorem Sound.client (h : d.Sound L Good Live) {e : Event (Loan ℕ η)}
    (hnext : d.next L (.client e) = some d') :
    d'.Sound L Good Live ∧ d.session.next e = some d'.session := by
  simp only [InPlace.next] at hnext
  split at hnext
  · next hcall =>
      obtain ⟨session, hstep, rfl⟩ := Option.map_eq_some_iff.mp hnext
      rw [h.next_eq] at hstep
      refine ⟨?_, hstep⟩
      obtain ⟨hheld, added, hadded, hviews⟩ := Session.holding_next hcall hstep h.held
      obtain ⟨hbatch, hsources⟩ := sources_next hcall hstep
      refine ⟨h.good, hheld, ?_, ?_, ?_, last_next hcall hstep⟩
      · dsimp only
        rw [hadded, List.drop_left]
        refine List.forall_mem_append.mpr ⟨fun view hview ↦ ?_, fun view hview ↦ ?_⟩
        · obtain ⟨hall, n, streamId, howned⟩ := h.kept view hview
          exact ⟨hall, n, streamId, List.mem_append_left _ howned⟩
        · obtain ⟨outcome, houtcome, hview⟩ := List.mem_filterMap.mp hview
          refine ⟨hviews outcome houtcome view hview, ?_⟩
          cases outcome with
          | owned view' n streamId =>
              cases hview
              exact ⟨n, streamId, List.mem_append_right _ houtcome⟩
          | frame => cases hview
          | event => cases hview
      · exact fun p hp ↦ h.origin p (hsources p hp)
      · dsimp only
        rw [hbatch]
        exact h.batch
  · cases hnext

theorem Sound.forget (h : d.Sound L Good Live) {i : ℕ}
    (hnext : d.next L (.forget i) = some d') : d'.Sound L Good Live := by
  cases hnext
  exact ⟨h.good, h.held, fun view hview ↦ h.kept view (List.mem_of_mem_eraseIdx hview), h.origin,
    h.batch, h.last⟩

theorem Sound.next (h : d.Sound L Good Live) (hL : ∀ k, (L k).Lawful (Good k) (Live k))
    {step : Step ε η} (hnext : d.next L step = some d') : d'.Sound L Good Live := by
  cases step with
  | leg k ev => exact h.leg hL hnext
  | drain k => exact h.drain hnext
  | recover datagram => exact h.recover hnext
  | client e => exact (h.client hnext).1
  | forget i => exact h.forget hnext

theorem Sound.start {legs : ℕ → σ} (hgood : ∀ k, Good k (legs k)) {cfg : MoldUdpReceiverConfig}
    {pools : List Leg} {inner : Inner (Loan ℕ η)} (hnew : fromLegs cfg pools = .ok inner) :
    (InPlace.start legs inner).Sound L Good Live := by
  obtain rfl := fromLegs_ok hnew
  have hring : ∀ view, view ∉ (Inner.fresh cfg pools : Inner (Loan ℕ η)).reassembler.payloads := by
    intro view hview
    obtain ⟨k, -, hslot⟩ := SequenceReassembler.mem_payloads.mp hview
    cases hstart : cfg.startSequence <;> simp [Inner.fresh, hstart, SequenceReassembler.new,
      SequenceReassembler.resetExpected] at hslot
  refine ⟨hgood, ⟨fun view hview ↦ absurd hview (hring view), ?_, ?_, ?_, ?_, ?_⟩, ?_, ?_, ?_, ?_⟩
  · exact List.forall_mem_nil _
  · exact fun item hitem ↦ absurd hitem (Option.not_mem_none item)
  · exact Held.all_empty
  · exact List.forall_mem_nil _
  · exact List.forall_mem_nil _
  · exact List.forall_mem_nil _
  · exact List.forall_mem_nil _
  · exact List.forall_mem_nil _
  · exact fun item hitem ↦ absurd hitem (Option.not_mem_none item)

theorem sound_of_run {allowed : InPlace σ η → Step ε η → Prop}
    (hL : ∀ k, (L k).Lawful (Good k) (Live k)) {legs : ℕ → σ} (hgood : ∀ k, Good k (legs k))
    {cfg : MoldUdpReceiverConfig} {pools : List Leg} {inner : Inner (Loan ℕ η)}
    (hnew : fromLegs cfg pools = .ok inner)
    (hrun : (machine L).Run allowed (start legs inner) d) : d.Sound L Good Live :=
  hrun.invariant (I := Sound L Good Live) (.start hgood hnew) fun _ _ _ h _ hnext ↦
    h.next hL hnext

/-- The session goes through a run of the copying receiver. -/
theorem inOrder_next {start : Option UInt64} (h : d.Sound L Good Live)
    (hinorder : d.session.InOrder start) {step : Step ε η} (horderly : d.Orderly step)
    (hnext : d.next L step = some d') : d'.session.InOrder start := by
  cases step with
  | leg k ev =>
      simp only [InPlace.next] at hnext
      split at hnext
      · obtain ⟨leg, -, rfl⟩ := Option.map_eq_some_iff.mp hnext
        refine hinorder.next (e := .land [] (d.session.inner.recvBatch ++
          Loan.made L d.legs k ev leg)) trivial ?_
        simp only [Session.next, List.append_nil]
      · cases hnext
  | drain k =>
      cases hnext
      exact hinorder.next (e := .land (d.session.inner.recvBatch.map fun loan ↦
        (UInt8.ofNat k, .frame loan)) []) trivial rfl
  | recover datagram =>
      cases hnext
      exact hinorder.next (e := .land [(d.session.inner.recoveryStream, .copied datagram)]
        d.session.inner.recvBatch) trivial rfl
  | client e => exact hinorder.next (Session.Orderly.steady horderly) (h.client hnext).2
  | forget i =>
      cases hnext
      exact hinorder

/-- What the caller gets, in place: the numbers handed out and queued are consecutive from the
anchor; each payload is the block of its number in a datagram that arrived; and what the caller
borrows, and every owned message it keeps, reads now as it did when it was handed out. -/
structure Delivers (L : ℕ → Lender σ ε η) (start : Option UInt64) (Arrived : List UInt8 → Prop)
    (d : InPlace σ η) : Prop where
  order : ∀ a, anchorOf start d.session.decoded = some a →
    handedNumbers d.session.handed ++ numbers d.session.inner.ready =
      List.range' a (d.session.inner.reassembler.expectedNext - a)
  blank : anchorOf start d.session.decoded = none →
    handedNumbers d.session.handed ++ numbers d.session.inner.ready = []
  genuine : ∀ outcome ∈ d.session.handed, ∀ n, outcome.number = some n →
    ∃ bytes datagram header, outcome.payload = some bytes ∧ Arrived datagram ∧
      parseHeader datagram = .ok header ∧ d.session.inner.session = some header.session ∧
      header.kind = .data ∧ header.sequence ≤ n ∧
      header.payload datagram (n - header.sequence) = some bytes
  borrowed : ∀ item ∈ d.session.inner.current, ∀ n, item.number = some n → ∃ payload streamId,
    d.session.handed.getLast? = some (.frame payload n streamId) ∧
      @Inner.borrowed _ (d.reading L) d.session.inner = some payload
  kept : ∀ view ∈ d.kept, @MessageView.asRef _ (d.reading L) view = view.asRef ∧
    ∃ n streamId, .owned view n streamId ∈ d.session.handed

theorem delivers_of_run (hL : ∀ k, (L k).Lawful (Good k) (Live k)) {legs : ℕ → σ}
    (hgood : ∀ k, Good k (legs k)) {cfg : MoldUdpReceiverConfig} {pools : List Leg}
    {inner : Inner (Loan ℕ η)} (hnew : fromLegs cfg pools = .ok inner)
    (hrun : (machine L).Run Orderly (start legs inner) d) {Arrived : List UInt8 → Prop}
    (hlegs : ∀ k, ∀ datagram ∈ (L k).offered (d.legs k), Arrived datagram)
    (hrecovered : ∀ datagram ∈ d.recovered, Arrived datagram) :
    d.Delivers L cfg.startSequence Arrived := by
  have hsound : d.Sound L Good Live := sound_of_run hL hgood hnew hrun
  have hinorder : d.session.InOrder cfg.startSequence :=
    Machine.Run.invariant_of (I := fun d ↦ d.session.InOrder cfg.startSequence)
      (fun _ ht ↦ sound_of_run hL hgood hnew ht) (Session.inOrder_start hnew)
      (fun _ _ _ hs hin horderly hnext ↦ inOrder_next hs hin horderly hnext) hrun
  refine ⟨fun a ha ↦ (hinorder.order a ha).2, hinorder.blank, fun outcome houtcome n hn ↦ ?_,
    fun item hitem n hn ↦ ?_, fun view hview ↦ ?_⟩
  · obtain ⟨bytes, hpayload, p, hp, header, hparse, hgenuine⟩ :=
      hinorder.handed outcome houtcome n hn
    refine ⟨bytes, p.2.asRef, header, hpayload, ?_, hparse, hgenuine⟩
    have horigin := hsound.origin p (List.mem_append_left _ hp)
    revert horigin
    cases p.2 with
    | frame loan => exact fun h ↦ hlegs _ _ (Loan.Recorded.mem_offered h hL hsound.good)
    | copied datagram => exact hrecovered datagram
  · obtain ⟨payload, streamId, hlast, hborrowed⟩ := hsound.last item hitem n hn
    exact ⟨payload, streamId, hlast, (Inner.borrowed_congr hsound.agree).trans hborrowed⟩
  · obtain ⟨hall, howned⟩ := hsound.kept view hview
    exact ⟨MessageView.asRef_congr fun loan hloan ↦ (hall loan hloan).2, howned⟩

end InPlace

end MoldUdp
