import PolarisTrade.MoldUdp.InOrder
import PolarisTrade.MoldUdp.Noticing

/-!
# Datagrams that no insert cuts off

The ring refuses a block whose slot holds another number, and the refusal ends the block
loop.  Whether that can happen shows before the decode: if every block ahead of
`expected_next` finds its slot free or holding its own number, and no two share one, the loop
runs to its end.  A refusal does harm only behind a block of the same datagram that was in
order: that block is queued as a range of a datagram nobody keeps.
-/

namespace MoldUdp

open Transport Word

/-! ## Slots -/

namespace SequenceReassembler

variable {S : Type} {r : SequenceReassembler S} {n : ℕ}

/-- The slot of `seq` is free or holds `seq` itself. -/
def Admits (r : SequenceReassembler S) (seq : ℕ) : Prop :=
  (r.slots (r.slotIndex seq)).payload.isSome → (r.slots (r.slotIndex seq)).seq = seq

instance (r : SequenceReassembler S) (seq : ℕ) : Decidable (r.Admits seq) :=
  inferInstanceAs (Decidable (_ → _))

/-- Draining only empties slots. -/
theorem slots_drain {fuel i : ℕ} (h : ((drain fuel r).2.slots i).payload.isSome) :
    (drain fuel r).2.slots i = r.slots i := by
  induction fuel generalizing r with
  | zero => rfl
  | succ fuel ih =>
      rw [drain_succ] at h ⊢
      cases hheld : r.lookup r.expectedNext with
      | none => rfl
      | some payload =>
          rw [hheld] at h
          have htake := ih h
          dsimp only at h ⊢
          rw [htake] at h ⊢
          refine Function.update_of_ne ?_ _ _
          rintro rfl
          simp [take] at h

theorem Admits.drain {fuel : ℕ} (h : r.Admits n) : (drain fuel r).2.Admits n := by
  intro hsome
  rw [slotIndex, capacity_drain] at hsome ⊢
  have hslot := slots_drain hsome
  rw [hslot] at hsome ⊢
  exact h hsome

theorem Admits.store {seq : ℕ} (h : r.Admits n) (slab : S)
    (hne : r.slotIndex n ≠ r.slotIndex seq) : (r.store seq slab).Admits n := by
  have hslot : (r.store seq slab).slots ((r.store seq slab).slotIndex n) =
      r.slots (r.slotIndex n) := Function.update_of_ne hne _ _
  unfold Admits
  rw [hslot]
  exact h

end SequenceReassembler

/-! ## The block loop -/

namespace Decoding

variable {F : Type} {d : Decoding F} {first : ℕ}

/-- The numbers `ns` lie on different slots, and each past `first` is admitted by its own. -/
structure Clear (d : Decoding F) (first : ℕ) (ns : List ℕ) : Prop where
  apart : ns.Pairwise fun m n ↦
    d.inner.reassembler.slotIndex m ≠ d.inner.reassembler.slotIndex n
  admits : ∀ n ∈ ns, first < n → d.inner.reassembler.Admits n

/-- Admitting numbers off the slot `k` and keeping the ring's size is all `Clear` needs. -/
theorem Clear.next {d' : Decoding F} {n : ℕ} {ns : List ℕ} (h : d.Clear first (n :: ns))
    (hcapacity : d'.inner.reassembler.capacity = d.inner.reassembler.capacity)
    (hadmits : ∀ m, d.inner.reassembler.slotIndex m ≠ d.inner.reassembler.slotIndex n →
      d.inner.reassembler.Admits m → d'.inner.reassembler.Admits m) : d'.Clear first ns := by
  obtain ⟨hn, hns⟩ := List.pairwise_cons.mp h.apart
  refine ⟨?_, fun m hm hlt ↦ ?_⟩
  · unfold SequenceReassembler.slotIndex
    rw [hcapacity]
    exact hns
  · exact hadmits m (hn m hm).symm (h.admits m (List.mem_cons_of_mem n hm) hlt)

theorem Clear.place {b : Block} {ns : List ℕ} (h : d.Clear first (b.seq :: ns))
    (hle : first ≤ d.inner.reassembler.expectedNext) (streamId : UInt8) :
    (d.place streamId b).1 = .ok () ∧ (d.place streamId b).2.Clear first ns := by
  unfold Decoding.place
  cases hcompare : compare b.seq d.inner.reassembler.expectedNext with
  | eq =>
      refine ⟨rfl, h.next ?_ fun m _ hm ↦ ?_⟩
      · exact SequenceReassembler.capacity_drain _ _
      · exact SequenceReassembler.Admits.drain (r := d.inner.reassembler.advanceExpected 1) hm
  | lt => exact ⟨rfl, h.next rfl fun _ _ hm ↦ hm⟩
  | gt =>
      have hlt := compare_gt_iff_gt.mp hcompare
      have hadmits := h.admits b.seq List.mem_cons_self (hle.trans_lt hlt)
      dsimp only
      unfold Decoding.buffer
      rcases d.inner.reassembler.insert_cases b.seq ⟨d.backing.share.2, b.offset, b.len⟩ with
        ⟨hstale, -⟩ | ⟨-, -, hinsert⟩ | ⟨-, -, hsome, hne, -⟩ | ⟨-, -, -, hinsert⟩
      · omega
      · rw [hinsert]
        exact ⟨rfl, h.next rfl fun _ _ hm ↦ hm⟩
      · exact (hne (hadmits hsome)).elim
      · have hahead : decide (b.seq = d.inner.reassembler.expectedNext) = false := by
          simp only [decide_eq_false_iff_not]
          omega
        rw [hinsert, hahead]
        exact ⟨rfl, h.next rfl fun m hm hadmit ↦ hadmit.store _ hm⟩

theorem Clear.decodeBlock {b : Block} {ns : List ℕ} (h : d.Clear first (b.seq :: ns))
    (hle : first ≤ d.inner.reassembler.expectedNext) (streamId : UInt8) (now : Option Instant) :
    (decodeBlock streamId now b d).1 = .ok () ∧
      (decodeBlock streamId now b d).2.Clear first ns := by
  have hring := observe_reassembler d.inner streamId b.seq now
  unfold Decoding.decodeBlock
  generalize d.inner.observe streamId b.seq now = observed at hring ⊢
  obtain ⟨verdict, inner⟩ := observed
  dsimp only at hring
  have hsame : Clear { d with inner := inner } first (b.seq :: ns) := by
    refine ⟨?_, ?_⟩
    · rw [hring]
      exact h.apart
    · rw [hring]
      exact h.admits
  cases verdict with
  | duplicate => exact ⟨rfl, hsame.next rfl fun _ _ hm ↦ hm⟩
  | outOfWindow => exact ⟨rfl, hsame.next rfl fun _ _ hm ↦ hm⟩
  | forward =>
      exact Clear.place (d := { d with inner := inner.markReceived b.seq })
        ⟨hsame.apart, hsame.admits⟩ (hring.symm ▸ hle) streamId

/-- A loop over blocks that all find their slots runs to its end. -/
theorem Clear.decodeBlocks (streamId : UInt8) (now : Option Instant) {todo : List Block}
    (hfit : ∀ b ∈ todo, b.seq + 1 < 2 ^ 64) :
    ∀ {d : Decoding F}, d.Consecutive first → d.Clear first (todo.map Block.seq) →
      (Decoding.decodeBlocks streamId now todo d).1 = .ok () ∧
        Decoding.cutOff streamId now todo d = [] := by
  induction todo with
  | nil => exact fun _ _ ↦ ⟨rfl, rfl⟩
  | cons b todo ih =>
      intro d hcons hclear
      obtain ⟨hfit₁, hfits⟩ := List.forall_mem_cons.mp hfit
      have hcons₁ := hcons.decodeBlock streamId now hfit₁
      obtain ⟨hok, hclear₁⟩ := hclear.decodeBlock hcons.le streamId now
      unfold Decoding.decodeBlocks cutOff
      generalize Decoding.decodeBlock streamId now b d = decoded at hcons₁ hok hclear₁ ⊢
      obtain ⟨_ | _, d'⟩ := decoded
      · cases hok
      · exact ih hfits hcons₁ hclear₁

/-- A block ahead of `expected_next` is not delivered, whether or not it is buffered. -/
theorem decodeBlock_ahead (streamId : UInt8) (now : Option Instant) {b : Block}
    (hb : d.inner.reassembler.expectedNext < b.seq) :
    (decodeBlock streamId now b d).2.inline = d.inline ∧
      (decodeBlock streamId now b d).2.inner.reassembler.expectedNext =
        d.inner.reassembler.expectedNext := by
  have hring := observe_reassembler d.inner streamId b.seq now
  unfold Decoding.decodeBlock
  generalize d.inner.observe streamId b.seq now = observed at hring ⊢
  obtain ⟨verdict, inner⟩ := observed
  dsimp only at hring
  rw [← hring] at hb ⊢
  cases verdict with
  | duplicate => exact ⟨rfl, rfl⟩
  | outOfWindow => exact ⟨rfl, rfl⟩
  | forward =>
      dsimp only
      unfold Decoding.place
      rw [show compare b.seq (inner.markReceived b.seq).reassembler.expectedNext = .gt from
        compare_gt_iff_gt.mpr hb]
      dsimp only
      unfold Decoding.buffer
      dsimp only
      rcases (inner.markReceived b.seq).reassembler.insert_cases b.seq
          ⟨d.backing.share.2, b.offset, b.len⟩ with
        ⟨-, hinsert⟩ | ⟨-, -, hinsert⟩ | ⟨-, -, -, -, hinsert⟩ | ⟨-, -, -, hinsert⟩
      · rw [hinsert]
        exact ⟨rfl, rfl⟩
      · rw [hinsert]
        exact ⟨rfl, rfl⟩
      · rw [hinsert]
        exact ⟨rfl, rfl⟩
      · have hne : decide (b.seq = (inner.markReceived b.seq).reassembler.expectedNext) = false :=
          decide_eq_false (ne_of_gt hb)
        rw [hinsert, hne]
        exact ⟨rfl, rfl⟩

theorem decodeBlocks_ahead (streamId : UInt8) (now : Option Instant) {todo : List Block} :
    ∀ {d : Decoding F}, (∀ b ∈ todo, d.inner.reassembler.expectedNext < b.seq) →
      (Decoding.decodeBlocks streamId now todo d).2.inline = d.inline := by
  induction todo with
  | nil => exact fun _ ↦ rfl
  | cons b todo ih =>
      intro d hahead
      obtain ⟨hb, hrest⟩ := List.forall_mem_cons.mp hahead
      obtain ⟨hinline, hnext⟩ := decodeBlock_ahead streamId now hb
      unfold Decoding.decodeBlocks
      generalize Decoding.decodeBlock streamId now b d = decoded at hinline hnext ⊢
      obtain ⟨_ | _, d'⟩ := decoded
      · exact hinline
      · exact (ih (hnext ▸ hrest)).trans hinline

end Decoding

/-! ## The datagram up next -/

variable {F : Type} [AsRef F]

theorem wholeBlocks_eq_some {datagram : Held F} {header : DownstreamHeader} {blocks : List Block}
    (h : wholeBlocks datagram header = some blocks) : header.kind = .data ∧
      numberBlocks header.sequence (header.blocks datagram.asRef) = (blocks, .ok ()) := by
  unfold wholeBlocks at h
  split at h
  · next hkind hnumber =>
      cases h
      exact ⟨hkind, hnumber⟩
  · cases h

namespace Inner

/-- Header of the datagram up next, if the receiver accepts it. -/
def nextHeader (i : Inner F) : Option DownstreamHeader :=
  i.pendingDatagrams.head?.bind fun p ↦ i.headerOf p.2

/-- Every number of a data datagram up next has a successor. -/
def NextFits (i : Inner F) : Prop :=
  ∀ header ∈ i.nextHeader, header.kind = .data → header.Fits

instance (i : Inner F) : Decidable i.NextFits :=
  inferInstanceAs (Decidable (∀ header ∈ i.nextHeader,
    _ → header.sequence + header.messageCount < 2 ^ 64))

/-- No two numbers of the datagram up next share a slot of the ring, and the slot of each
that is ahead of `expected_next` is free or holds that number. -/
def Clear (i : Inner F) : Prop :=
  (i.carried.Pairwise fun m n ↦ i.reassembler.slotIndex m ≠ i.reassembler.slotIndex n) ∧
    ∀ n ∈ i.carried, (i.seqAnchored = true → i.reassembler.expectedNext < n) →
      i.reassembler.Admits n

instance (i : Inner F) : Decidable i.Clear := inferInstanceAs (Decidable (_ ∧ _))

/-- Nothing in the datagram up next is in order. -/
def Ahead (i : Inner F) : Prop :=
  i.seqAnchored = true ∧ ∀ n ∈ i.carried, i.reassembler.expectedNext < n

instance (i : Inner F) : Decidable i.Ahead := inferInstanceAs (Decidable (_ ∧ _))

section UpNext

variable {i : Inner F} {streamId : UInt8} {datagram : Held F} {rest : List (UInt8 × Held F)}
  {header : DownstreamHeader} {blocks : List Block}

theorem nextHeader_eq (hpop : i.pendingDatagrams = (streamId, datagram) :: rest)
    (hparse : parseHeader datagram.asRef = .ok header)
    (hsession : i.session = none ∨ i.session = some header.session) :
    i.nextHeader = some header := by
  rw [nextHeader, hpop]
  exact headerOf_eq hparse hsession

theorem carried_eq (hpop : i.pendingDatagrams = (streamId, datagram) :: rest)
    (hparse : parseHeader datagram.asRef = .ok header)
    (hsession : i.session = none ∨ i.session = some header.session)
    (hkind : header.kind = .data)
    (hnumber : numberBlocks header.sequence (header.blocks datagram.asRef) = (blocks, .ok ())) :
    i.carried = blocks.map Block.seq := by
  unfold carried
  rw [hpop]
  dsimp only
  rw [numbersIn, headerOf_eq hparse hsession, Option.bind_some, wholeBlocks, hkind, hnumber]

theorem headerOf_eq_some (h : i.headerOf datagram = some header) :
    parseHeader datagram.asRef = .ok header ∧
      (i.session = none ∨ i.session = some header.session) := by
  unfold headerOf at h
  split at h
  · cases h
  · next hparse =>
      split at h
      · next hsession =>
          cases h
          exact ⟨hparse, hsession⟩
      · cases h

theorem NextFits.range (h : i.NextFits) : i.HeadFits := by
  intro p hp header hparse hsession hkind
  obtain ⟨rest, hpop⟩ := List.head?_eq_some_iff.mp hp
  exact h header (nextHeader_eq hpop hparse hsession) hkind

omit [AsRef F] in
theorem slots_accepted (i : Inner F) (rest : List (UInt8 × Held F)) (header : DownstreamHeader) :
    (i.accepted rest header).reassembler.slots = i.reassembler.slots ∧
      (i.accepted rest header).reassembler.capacity = i.reassembler.capacity := by
  unfold accepted anchor
  split <;> exact ⟨rfl, rfl⟩

/-- What is clear before the decode is clear when the loop is entered. -/
theorem Clear.enterLoop (h : i.Clear)
    (hpop : i.pendingDatagrams = (streamId, datagram) :: rest)
    (hparse : parseHeader datagram.asRef = .ok header)
    (hsession : i.session = none ∨ i.session = some header.session)
    (hkind : header.kind = .data)
    (hnumber : numberBlocks header.sequence (header.blocks datagram.asRef) = (blocks, .ok ()))
    (now : Option Instant) :
    (Inner.enterLoop { i.accepted rest header with blocks := blocks } header datagram
      now).Clear (i.accepted rest header).reassembler.expectedNext (blocks.map Block.seq) := by
  have hring : (Inner.enterLoop { i.accepted rest header with blocks := blocks } header datagram
      now).inner.reassembler = (i.accepted rest header).reassembler := reassembler_noteJump _ _ _
  obtain ⟨hslots, hcapacity⟩ := i.slots_accepted rest header
  obtain ⟨hapart, hadmits⟩ := h
  rw [carried_eq hpop hparse hsession hkind hnumber] at hapart hadmits
  refine ⟨?_, fun n hn hlt ↦ ?_⟩
  · unfold SequenceReassembler.slotIndex
    rw [hring, hcapacity]
    exact hapart
  · have hadmit := hadmits n hn fun hanchored ↦ by
      rwa [expectedNext_accepted, if_pos hanchored] at hlt
    unfold SequenceReassembler.Admits SequenceReassembler.slotIndex
    rw [hring, hslots, hcapacity]
    exact hadmit

/-- A clear datagram is decoded to its end. -/
theorem Clear.decodeBlocks (h : i.Clear) (hready : i.ready = []) (hfits : i.RingFits)
    (hnext : i.NextFits) (hpop : i.pendingDatagrams = (streamId, datagram) :: rest)
    (hparse : parseHeader datagram.asRef = .ok header)
    (hsession : i.session = none ∨ i.session = some header.session)
    (hkind : header.kind = .data)
    (hnumber : numberBlocks header.sequence (header.blocks datagram.asRef) = (blocks, .ok ()))
    (now : Option Instant) :
    (Decoding.decodeBlocks streamId now blocks
        (Inner.enterLoop { i.accepted rest header with blocks := blocks } header datagram
          now)).1 = .ok () ∧
      Decoding.cutOff streamId now blocks
        (Inner.enterLoop { i.accepted rest header with blocks := blocks } header datagram
          now) = [] := by
  have hrange := hnext header (nextHeader_eq hpop hparse hsession) hkind
  obtain ⟨-, hfit⟩ := numberedFrom_blocks hparse hrange hnumber
  have hfits₁ : (i.accepted rest header).RingFits := by
    intro s hs
    rw [lookup_accepted] at hs
    exact hfits s hs
  exact Decoding.Clear.decodeBlocks streamId now hfit
    (consecutive_enterLoop (i := { i.accepted rest header with blocks := blocks })
      ((i.ready_accepted rest header).trans hready) hfits₁ header datagram now)
    (h.enterLoop hpop hparse hsession hkind hnumber now)

end UpNext

theorem Clear.failsEmpty {i : Inner F} (h : i.Clear) (hready : i.ready = [])
    (hfits : i.RingFits) (hnext : i.NextFits) (now : Option Instant) (e : MoldUdpError) :
    i.FailsEmpty now e := by
  intro streamId datagram rest header blocks d hpop hparse hsession hkind hnumber hloop
  have hok := (h.decodeBlocks hready hfits hnext hpop hparse hsession hkind hnumber now).1
  rw [hloop] at hok
  cases hok

theorem Ahead.failsEmpty {i : Inner F} (h : i.Ahead) (now : Option Instant)
    (e : MoldUdpError) : i.FailsEmpty now e := by
  intro streamId datagram rest header blocks d hpop hparse hsession hkind hnumber hloop
  obtain ⟨hanchored, hahead⟩ := h
  rw [carried_eq hpop hparse hsession hkind hnumber] at hahead
  have hinline := Decoding.decodeBlocks_ahead streamId now
    (d := Inner.enterLoop { i.accepted rest header with blocks := blocks } header datagram now)
    (fun b (hb : b ∈ blocks) ↦ by
      change (noteJump _ _ _).reassembler.expectedNext < _
      rw [reassembler_noteJump]
      change (i.accepted rest header).reassembler.expectedNext < _
      rw [expectedNext_accepted, if_pos hanchored]
      exact hahead _ (List.mem_map_of_mem hb))
  rw [hloop] at hinline
  exact hinline

/-- A clear datagram has nothing cut off. -/
theorem Clear.cutOff {i : Inner F} (h : i.Clear) (hready : i.ready = []) (hfits : i.RingFits)
    (hnext : i.NextFits) (now : Option Instant) : i.cutOff now = [] := by
  unfold Inner.cutOff
  cases hpop : i.pendingDatagrams with
  | nil => rfl
  | cons p rest =>
      obtain ⟨streamId, datagram⟩ := p
      dsimp only
      cases hheader : i.headerOf datagram with
      | none => rfl
      | some header =>
          dsimp only
          cases hwhole : wholeBlocks datagram header with
          | none => rfl
          | some blocks =>
              obtain ⟨hparse, hsession⟩ := headerOf_eq_some hheader
              obtain ⟨hkind, hnumber⟩ := wholeBlocks_eq_some hwhole
              dsimp only
              rw [(h.decodeBlocks hready hfits hnext hpop hparse hsession hkind hnumber now).2]
              rfl

end Inner

/-! ## Whole runs -/

/-- As long as every datagram decoded leaves its numbers a successor, so does the ring. -/
theorem Session.ringFits_next {s t : Session F} {e : Event F} (h : s.inner.RingFits)
    (hnext : ∀ now, e = .decode now → s.inner.NextFits) (hstep : s.next e = some t) :
    t.inner.RingFits := by
  by_cases hdecode : ∀ now, e ≠ .decode now
  · intro n hn
    rw [((Session.step_of_next hstep).sameTracking hdecode).1.reassembler] at hn
    exact h n hn
  · cases Session.step_of_next hstep with
    | decode now hready hcurrent =>
        have hrange : s.inner.NextFits := hnext now rfl
        rcases s.inner.decodeNext_ordered (P := fun _ _ ↦ True) now hready h
            (fun _ _ _ ↦ trivial) hrange.range
            (fun _ _ _ _ _ _ _ _ _ _ _ _ ↦ trivial) with
          ⟨-, hring, -⟩ | ⟨_, _, _, _, -, -, -, -, hqueues⟩
        · intro n hn
          rw [show _ = s.inner.reassembler from hring] at hn
          exact h n hn
        · exact hqueues.fits
    | _ => exact (hdecode fun now ↦ by simp).elim

/-- Events that strand no borrowed item: the numbers of the datagram up next have
successors, and it comes in on the only leg, or none of it is in order, or no insert of it can
be refused. -/
def Session.Sheltered (s : Session F) : Event F → Prop
  | .decode _ =>
      s.inner.NextFits ∧ (s.inner.arbiter = none ∨ s.inner.Ahead ∨ s.inner.Clear)
  | _ => True

instance (s : Session F) : ∀ e, Decidable (s.Sheltered e)
  | .decode _ => inferInstanceAs (Decidable (_ ∧ (_ ∨ _)))
  | .retire => .isTrue trivial
  | .land .. => .isTrue trivial
  | .yieldItem => .isTrue trivial
  | .yieldOwned => .isTrue trivial

theorem Session.Sheltered.not_strands {s : Session F} {now : Instant}
    (h : s.Sheltered (.decode now)) (hready : s.inner.ready = []) (hfits : s.inner.RingFits) :
    ¬ s.inner.Strands now := by
  obtain ⟨hnext, hone | hahead | hclear⟩ := h
  · exact Inner.not_strands hready fun e _ ↦
      Inner.failsEmpty_of_oneLeg e hone hready hfits hnext.range
  · exact Inner.not_strands hready fun e _ ↦ hahead.failsEmpty _ e
  · exact Inner.not_strands hready fun e _ ↦ hclear.failsEmpty hready hfits hnext _ e

/-- Count and ring along a run of sheltered decodes. -/
theorem Session.backed_of_run {cfg : MoldUdpReceiverConfig} {legs : List Leg} {inner : Inner F}
    {s : Session F} (hnew : fromLegs cfg legs = .ok inner)
    (hrun : (machine F).Run Session.Sheltered (Session.start inner) s) :
    s.Backed ∧ s.inner.RingFits := by
  refine hrun.invariant (I := fun s ↦ s.Backed ∧ s.inner.RingFits)
    ⟨backed_start hnew, (inOrder_start hnew).fits⟩ ?_
  rintro s e t ⟨hbacked, hfits⟩ hsheltered hstep
  refine ⟨hbacked.next ?_ hstep, ringFits_next hfits ?_ hstep⟩
  · cases Session.step_of_next hstep with
    | decode now hready hcurrent => exact hsheltered.not_strands hready hfits
    | _ => trivial
  · rintro now rfl
    exact hsheltered.1

/-- Inline bookkeeping.  As long as no decode can be refused an insert behind a block that was
in order, the count is the number of items that borrow from the backing datagram, and each of
them is a range inside `backing`, which is the datagram it was decoded from: handing it out
never slices out of range and giving it back never underflows. -/
theorem inline_bookkeeping {cfg : MoldUdpReceiverConfig} {legs : List Leg} {inner : Inner F}
    {s : Session F} (hnew : fromLegs cfg legs = .ok inner)
    (hrun : (machine F).Run Session.Sheltered (Session.start inner) s) :
    s.inner.inlinePending = s.inner.outstanding.length ∧
    (∀ b ∈ s.inner.outstanding, b.offset + b.len ≤ s.inner.backing.bytes.length ∧
      ∃ streamId, s.decoded.getLast? = some (streamId, s.inner.backing.held) ∧
        Carries s.inner.backing.held b) ∧
    (∀ item rest, s.inner.ready = item :: rest → item.borrowed.isSome →
      (Inner.yieldItem { s.inner with ready := rest } item).isSome ∧ 0 < s.inner.inlinePending) ∧
    ∀ item ∈ s.inner.current, item.borrowed.isSome → 0 < s.inner.inlinePending := by
  obtain ⟨h, -⟩ := Session.backed_of_run hnew hrun
  have hpos : ∀ item ∈ s.inner.current.toList ++ s.inner.ready, item.borrowed.isSome →
      ∃ b ∈ s.inner.outstanding, item.borrowed = some b ∧ 0 < s.inner.inlinePending := by
    intro item hmem hsome
    obtain ⟨b, hb⟩ := Option.isSome_iff_exists.mp hsome
    have hout : b ∈ s.inner.outstanding := List.mem_filterMap.mpr ⟨item, hmem, hb⟩
    exact ⟨b, hout, hb, h.pending ▸ List.length_pos_of_mem hout⟩
  refine ⟨h.pending, fun b hb ↦ ⟨?_, h.inside b hb⟩, ?_, ?_⟩
  · obtain ⟨bytes, hslice⟩ := Option.isSome_iff_exists.mp (h.slice_isSome hb)
    exact (slice_eq_some_iff.mp hslice).1
  · intro item rest hready hsome
    obtain ⟨b, hout, hb, hcount⟩ := hpos item (by simp [hready]) hsome
    refine ⟨?_, hcount⟩
    cases item with
    | inline sequence streamId offset len =>
        obtain rfl := Option.some.inj hb
        exact Option.isSome_map.trans (h.slice_isSome hout)
    | view => cases hb
    | event => cases hb
    | gap => cases hb
  · intro item hitem hsome
    obtain ⟨-, -, -, hcount⟩ := hpos item (by simp [Option.mem_def.mp hitem]) hsome
    exact hcount

/-- 3 waits in the ring when 1 and 2 come in one packet on the other leg; the first of them is
in the caller's hands. -/
def sampleBorrowed : List (Event (List UInt8)) :=
  [.land [(0, .frame (moldPacket sampleSession 3 [3])),
      (1, .frame (moldMultiPacket sampleSession 1 [[7], [8, 9]]))] [],
    .decode 0, .decode 0, .yieldItem]

theorem inline_bookkeeping_borrowed :
    ∃ s : Session (List UInt8),
      Machine.follow Session.next (Session.start sampleTwoLegs) sampleBorrowed = some s ∧
      s.inner.outstanding.length = 2 ∧ s.inner.inlinePending = 2 := by
  have hend : ∃ s ∈ Machine.follow Session.next (Session.start sampleTwoLegs) sampleBorrowed,
      s.inner.outstanding.length = 2 := by decide +kernel
  obtain ⟨s, hs, hout⟩ := hend
  have hallowed : Machine.AllowedAlong Session.next Session.Sheltered
      (Session.start sampleTwoLegs) sampleBorrowed := by decide +kernel
  obtain ⟨hpending, -⟩ := @inline_bookkeeping _ _ { startSequence := some 1 }
    [⟨minLegPoolCapacity⟩, ⟨minLegPoolCapacity⟩] _ _ rfl (Machine.Run.of_follow hallowed hs)
  exact ⟨s, hs, hout, hpending.trans hout⟩

/-- 4098 and 4099 fill slots 2 and 3 of the ring and move the window past 1, 2 and 3, which
are staged.  Then 2 is forwarded and refused, and of 1, 2 and 3 in one packet the first is
queued, the second dropped and the third refused. -/
def sampleStranded : List (Event (List UInt8)) :=
  [.land [(0, .frame (moldHeartbeat sampleSession 4098)),
      (0, .frame (moldMultiPacket sampleSession 4098 [[7], [8]])),
      (0, .frame (moldPacket sampleSession 2 [2])),
      (0, .frame (moldMultiPacket sampleSession 1 [[1], [2], [3]]))] [],
    .decode 0, .yieldItem, .retire, .yieldItem, .retire, .decode 0, .decode 0, .decode 0]

/-- The item for 1 is left with nothing behind it: handing it out slices out of range. -/
theorem stranded_item_out_of_range :
    ∃ s : Session (List UInt8), Session.Reaches (Session.start sampleTwoLegs) s ∧
      s.inner.inlinePending = 0 ∧ s.inner.outstanding.length = 1 ∧ s.inner.current = none ∧
      ∃ item ∈ s.inner.ready.head?,
        (Inner.yieldItem { s.inner with ready := s.inner.ready.tail } item).isNone = true := by
  exact Machine.Run.exists_of_follow sampleStranded (by decide +kernel)

end MoldUdp
