import PolarisTrade.MoldUdp.Inline

/-!
# In-order delivery

The numbers handed out, followed by the numbers still queued, are the consecutive
numbers from the anchor up to `expected_next`.  Inside the block loop this is a
statement about the items queued so far; between decode steps it is one about the
whole session.
-/

namespace MoldUdp

open Transport Word

variable {F : Type}

/-- Number of a message item; events and gaps have none. -/
def ReadyItem.number : ReadyItem F → Option ℕ
  | .inline sequence .. => some sequence
  | .view _ sequence _ => some sequence
  | _ => none

def numbers (items : List (ReadyItem F)) : List ℕ := items.filterMap ReadyItem.number

@[simp] theorem numbers_nil : numbers ([] : List (ReadyItem F)) = [] := rfl

@[simp] theorem numbers_append (xs ys : List (ReadyItem F)) :
    numbers (xs ++ ys) = numbers xs ++ numbers ys := List.filterMap_append

@[simp] theorem numbers_inline (sequence offset len : ℕ) (streamId : UInt8)
    (items : List (ReadyItem F)) :
    numbers (.inline sequence streamId offset len :: items) = sequence :: numbers items := rfl

@[simp] theorem numbers_view (view : MessageView F) (sequence : ℕ) (streamId : UInt8)
    (items : List (ReadyItem F)) :
    numbers (.view view sequence streamId :: items) = sequence :: numbers items := rfl

@[simp] theorem numbers_event (ev : MoldUdpEvent) (items : List (ReadyItem F)) :
    numbers (.event ev :: items) = numbers items := rfl

@[simp] theorem numbers_gap (items : List (ReadyItem F)) :
    numbers (.gap :: items) = numbers items := rfl

theorem numbers_gaps {α : Type} (confirmed : List α) :
    numbers (confirmed.map fun _ ↦ (.gap : ReadyItem F)) = [] := by
  induction confirmed with
  | nil => rfl
  | cons _ confirmed ih => exact ih

theorem numbers_viewItems (streamId : UInt8) (views : List (MessageView F)) :
    ∀ {seq : ℕ}, seq + views.length < 2 ^ 64 →
      numbers (viewItems streamId seq views) = List.range' seq views.length := by
  induction views with
  | nil => intro seq _; rfl
  | cons view views ih =>
      intro seq hfit
      rw [List.length_cons] at hfit ⊢
      rw [viewItems, wrappingAdd_of_lt (by omega), numbers_view, ih (by omega),
        List.range'_succ]

/-! ## The block loop -/

/-- Every number in the ring has a successor. -/
def Inner.RingFits (i : Inner F) : Prop :=
  ∀ s, (i.reassembler.lookup s).isSome → s + 1 < 2 ^ 64

/-- The items queued since the loop was entered at `first` run up to `expected_next`. -/
structure Decoding.Consecutive (d : Decoding F) (first : ℕ) : Prop where
  le : first ≤ d.inner.reassembler.expectedNext
  queued : numbers d.inner.ready =
    List.range' first (d.inner.reassembler.expectedNext - first)
  fits : d.inner.RingFits

namespace Decoding

variable {d : Decoding F} {first : ℕ}

/-- Delivering the block at `expected_next`: its item, then the views that were waiting
right behind it, which leave the ring. -/
theorem deliver_spec (hfits : d.inner.RingFits) (streamId : UInt8) {b : Block}
    (hb : b.seq = d.inner.reassembler.expectedNext) (hfit : b.seq + 1 < 2 ^ 64) :
    ∃ views, (d.deliver streamId b).inner.ready = d.inner.ready ++
        .inline b.seq streamId b.offset b.len :: viewItems streamId (b.seq + 1) views ∧
      (d.deliver streamId b).inner.reassembler.expectedNext = b.seq + 1 + views.length ∧
      b.seq + 1 + views.length < 2 ^ 64 ∧
      (∀ j, j < views.length →
        d.inner.reassembler.lookup (b.seq + 1 + j) = views[j]?) ∧
      (∀ s, (d.deliver streamId b).inner.reassembler.lookup s =
        if b.seq + 1 ≤ s ∧ s < b.seq + 1 + views.length then none
        else d.inner.reassembler.lookup s) ∧
      (d.deliver streamId b).inner.reassembler.lookup (b.seq + 1 + views.length) = none := by
  set r := d.inner.reassembler.advanceExpected 1 with hr
  have hnext : r.expectedNext = b.seq + 1 := by
    rw [hr, SequenceReassembler.expectedNext_advanceExpected, ← hb, wrappingAdd_of_lt hfit]
  have hring : ∀ s, (r.lookup s).isSome → s + 1 < 2 ^ 64 := by
    intro s hs
    rw [hr, SequenceReassembler.lookup_advanceExpected] at hs
    exact hfits s hs
  obtain ⟨hexp, hpay, hlook⟩ := @SequenceReassembler.drain_spec _ r.capacity _ hring
  have hend := SequenceReassembler.lookup_expectedNext_drain r.card_occupied_le
  rw [hexp] at hend
  rw [hnext] at hexp hpay hlook hend
  refine ⟨(SequenceReassembler.drain r.capacity r).1, ?_, hexp, ?_, ?_, ?_, hend⟩
  · rw [← wrappingAdd_of_lt hfit]
    rfl
  · -- the last drained number was in the ring, so it has a successor
    rcases Nat.eq_zero_or_pos (SequenceReassembler.drain r.capacity r).1.length with hzero | hpos
    · omega
    · have hlast := hpay ((SequenceReassembler.drain r.capacity r).1.length - 1) (by omega)
      rw [List.getElem?_eq_getElem (by omega)] at hlast
      have := hring _ (Option.isSome_iff_exists.mpr ⟨_, hlast⟩)
      omega
  · intro j hj
    rw [← hpay j hj, hr, SequenceReassembler.lookup_advanceExpected]
  · intro s
    refine (hlook s).trans ?_
    rw [hr, SequenceReassembler.lookup_advanceExpected]

theorem Consecutive.deliver (h : d.Consecutive first) (streamId : UInt8) {b : Block}
    (hb : b.seq = d.inner.reassembler.expectedNext) (hfit : b.seq + 1 < 2 ^ 64) :
    (d.deliver streamId b).Consecutive first := by
  obtain ⟨views, hready, hexp, hroom, -, hlook, -⟩ := deliver_spec h.fits streamId hb hfit
  have hle := h.le
  refine ⟨?_, ?_, ?_⟩
  · rw [hexp]
    omega
  · rw [hready, hexp, numbers_append, numbers_inline, h.queued,
      numbers_viewItems streamId views hroom, ← hb]
    have hsplit : b.seq + 1 + views.length - first = (b.seq - first) + (views.length + 1) := by
      omega
    have hstart : first + (b.seq - first) = b.seq := by omega
    rw [hsplit, ← List.range'_append_1, hstart, List.range'_succ]
  · intro s hs
    rw [hlook] at hs
    split at hs
    · simp at hs
    · exact h.fits s hs

theorem Consecutive.buffer (h : d.Consecutive first) (streamId : UInt8) {b : Block}
    (hb : d.inner.reassembler.expectedNext < b.seq) (hfit : b.seq + 1 < 2 ^ 64) :
    (d.buffer streamId b).2.Consecutive first := by
  unfold Decoding.buffer
  rcases d.inner.reassembler.insert_cases b.seq ⟨d.backing.share.2, b.offset, b.len⟩ with
    ⟨hlt, -⟩ | ⟨-, -, hinsert⟩ | ⟨-, -, -, -, hinsert⟩ | ⟨-, hnone, hfree, hinsert⟩
  · omega
  · rw [hinsert]
    exact ⟨h.le, h.queued, h.fits⟩
  · rw [hinsert]
    exact ⟨h.le, h.queued, h.fits⟩
  · have hahead : decide (b.seq = d.inner.reassembler.expectedNext) = false := by
      simp only [decide_eq_false_iff_not]
      omega
    rw [hinsert, hahead]
    refine ⟨h.le, h.queued, fun s hs ↦ ?_⟩
    have hs' : ((d.inner.reassembler.store b.seq ⟨d.backing.share.2, b.offset, b.len⟩).lookup
        s).isSome := hs
    rw [SequenceReassembler.lookup_store _ hfree] at hs'
    split at hs'
    · next heq => rw [heq]; exact hfit
    · exact h.fits s hs'

theorem Consecutive.place (h : d.Consecutive first) (streamId : UInt8) {b : Block}
    (hfit : b.seq + 1 < 2 ^ 64) : (d.place streamId b).2.Consecutive first := by
  unfold Decoding.place
  split
  · next heq => exact h.deliver streamId (compare_eq_iff_eq.mp heq) hfit
  · next hgt => exact h.buffer streamId (compare_gt_iff_gt.mp hgt) hfit
  · exact h

theorem observe_reassembler (i : Inner F) (streamId : UInt8) (seq : ℕ) (now : Option Instant) :
    (i.observe streamId seq now).2.reassembler = i.reassembler := by
  unfold Inner.observe
  split <;> rfl

theorem Consecutive.decodeBlock (h : d.Consecutive first) (streamId : UInt8)
    (now : Option Instant) {b : Block} (hfit : b.seq + 1 < 2 ^ 64) :
    (Decoding.decodeBlock streamId now b d).2.Consecutive first := by
  have hready := observe_ready d.inner streamId b.seq now
  have hring := observe_reassembler d.inner streamId b.seq now
  unfold Decoding.decodeBlock
  generalize d.inner.observe streamId b.seq now = observed at hready hring ⊢
  obtain ⟨verdict, inner⟩ := observed
  -- neither the verdict nor the gap handler touches what the statement is about
  have hkept : ∀ i : Inner F, i.ready = d.inner.ready → i.reassembler = d.inner.reassembler →
      ({ d with inner := i } : Decoding F).Consecutive first := by
    intro i hi hr
    refine ⟨?_, ?_, ?_⟩
    · exact hr ▸ h.le
    · rw [hi, hr]
      exact h.queued
    · intro s hs
      exact h.fits s (hr ▸ hs)
  cases verdict with
  | duplicate => exact hkept inner hready hring
  | outOfWindow => exact hkept inner hready hring
  | forward => exact (hkept (inner.markReceived b.seq) hready hring).place streamId hfit

theorem Consecutive.decodeBlocks (streamId : UInt8) (now : Option Instant) {todo : List Block}
    (hfit : ∀ b ∈ todo, b.seq + 1 < 2 ^ 64) (h : d.Consecutive first) :
    (Decoding.decodeBlocks streamId now todo d).2.Consecutive first := by
  induction todo generalizing d with
  | nil => exact h
  | cons b todo ih =>
      have hstep := h.decodeBlock streamId now (hfit b List.mem_cons_self)
      unfold Decoding.decodeBlocks
      generalize Decoding.decodeBlock streamId now b d = decoded at hstep ⊢
      obtain ⟨_ | _, d'⟩ := decoded
      · exact hstep
      · exact ih (fun b' hb' ↦ hfit b' (List.mem_cons_of_mem b hb')) hstep

/-! ## How the loop can fail -/

/-- Only a refused insert ends the loop early: a block ahead of `expected_next` that the
ring does not hold. -/
theorem place_error {streamId : UInt8} {b : Block} {e : MoldUdpError} {d' : Decoding F}
    (h : d.place streamId b = (.error e, d')) :
    d.inner.reassembler.expectedNext < b.seq ∧
      e = .reassemblyBufferFull d.inner.reassembler.capacity ∧ d'.inline = d.inline ∧
      d'.inner = d.inner ∧ d.inner.reassembler.lookup b.seq = none := by
  unfold Decoding.place at h
  split at h
  · cases h
  · next hgt =>
      refine ⟨compare_gt_iff_gt.mp hgt, ?_⟩
      unfold Decoding.buffer at h
      rcases d.inner.reassembler.insert_cases b.seq ⟨d.backing.share.2, b.offset, b.len⟩ with
        ⟨-, hinsert⟩ | ⟨-, -, hinsert⟩ | ⟨-, hnone, -, -, hinsert⟩ | ⟨-, -, -, hinsert⟩
      · rw [hinsert] at h
        cases h
      · rw [hinsert] at h
        cases h
      · rw [hinsert] at h
        cases h
        exact ⟨rfl, rfl, rfl, hnone⟩
      · rw [hinsert] at h
        cases hcursor : decide (b.seq = d.inner.reassembler.expectedNext) <;>
          · rw [hcursor] at h
            cases h
  · cases h

theorem decodeBlock_error {streamId : UInt8} {now : Option Instant} {b : Block}
    {e : MoldUdpError} {d' : Decoding F}
    (h : Decoding.decodeBlock streamId now b d = (.error e, d')) :
    d.inner.reassembler.expectedNext < b.seq ∧
      e = .reassemblyBufferFull d.inner.reassembler.capacity ∧ d'.inline = d.inline := by
  have hring := observe_reassembler d.inner streamId b.seq now
  unfold Decoding.decodeBlock at h
  generalize d.inner.observe streamId b.seq now = observed at hring h
  obtain ⟨verdict, inner⟩ := observed
  cases verdict with
  | duplicate => cases h
  | outOfWindow => cases h
  | forward =>
      obtain ⟨hlt, he, hinline, -⟩ := place_error h
      change inner.reassembler.expectedNext < b.seq at hlt
      change e = .reassemblyBufferFull inner.reassembler.capacity at he
      dsimp only at hring
      rw [hring] at hlt he
      exact ⟨hlt, he, hinline⟩

/-- The block at which the loop stopped, and the loop up to it. -/
theorem decodeBlocks_error_split {streamId : UInt8} {now : Option Instant} {todo : List Block}
    {e : MoldUdpError} {d' : Decoding F}
    (h : Decoding.decodeBlocks streamId now todo d = (.error e, d')) :
    ∃ before b after d₁, todo = before ++ b :: after ∧
      Decoding.decodeBlocks streamId now before d = (.ok (), d₁) ∧
      Decoding.decodeBlock streamId now b d₁ = (.error e, d') := by
  induction todo generalizing d with
  | nil => cases h
  | cons b todo ih =>
      unfold Decoding.decodeBlocks at h
      rcases hblock : Decoding.decodeBlock streamId now b d with ⟨e' | _, d₁⟩
      · rw [hblock] at h
        cases h
        exact ⟨[], b, todo, d, rfl, rfl, hblock⟩
      · rw [hblock] at h
        obtain ⟨before, b', after, d₂, rfl, hbefore, hstop⟩ := ih h
        refine ⟨b :: before, b', after, d₂, rfl, ?_, hstop⟩
        rw [Decoding.decodeBlocks, hblock]
        exact hbefore

theorem decodeBlocks_error {streamId : UInt8} {now : Option Instant} {todo : List Block}
    {e : MoldUdpError} {d' : Decoding F}
    (h : Decoding.decodeBlocks streamId now todo d = (.error e, d')) :
    ∃ capacity, e = .reassemblyBufferFull capacity := by
  obtain ⟨before, b, after, d₁, -, -, hstop⟩ := decodeBlocks_error_split h
  exact ⟨_, (decodeBlock_error hstop).2.1⟩

/-- Blocks numbered one after the other from `seq`. -/
def NumberedFrom : ℕ → List Block → Prop
  | _, [] => True
  | seq, b :: blocks => b.seq = seq ∧ NumberedFrom (seq + 1) blocks

theorem numberedFrom_of_getElem? {blocks : List Block} :
    ∀ {seq : ℕ}, (∀ k b, blocks[k]? = some b → b.seq = seq + k) → NumberedFrom seq blocks := by
  induction blocks with
  | nil => exact fun _ ↦ trivial
  | cons b blocks ih =>
      intro seq h
      refine ⟨h 0 b rfl, ih fun k b' hb' ↦ ?_⟩
      rw [h (k + 1) b' hb']
      omega

theorem NumberedFrom.getElem? {blocks : List Block} :
    ∀ {seq k : ℕ} {b : Block}, NumberedFrom seq blocks → blocks[k]? = some b →
      b.seq = seq + k := by
  induction blocks with
  | nil => intro seq k b _ hb; simp at hb
  | cons b' blocks ih =>
      intro seq k b h hb
      cases k with
      | zero =>
          obtain rfl : b' = b := by simpa using hb
          exact h.1
      | succ k =>
          rw [ih h.2 (by simpa using hb)]
          omega

theorem decodeBlock_oneLeg (streamId : UInt8) (now : Option Instant) (b : Block)
    (hleg : d.inner.arbiter = none) :
    Decoding.decodeBlock streamId now b d =
      place { d with inner := d.inner.markReceived b.seq } streamId b := by
  simp only [Decoding.decodeBlock, Inner.observe, hleg]

theorem arbiter_place (streamId : UInt8) (b : Block) :
    (d.place streamId b).2.inner.arbiter = d.inner.arbiter := by
  unfold Decoding.place
  split
  · rfl
  · unfold Decoding.buffer
    split <;> rfl
  · rfl

/-- On one leg, after a block that was delivered or stale the next block of the datagram
is not ahead of `expected_next`; before that nothing was delivered. -/
theorem place_oneLeg {streamId : UInt8} {b : Block} {d' : Decoding F}
    (hfits : d.inner.RingFits) (hfit : b.seq + 1 < 2 ^ 64)
    (hinline : 0 < d.inline → b.seq ≤ d.inner.reassembler.expectedNext)
    (h : d.place streamId b = (.ok (), d')) (hpos : 0 < d'.inline) :
    b.seq + 1 ≤ d'.inner.reassembler.expectedNext := by
  unfold Decoding.place at h
  split at h
  · next heq =>
      cases h
      have hb := compare_eq_iff_eq.mp heq
      obtain ⟨views, -, hexp, -⟩ := deliver_spec hfits streamId hb hfit
      rw [hexp]
      omega
  · next hgt =>
      have hlt : d.inner.reassembler.expectedNext < b.seq := compare_gt_iff_gt.mp hgt
      have hsame : (d.buffer streamId b).2.inline = d.inline := by
        unfold Decoding.buffer
        split <;> rfl
      rw [h] at hsame
      have := hinline (hsame ▸ hpos)
      omega
  · next hlt =>
      cases h
      exact compare_lt_iff_lt.mp hlt

theorem inline_of_error_oneLeg {streamId : UInt8} {now : Option Instant} {todo : List Block}
    {e : MoldUdpError} {d' : Decoding F} :
    ∀ {seq : ℕ} {d : Decoding F}, d.inner.arbiter = none → d.Consecutive first →
      NumberedFrom seq todo → (∀ b ∈ todo, b.seq + 1 < 2 ^ 64) →
      (0 < d.inline → seq ≤ d.inner.reassembler.expectedNext) →
      Decoding.decodeBlocks streamId now todo d = (.error e, d') → d'.inline = 0 := by
  induction todo with
  | nil => intro seq d _ _ _ _ _ h; cases h
  | cons b todo ih =>
      intro seq d hleg hcons hnum hfit hinline h
      obtain ⟨rfl, hnum⟩ := hnum
      have hb := hfit b List.mem_cons_self
      unfold Decoding.decodeBlocks at h
      rcases hblock : Decoding.decodeBlock streamId now b d with ⟨e' | _, d₁⟩
      · rw [hblock] at h
        cases h
        obtain ⟨hlt, -, hsame⟩ := decodeBlock_error hblock
        rw [hsame]
        by_contra hne
        have := hinline (Nat.pos_of_ne_zero hne)
        omega
      · have hcons₁ := hcons.decodeBlock streamId now hb
        rw [hblock] at h hcons₁
        rw [decodeBlock_oneLeg streamId now b hleg] at hblock
        have hleg₁ : d₁.inner.arbiter = none := by
          have := arbiter_place (d := { d with inner := d.inner.markReceived b.seq }) streamId b
          rw [hblock] at this
          exact this.trans hleg
        exact ih hleg₁ hcons₁ hnum (fun b' hb' ↦ hfit b' (List.mem_cons_of_mem b hb'))
          (fun hpos ↦ place_oneLeg (d := { d with inner := d.inner.markReceived b.seq })
            hcons.fits hb hinline hblock hpos) h

end Decoding

/-! ## Payloads -/

theorem mem_viewItems {streamId streamId' : UInt8} {view : MessageView F} {n : ℕ}
    {views : List (MessageView F)} :
    ∀ {seq : ℕ}, seq + views.length < 2 ^ 64 →
      .view view n streamId' ∈ viewItems streamId seq views →
      ∃ j, views[j]? = some view ∧ n = seq + j := by
  induction views with
  | nil => intro seq _ hmem; simp [viewItems] at hmem
  | cons v views ih =>
      intro seq hfit hmem
      rw [List.length_cons] at hfit
      rw [viewItems, wrappingAdd_of_lt (by omega), List.mem_cons] at hmem
      rcases hmem with heq | hmem
      · cases heq
        exact ⟨0, rfl, rfl⟩
      · obtain ⟨j, hj, rfl⟩ := ih (by omega) hmem
        exact ⟨j + 1, hj, by omega⟩

/-- Every view in the ring or the queue satisfies `P` at its number. -/
structure Inner.Views (P : ℕ → MessageView F → Prop) (i : Inner F) : Prop where
  ring : ∀ n view, i.reassembler.lookup n = some view → P n view
  queue : ∀ n view streamId, .view view n streamId ∈ i.ready → P n view

theorem Inner.Views.mono {P Q : ℕ → MessageView F → Prop} {i : Inner F} (h : i.Views P)
    (himp : ∀ n view, P n view → Q n view) : i.Views Q :=
  ⟨fun n view hv ↦ himp n view (h.ring n view hv),
    fun n view streamId hv ↦ himp n view (h.queue n view streamId hv)⟩

namespace Decoding

variable {P : ℕ → MessageView F → Prop} {d : Decoding F} {first : ℕ}

theorem views_deliver (hviews : d.inner.Views P) (hfits : d.inner.RingFits) (streamId : UInt8)
    {b : Block} (hb : b.seq = d.inner.reassembler.expectedNext) (hfit : b.seq + 1 < 2 ^ 64) :
    (d.deliver streamId b).inner.Views P := by
  obtain ⟨views, hready, -, hroom, hpay, hlook, -⟩ := deliver_spec hfits streamId hb hfit
  refine ⟨fun n view hview ↦ ?_, fun n view streamId' hmem ↦ ?_⟩
  · rw [hlook] at hview
    split at hview
    · cases hview
    · exact hviews.ring n view hview
  · rw [hready, List.mem_append, List.mem_cons] at hmem
    rcases hmem with hmem | heq | hmem
    · exact hviews.queue n view streamId' hmem
    · cases heq
    · obtain ⟨j, hj, rfl⟩ := mem_viewItems hroom hmem
      have hlt : j < views.length := (List.getElem?_eq_some_iff.mp hj).1
      exact hviews.ring _ view ((hpay j hlt).trans hj)

theorem views_buffer (hviews : d.inner.Views P) (streamId : UInt8) {b : Block}
    (hb : d.inner.reassembler.expectedNext < b.seq)
    (hP : P b.seq ⟨d.backing.held, b.offset, b.len⟩) :
    (d.buffer streamId b).2.inner.Views P := by
  unfold Decoding.buffer
  rcases d.inner.reassembler.insert_cases b.seq ⟨d.backing.share.2, b.offset, b.len⟩ with
    ⟨hlt, -⟩ | ⟨-, -, hinsert⟩ | ⟨-, -, -, -, hinsert⟩ | ⟨-, -, hfree, hinsert⟩
  · omega
  · rw [hinsert]
    exact hviews
  · rw [hinsert]
    exact hviews
  · have hahead : decide (b.seq = d.inner.reassembler.expectedNext) = false := by
      simp only [decide_eq_false_iff_not]
      omega
    rw [hinsert, hahead]
    refine ⟨fun n view hview ↦ ?_, hviews.queue⟩
    have hview' : (d.inner.reassembler.store b.seq ⟨d.backing.share.2, b.offset, b.len⟩).lookup n
        = some view := hview
    rw [SequenceReassembler.lookup_store _ hfree] at hview'
    split at hview'
    · next heq =>
        cases hview'
        rw [heq, Backing.share_snd]
        exact hP
    · exact hviews.ring n view hview'

/-- The loop keeps `P` if the views it makes of the datagram's own blocks satisfy it. -/
theorem views_decodeBlocks {datagram : Held F} {blocks : List Block} (streamId : UInt8)
    (now : Option Instant) (hP : ∀ b ∈ blocks, P b.seq ⟨datagram, b.offset, b.len⟩)
    (hfit : ∀ b ∈ blocks, b.seq + 1 < 2 ^ 64) {todo : List Block}
    (htodo : ∀ b ∈ todo, b ∈ blocks) :
    ∀ {d : Decoding F}, d.Lends datagram blocks → d.Consecutive first → d.inner.Views P →
      (Decoding.decodeBlocks streamId now todo d).2.inner.Views P := by
  induction todo with
  | nil => exact fun _ _ hviews ↦ hviews
  | cons b todo ih =>
      intro d hlends hcons hviews
      have hb := htodo b List.mem_cons_self
      have hlends₁ := hlends.decodeBlock streamId now hb
      have hcons₁ := hcons.decodeBlock streamId now (hfit b hb)
      have hviews₁ : (Decoding.decodeBlock streamId now b d).2.inner.Views P := by
        have hready := observe_ready d.inner streamId b.seq now
        have hring := observe_reassembler d.inner streamId b.seq now
        unfold Decoding.decodeBlock
        generalize d.inner.observe streamId b.seq now = observed at hready hring ⊢
        obtain ⟨verdict, inner⟩ := observed
        have hkept : inner.Views P :=
          ⟨fun n view hv ↦ hviews.ring n view (hring ▸ hv),
            fun n view st hv ↦ hviews.queue n view st (hready ▸ hv)⟩
        have hfits : inner.RingFits := fun s hs ↦ hcons.fits s (hring ▸ hs)
        cases verdict with
        | duplicate => exact hkept
        | outOfWindow => exact hkept
        | forward =>
            have hmarked : (inner.markReceived b.seq).Views P := ⟨hkept.ring, hkept.queue⟩
            dsimp only
            unfold Decoding.place
            split
            · next heq =>
                exact views_deliver (d := { d with inner := inner.markReceived b.seq })
                  hmarked hfits streamId (compare_eq_iff_eq.mp heq) (hfit b hb)
            · next hgt =>
                refine views_buffer (d := { d with inner := inner.markReceived b.seq })
                  hmarked streamId (compare_gt_iff_gt.mp hgt) ?_
                change P b.seq ⟨d.backing.held, b.offset, b.len⟩
                rw [hlends.backing]
                exact hP b hb
            · exact hmarked
      unfold Decoding.decodeBlocks
      generalize Decoding.decodeBlock streamId now b d = decoded at hlends₁ hcons₁ hviews₁ ⊢
      obtain ⟨_ | _, d'⟩ := decoded
      · exact hviews₁
      · exact ih (fun b' hb' ↦ htodo b' (List.mem_cons_of_mem b hb')) hlends₁ hcons₁ hviews₁

end Decoding

/-! ## One decode step -/

/-- Every number in a datagram with this header has a successor. -/
def DownstreamHeader.Fits (header : DownstreamHeader) : Prop :=
  header.sequence + header.messageCount < 2 ^ 64

namespace Inner

@[simp] theorem reassembler_noteTailGap (i : Inner F) (nextExpected : ℕ) :
    (i.noteTailGap nextExpected).reassembler = i.reassembler := by
  unfold noteTailGap
  split <;> rfl

@[simp] theorem numbers_noteTailGap (i : Inner F) (nextExpected : ℕ) :
    numbers (i.noteTailGap nextExpected).ready = numbers i.ready := by
  unfold noteTailGap
  split
  · simp
  · rfl

@[simp] theorem reassembler_noteJump (i : Inner F) (sequence : ℕ) (now : Option Instant) :
    (i.noteJump sequence now).reassembler = i.reassembler := by
  unfold noteJump
  split
  · split <;> rfl
  · rfl

@[simp] theorem numbers_noteJump (i : Inner F) (sequence : ℕ) (now : Option Instant) :
    numbers (i.noteJump sequence now).ready = numbers i.ready := by
  unfold noteJump
  split
  · split
    · rfl
    · simp
  · rfl

theorem expectedNext_accepted (i : Inner F) (rest : List (UInt8 × Held F))
    (header : DownstreamHeader) :
    (i.accepted rest header).reassembler.expectedNext =
      if i.seqAnchored then i.reassembler.expectedNext else header.sequence := by
  unfold accepted anchor
  split <;> rfl

theorem accepted_of_anchored {i : Inner F} (h : i.seqAnchored = true)
    (rest : List (UInt8 × Held F)) (header : DownstreamHeader) :
    i.accepted rest header =
      { i with pendingDatagrams := rest, session := some header.session } :=
  if_pos h

theorem lookup_accepted (i : Inner F) (rest : List (UInt8 × Held F)) (header : DownstreamHeader)
    (n : ℕ) : (i.accepted rest header).reassembler.lookup n = i.reassembler.lookup n := by
  unfold accepted anchor
  split <;> rfl

theorem arbiter_accepted_eq_none (i : Inner F) (rest : List (UInt8 × Held F))
    (header : DownstreamHeader) : (i.accepted rest header).arbiter = none ↔ i.arbiter = none := by
  unfold accepted anchor
  split
  · exact Iff.rfl
  · exact Option.map_eq_none_iff

theorem isSome_arbiter_accepted (i : Inner F) (rest : List (UInt8 × Held F))
    (header : DownstreamHeader) :
    (i.accepted rest header).arbiter.isSome = i.arbiter.isSome := by
  unfold accepted anchor
  split
  · rfl
  · exact Option.isSome_map

theorem arbiter_noteJump_of_none {i : Inner F} (h : i.arbiter = none) (sequence : ℕ)
    (now : Option Instant) : (i.noteJump sequence now).arbiter = none := by
  unfold noteJump
  split
  · split
    · next harbiter => simp [h] at harbiter
    · exact h
  · exact h

end Inner

section Steps

variable [AsRef F]

/-- The numbers of a whole datagram: consecutive, each with a successor. -/
theorem numberedFrom_blocks {header : DownstreamHeader} {datagram : List UInt8}
    {blocks : List Block} (hparse : parseHeader datagram = .ok header) (hrange : header.Fits)
    (h : numberBlocks header.sequence (header.blocks datagram) = (blocks, .ok ())) :
    Decoding.NumberedFrom header.sequence blocks ∧ ∀ b ∈ blocks, b.seq + 1 < 2 ^ 64 := by
  obtain ⟨hlen, hget⟩ := numberBlocks_blocks hparse h
  have hnum : ∀ k b, blocks[k]? = some b → b.seq = header.sequence + k ∧ b.seq + 1 < 2 ^ 64 := by
    intro k b hb
    have hk : k < blocks.length := (List.getElem?_eq_some_iff.mp hb).1
    have hlt := hrange
    rw [DownstreamHeader.Fits] at hlt
    obtain ⟨hseq, -⟩ := hget k b hb
    rw [wrappingAdd_of_lt (by omega)] at hseq
    omega
  refine ⟨Decoding.numberedFrom_of_getElem? fun k b hb ↦ (hnum k b hb).1, fun b hb ↦ ?_⟩
  obtain ⟨k, hk⟩ := List.mem_iff_getElem?.mp hb
  exact (hnum k b hk).2

/-- The blocks of a whole datagram carry exactly the numbers its header promises. -/
theorem exists_block_iff {header : DownstreamHeader} {datagram : List UInt8}
    {blocks : List Block} (hparse : parseHeader datagram = .ok header) (hfits : header.Fits)
    (h : numberBlocks header.sequence (header.blocks datagram) = (blocks, .ok ())) (n : ℕ) :
    (∃ b ∈ blocks, b.seq = n) ↔
      header.sequence ≤ n ∧ n < header.sequence + header.messageCount := by
  obtain ⟨hnum, -⟩ := numberedFrom_blocks hparse hfits h
  obtain ⟨hlen, -⟩ := numberBlocks_blocks hparse h
  constructor
  · rintro ⟨b, hb, rfl⟩
    obtain ⟨k, hk⟩ := List.mem_iff_getElem?.mp hb
    have hseq := Decoding.NumberedFrom.getElem? hnum hk
    have hlt : k < blocks.length := (List.getElem?_eq_some_iff.mp hk).1
    omega
  · rintro ⟨hlo, hhi⟩
    have hlt : n - header.sequence < blocks.length := by omega
    have hk := List.getElem?_eq_getElem hlt
    have hseq := Decoding.NumberedFrom.getElem? hnum hk
    exact ⟨_, List.getElem_mem hlt, by omega⟩

omit [AsRef F] in
theorem Inner.accepted_session (i : Inner F) (rest : List (UInt8 × Held F))
    (header : DownstreamHeader) :
    (i.accepted rest header).session = some header.session ∧
      (i.accepted rest header).seqAnchored = true := by
  unfold accepted anchor
  split
  · next hanchored => exact ⟨rfl, hanchored⟩
  · exact ⟨rfl, rfl⟩

omit [AsRef F] in
/-- A queue without numbers has no views to speak of. -/
theorem Inner.views_of_numbers_nil {P : ℕ → MessageView F → Prop} {i : Inner F}
    (hring : ∀ n view, i.reassembler.lookup n = some view → P n view)
    (hready : numbers i.ready = []) : i.Views P := by
  refine ⟨hring, fun n view streamId hmem ↦ ?_⟩
  have hn : n ∈ numbers i.ready := List.mem_filterMap.mpr ⟨_, hmem, rfl⟩
  rw [hready] at hn
  cases hn

omit [AsRef F] in
theorem Inner.consecutive_enterLoop {i : Inner F} (hready : i.ready = []) (hfits : i.RingFits)
    (header : DownstreamHeader) (datagram : Held F) (now : Option Instant) :
    (i.enterLoop header datagram now).Consecutive i.reassembler.expectedNext := by
  have hring : (i.enterLoop header datagram now).inner.reassembler = i.reassembler :=
    i.reassembler_noteJump header.sequence now
  have hnumbers : numbers (i.enterLoop header datagram now).inner.ready = numbers i.ready :=
    i.numbers_noteJump header.sequence now
  refine ⟨?_, ?_, ?_⟩
  · rw [hring]
  · rw [hnumbers, hready, hring, Nat.sub_self]
    rfl
  · intro s hs
    exact hfits s (hring ▸ hs)

/-- From `i`, with an empty queue, to `i'`: session and anchor stay, and the queue now
holds the numbers from the old `expected_next` up to the new one. -/
structure Inner.Queues (P : ℕ → MessageView F → Prop) (i i' : Inner F) : Prop where
  session : i'.session = i.session
  seqAnchored : i'.seqAnchored = i.seqAnchored
  le : i.reassembler.expectedNext ≤ i'.reassembler.expectedNext
  queued : numbers i'.ready = List.range' i.reassembler.expectedNext
    (i'.reassembler.expectedNext - i.reassembler.expectedNext)
  fits : i'.RingFits
  views : i'.Views P

section Queues

variable {P : ℕ → MessageView F → Prop} {i : Inner F}

omit [AsRef F] in
/-- Nothing queued: the ring is the old one and no item has a number. -/
theorem Inner.queues_nothing {i' : Inner F} (hfits : i.RingFits)
    (hviews : ∀ n view, i.reassembler.lookup n = some view → P n view)
    (hsession : i'.session = i.session) (hanchored : i'.seqAnchored = i.seqAnchored)
    (hring : i'.reassembler = i.reassembler) (hready : numbers i'.ready = []) :
    Inner.Queues P i i' := by
  refine ⟨hsession, hanchored, by rw [hring], ?_, fun s hs ↦ hfits s (hring ▸ hs), ?_⟩
  · rw [hready, hring, Nat.sub_self]
    rfl
  · exact views_of_numbers_nil (fun n view hv ↦ hviews n view (hring ▸ hv)) hready

omit [AsRef F] in
theorem Inner.queues_control (hready : i.ready = []) (hfits : i.RingFits)
    (hviews : ∀ n view, i.reassembler.lookup n = some view → P n view) (nextExpected : ℕ)
    (ev : MoldUdpEvent) : Inner.Queues P i ((i.noteTailGap nextExpected).pushEvent ev) := by
  have hkept : (i.noteTailGap nextExpected).session = i.session ∧
      (i.noteTailGap nextExpected).seqAnchored = i.seqAnchored := by
    unfold noteTailGap
    split <;> exact ⟨rfl, rfl⟩
  refine queues_nothing hfits hviews hkept.1 hkept.2 (i.reassembler_noteTailGap nextExpected) ?_
  change numbers ((i.noteTailGap nextExpected).ready ++ _) = []
  rw [numbers_append, numbers_noteTailGap, hready]
  rfl

/-- A data datagram, whichever way its decoding ends. -/
theorem Inner.queues_decodeData (hready : i.ready = []) (hfits : i.RingFits)
    (hviews : ∀ n view, i.reassembler.lookup n = some view → P n view) (streamId : UInt8)
    {datagram : Held F} {header : DownstreamHeader} (now : Option Instant)
    (hparse : parseHeader datagram.asRef = .ok header) (hrange : header.Fits)
    (hP : ∀ k bytes offset len, header.payload datagram.asRef k = some bytes →
      slice datagram.asRef offset len = some bytes →
      P (header.sequence + k) ⟨datagram, offset, len⟩) :
    Inner.Queues P i (i.decodeData streamId datagram header now).2 := by
  rcases i.decodeData_cases streamId datagram header now with
    ⟨blocks, e, -, hdecode⟩ | ⟨blocks, hnumber, hloop⟩
  · rw [hdecode]
    exact queues_nothing hfits hviews rfl rfl rfl (by rw [hready]; rfl)
  obtain ⟨hnum, hfit⟩ := numberedFrom_blocks hparse hrange hnumber
  have hblocks : ∀ b ∈ blocks, P b.seq ⟨datagram, b.offset, b.len⟩ := by
    intro b hb
    obtain ⟨k, hk⟩ := List.mem_iff_getElem?.mp hb
    obtain ⟨-, bytes, hpayload, hslice⟩ := (numberBlocks_blocks hparse hnumber).2 k b hk
    rw [Decoding.NumberedFrom.getElem? hnum hk]
    exact hP k bytes b.offset b.len hpayload hslice
  set d₀ := enterLoop { i with blocks := blocks } header datagram now with hd₀
  have hring₀ : d₀.inner.reassembler = i.reassembler := reassembler_noteJump _ _ _
  have hnumbers₀ : numbers d₀.inner.ready = [] := by
    refine (numbers_noteJump { i with blocks := blocks } header.sequence now).trans ?_
    rw [hready]
    rfl
  have hjump := noteJump_frame { i with blocks := blocks } header.sequence now
  have hcons₀ : d₀.Consecutive i.reassembler.expectedNext :=
    consecutive_enterLoop (i := { i with blocks := blocks }) hready hfits header datagram now
  have hlends₀ : d₀.Lends datagram blocks := lends_enterLoop (by rw [hready, borrows_nil]) blocks
  have hviews₀ : d₀.inner.Views P :=
    views_of_numbers_nil (fun n view hv ↦ hviews n view (hring₀ ▸ hv)) hnumbers₀
  have hframe := Decoding.decodeBlocks_frame streamId now blocks d₀
  have hcons := Decoding.Consecutive.decodeBlocks streamId now hfit hcons₀
  have hviews' := Decoding.views_decodeBlocks streamId now hblocks hfit (fun b hb ↦ hb)
    hlends₀ hcons₀ hviews₀
  have hqueues : Inner.Queues P i (Decoding.decodeBlocks streamId now blocks d₀).2.inner :=
    ⟨hframe.session.trans hjump.session, hframe.seqAnchored.trans hjump.seqAnchored, hcons.le,
      hcons.queued, hcons.fits, hviews'⟩
  rcases hloop with ⟨e, d, hloop, hdecode⟩ | ⟨d, hloop, hdecode⟩
  · rw [hloop] at hqueues
    rw [hdecode]
    exact hqueues
  · rw [hloop] at hqueues
    rw [hdecode]
    -- installing the backing writes nothing the statement is about
    dsimp only at hqueues ⊢
    unfold Decoding.install
    split
    · exact ⟨hqueues.session, hqueues.seqAnchored, hqueues.le, hqueues.queued, hqueues.fits,
        ⟨hqueues.views.ring, hqueues.views.queue⟩⟩
    · exact hqueues

end Queues

/-- Accepted as data, the datagram up next has numbers with successors. -/
def Inner.HeadFits (i : Inner F) : Prop :=
  ∀ p ∈ i.pendingDatagrams.head?, ∀ header, parseHeader p.2.asRef = .ok header →
    (i.session = none ∨ i.session = some header.session) → header.kind = .data → header.Fits

/-- Accepted as data, it has blocks with the property, each under its number. -/
def Inner.HeadHolds (i : Inner F) (P : ℕ → MessageView F → Prop) : Prop :=
  ∀ p ∈ i.pendingDatagrams.head?, ∀ header, parseHeader p.2.asRef = .ok header →
    (i.session = none ∨ i.session = some header.session) → header.kind = .data →
    ∀ k bytes offset len, header.payload p.2.asRef k = some bytes →
      slice p.2.asRef offset len = some bytes → P (header.sequence + k) ⟨p.2, offset, len⟩

/-- A decode step either leaves ring, queue and anchor alone, or accepts the datagram it
pops and queues the numbers from there up to the new `expected_next`. -/
theorem Inner.Processed.ordered {P : ℕ → MessageView F → Prop} {i i' : Inner F}
    {now : Option Instant} {r : Except MoldUdpError Unit} (h : i.Processed now r i')
    (hready : i.ready = []) (hfits : i.RingFits)
    (hviews : ∀ n view, i.reassembler.lookup n = some view → P n view)
    (hrange : i.HeadFits) (hP : i.HeadHolds P) :
    (i'.ready = [] ∧ i'.reassembler = i.reassembler ∧ i'.seqAnchored = i.seqAnchored ∧
      i'.session = i.session ∧ ∀ p ∈ i.pendingDatagrams.head?, ∀ header,
        parseHeader p.2.asRef = .ok header → i.session.isSome) ∨
    ∃ streamId datagram rest header, i.pendingDatagrams = (streamId, datagram) :: rest ∧
      parseHeader datagram.asRef = .ok header ∧
      (i.session = none ∨ i.session = some header.session) ∧
      (header.kind = .data ∨ borrows i'.ready = []) ∧
      Inner.Queues P (i.accepted rest header) i' := by
  have hfits₁ : ∀ rest header, (i.accepted rest header).RingFits := by
    intro rest header s hs
    rw [lookup_accepted] at hs
    exact hfits s hs
  have hviews₁ : ∀ rest header n view,
      (i.accepted rest header).reassembler.lookup n = some view → P n view := by
    intro rest header n view hview
    rw [lookup_accepted] at hview
    exact hviews n view hview
  have hready₁ : ∀ rest header, (i.accepted rest header).ready = [] := fun rest header ↦
    (i.ready_accepted rest header).trans hready
  cases h with
  | idle hpop => exact Or.inl ⟨hready, rfl, rfl, rfl, by simp [hpop]⟩
  | unparsed e hpop hparse =>
      refine Or.inl ⟨hready, rfl, rfl, rfl, fun p hp header hheader ↦ ?_⟩
      rw [hpop, List.head?_cons, Option.mem_some_iff] at hp
      subst hp
      rw [hparse] at hheader
      cases hheader
  | mismatch expected hpop hparse hsession hne =>
      exact Or.inl ⟨hready, rfl, rfl, rfl, fun _ _ _ _ ↦ by rw [hsession]; rfl⟩
  | @control streamId datagram rest header ev hpop hparse hsession hkind =>
      have hborrows : borrows (((i.accepted rest header).noteTailGap header.sequence).pushEvent
          ev).ready = [] := by
        change borrows (((i.accepted rest header).noteTailGap header.sequence).ready ++ _) = []
        rw [borrows_append, borrows_noteTailGap, hready₁]
        rfl
      exact Or.inr ⟨streamId, datagram, rest, header, hpop, hparse, hsession, Or.inr hborrows,
        queues_control (hready₁ rest header) (hfits₁ rest header) (hviews₁ rest header) _ ev⟩
  | @data streamId datagram rest header hpop hparse hsession hkind =>
      have hhead : (streamId, datagram) ∈ i.pendingDatagrams.head? := by
        rw [hpop]
        rfl
      exact Or.inr ⟨streamId, datagram, rest, header, hpop, hparse, hsession, Or.inl hkind,
        queues_decodeData (hready₁ rest header) (hfits₁ rest header) (hviews₁ rest header)
          streamId now hparse (hrange _ hhead header hparse hsession hkind)
          (hP _ hhead header hparse hsession hkind)⟩

/-- A block loop over the datagram up next that fails with `e` has queued nothing that
borrows from it. -/
def Inner.FailsEmpty (i : Inner F) (now : Option Instant) (e : MoldUdpError) : Prop :=
  ∀ streamId datagram rest header blocks d,
    i.pendingDatagrams = (streamId, datagram) :: rest →
    parseHeader datagram.asRef = .ok header →
    (i.session = none ∨ i.session = some header.session) → header.kind = .data →
    numberBlocks header.sequence (header.blocks datagram.asRef) = (blocks, .ok ()) →
    Decoding.decodeBlocks streamId now blocks
      (enterLoop { i.accepted rest header with blocks := blocks } header datagram now) =
        (.error e, d) → d.inline = 0

theorem Inner.Processed.borrows_of_error {i i' : Inner F} {now : Option Instant}
    {e : MoldUdpError} (h : i.Processed now (.error e) i') (hready : i.ready = [])
    (hempty : i.FailsEmpty now e) : borrows i'.ready = [] := by
  generalize hr : (Except.error e : Except MoldUdpError Unit) = r at h
  cases h with
  | idle => cases hr
  | unparsed => rw [hready, borrows_nil]
  | mismatch => rw [hready, borrows_nil]
  | control => cases hr
  | @data streamId datagram rest header hpop hparse hsession hkind =>
      have hready₁ : (i.accepted rest header).ready = [] :=
        (i.ready_accepted rest header).trans hready
      rcases (i.accepted rest header).decodeData_cases streamId datagram header now with
        ⟨blocks, e', -, hdecode⟩ | ⟨blocks, hnumber, ⟨e', d, hloop, hdecode⟩ | ⟨d, hloop, hdecode⟩⟩
      · rw [hdecode]
        dsimp only
        rw [hready₁, borrows_nil]
      · rw [hdecode] at hr ⊢
        cases hr
        have hlends := Decoding.Lends.decodeBlocks streamId now (fun b hb ↦ hb)
          (@lends_enterLoop _ { i.accepted rest header with blocks := blocks } header datagram now
            (by rw [hready₁, borrows_nil]) blocks)
        rw [hloop] at hlends
        exact List.length_eq_zero_iff.mp (hlends.count.trans
          (hempty _ _ _ _ _ d hpop hparse hsession hkind hnumber hloop))
      · rw [hdecode] at hr
        cases hr

/-- A decode step strands no item if a failing block loop leaves none. -/
theorem Inner.not_strands {i : Inner F} {now : Instant} (hready : i.ready = [])
    (hempty : ∀ e, (i.decodeNext now).1 = .error e → i.FailsEmpty (i.clock now) e) :
    ¬ i.Strands now := by
  rintro ⟨⟨e, herror⟩, hborrows⟩
  refine hborrows ?_
  have hprocessed := i.processNextPending_processed (i.clock now)
  have hfails := hempty e herror
  unfold Inner.decodeNext at herror ⊢
  generalize i.processNextPending (i.clock now) = processed at hprocessed herror ⊢
  obtain ⟨e' | _, i'⟩ := processed
  · obtain rfl : e' = e := Except.error.inj herror
    exact hprocessed.borrows_of_error hready hfails
  · cases herror

/-- The loop fails only at a refused insert. -/
theorem Inner.failsEmpty_of_ne_full {i : Inner F} {now : Option Instant} {e : MoldUdpError}
    (hfull : ∀ capacity, e ≠ .reassemblyBufferFull capacity) : i.FailsEmpty now e := by
  intro _ _ _ _ _ _ _ _ _ _ _ hloop
  obtain ⟨capacity, rfl⟩ := Decoding.decodeBlocks_error hloop
  exact (hfull capacity rfl).elim

/-- On one leg nothing is in order behind a block that was. -/
theorem Inner.failsEmpty_of_oneLeg {i : Inner F} {now : Option Instant} (e : MoldUdpError)
    (hleg : i.arbiter = none) (hready : i.ready = []) (hfits : i.RingFits)
    (hrange : ∀ p ∈ i.pendingDatagrams.head?, ∀ header, parseHeader p.2.asRef = .ok header →
      (i.session = none ∨ i.session = some header.session) → header.kind = .data →
      header.Fits) : i.FailsEmpty now e := by
  intro streamId datagram rest header blocks d hpop hparse hsession hkind hnumber hloop
  have hrange₁ := hrange (streamId, datagram) (by rw [hpop]; rfl) header hparse hsession hkind
  obtain ⟨hnum, hfit⟩ := numberedFrom_blocks hparse hrange₁ hnumber
  have hfits₁ : (i.accepted rest header).RingFits := by
    intro s hs
    rw [lookup_accepted] at hs
    exact hfits s hs
  exact Decoding.inline_of_error_oneLeg
    (arbiter_noteJump_of_none (i := { i.accepted rest header with blocks := blocks })
      ((i.arbiter_accepted_eq_none rest header).mpr hleg) header.sequence now)
    (consecutive_enterLoop (i := { i.accepted rest header with blocks := blocks })
      ((i.ready_accepted rest header).trans hready) hfits₁ header datagram now)
    hnum hfit (fun hpos ↦ absurd hpos (lt_irrefl 0)) hloop

end Steps

end MoldUdp
