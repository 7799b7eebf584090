import PolarisTrade.MoldUdp.Delivery
import PolarisTrade.MoldUdp.Idle

/-!
# Buffers a leg needs

A frame is held as long as something in the receiver refers to it.  At the moment a burst
is taken from a leg nothing is ready or in the caller's hands, so no datagram backs an
item, and what was queued in this turn came from other legs: only the ring still holds
frames of the leg, at most one for each of its slots.
-/

namespace MoldUdp

open Transport Word

variable {F : Type}

/-! ## Frames held -/

def Held.frames : Held F → List F
  | .frame f => [f]
  | .copied _ => []

theorem Held.length_frames_le (held : Held F) : held.frames.length ≤ 1 := by
  cases held with
  | frame => exact le_rfl
  | copied => exact Nat.zero_le 1

theorem Backing.frames_empty : (Backing.empty : Backing F).held.frames = [] := rfl

def ReadyItem.frames : ReadyItem F → List F
  | .view v _ _ => v.datagram.frames
  | _ => []

/-- Payloads in the slots of the ring. -/
def SequenceReassembler.payloads {S : Type} (r : SequenceReassembler S) : List S :=
  (List.range r.capacity).filterMap fun k ↦ (r.slots k).payload

theorem SequenceReassembler.length_payloads_le {S : Type} (r : SequenceReassembler S) :
    r.payloads.length ≤ r.capacity :=
  (List.length_filterMap_le _ _).trans_eq List.length_range

namespace Inner

def ringFrames (i : Inner F) : List F :=
  i.reassembler.payloads.flatMap fun view ↦ view.datagram.frames

/-- Every reference to a frame of a leg. -/
def heldFrames (i : Inner F) : List F :=
  i.ringFrames ++ i.ready.flatMap ReadyItem.frames ++ i.current.toList.flatMap ReadyItem.frames ++
    i.backing.held.frames ++ (i.pendingDatagrams.flatMap fun p ↦ p.2.frames) ++ i.recvBatch

/-- How many frames of leg `stream` are held, `origin` telling the leg a frame is from. -/
def heldOf (origin : F → ℕ) (stream : ℕ) (i : Inner F) : ℕ :=
  i.heldFrames.countP fun f ↦ origin f = stream

theorem length_ringFrames_le (i : Inner F) : i.ringFrames.length ≤ i.reassembler.capacity := by
  refine le_trans ?_ i.reassembler.length_payloads_le
  unfold ringFrames
  induction i.reassembler.payloads with
  | nil => exact le_rfl
  | cons view views ih =>
      have hone := view.datagram.length_frames_le
      rw [List.flatMap_cons, List.length_append, List.length_cons]
      omega

/-- Every frame in the queue of datagrams came from a leg before `stream`. -/
def QueuedBefore (origin : F → ℕ) (stream : ℕ) (i : Inner F) : Prop :=
  ∀ p ∈ i.pendingDatagrams, ∀ f ∈ p.2.frames, origin f < stream

/-- Nothing ready or handed out, nothing in the batch: of leg `stream` only the ring holds
frames. -/
theorem heldOf_le {i : Inner F} {origin : F → ℕ} {stream : ℕ} (hready : i.ready = [])
    (hcurrent : i.current = none) (hbacking : i.backing = .empty) (hbatch : i.recvBatch = [])
    (hqueue : i.QueuedBefore origin stream) :
    i.heldOf origin stream ≤ i.reassembler.capacity := by
  have hpending : (i.pendingDatagrams.flatMap fun p ↦ p.2.frames).countP
      (fun f ↦ origin f = stream) = 0 := by
    rw [List.countP_eq_zero]
    intro f hf
    obtain ⟨p, hp, hf⟩ := List.mem_flatMap.mp hf
    have := hqueue p hp f hf
    simp only [decide_eq_true_eq]
    omega
  unfold heldOf heldFrames
  rw [hready, hcurrent, hbacking, hbatch]
  simp only [List.flatMap_nil, Option.toList_none, Backing.frames_empty, List.append_nil,
    List.countP_append, hpending, Nat.add_zero]
  exact List.countP_le_length.trans i.length_ringFrames_le

/-! ## At a burst -/

/-- Polling honest legs in turn: at each burst only the queue has changed, and it holds no
frame of this leg or a later one. -/
theorem legBurst_mem_pollLegsFromActions {legs : ℕ → Burst F} {origin : F → ℕ} {s : ℕ}
    {state : Inner F} {burst : Burst F} (count : ℕ) :
    ∀ {stream : ℕ} {i : Inner F}, i.recvBatch = [] → i.QueuedBefore origin stream →
      (∀ s, stream ≤ s → s < stream + count → (legs s).Honest) →
      (∀ s, stream ≤ s → s < stream + count → ∀ f ∈ (legs s).frames, origin f = s) →
      .legBurst s state burst ∈ pollLegsFromActions legs count stream i →
      state.QueuedBefore origin s ∧
        ∃ datagrams, state = { i with pendingDatagrams := datagrams } := by
  induction count with
  | zero => intro _ _ _ _ _ _ hmem; cases hmem
  | succ count ih =>
      intro stream i hbatch hqueue hhonest horigin hmem
      have hrest : ∀ s, stream + 1 ≤ s → s < stream + 1 + count → (legs s).Honest :=
        fun s hlo hhi ↦ hhonest s (by omega) (by omega)
      have hfrom : ∀ s, stream + 1 ≤ s → s < stream + 1 + count →
          ∀ f ∈ (legs s).frames, origin f = s := fun s hlo hhi ↦ horigin s (by omega) (by omega)
      have hlater : i.QueuedBefore origin (stream + 1) := fun p hp f hf ↦
        (hqueue p hp f hf).trans (Nat.lt_succ_self stream)
      unfold pollLegsFromActions at hmem
      rcases List.mem_cons.mp hmem with heq | hmem
      · cases heq
        exact ⟨hqueue, _, rfl⟩
      · split at hmem
        · cases hmem
        · next hresult =>
            have hframes := (hhonest stream le_rfl (by omega)).frames_of_zero hresult
            rw [hframes, List.append_nil] at hmem
            exact ih hbatch hlater hrest hfrom hmem
        · rw [hbatch, List.nil_append] at hmem
          have hlanded : ({ i with
              recvBatch := []
              pendingDatagrams := i.pendingDatagrams ++ (legs stream).frames.map fun f ↦
                (UInt8.ofNat stream, .frame f) } : Inner F).QueuedBefore origin (stream + 1) := by
            intro p hp f hf
            rcases List.mem_append.mp hp with hp | hp
            · exact hlater p hp f hf
            · obtain ⟨f', hf', rfl⟩ := List.mem_map.mp hp
              obtain rfl := List.mem_singleton.mp hf
              rw [horigin stream le_rfl (by omega) f hf']
              exact Nat.lt_succ_self stream
          obtain ⟨hstate, datagrams, rfl⟩ := ih rfl hlanded hrest hfrom hmem
          exact ⟨hstate, datagrams, by rw [hbatch]⟩

end Inner

/-! ## Between bursts -/

section Tidy

variable [AsRef F]

/-- The items out are counted, and without any of them nothing is kept in `backing`. -/
structure Inner.Tidy (i : Inner F) : Prop where
  backed : ∃ handed decoded, Session.Backed (⟨i, handed, decoded⟩ : Session F)
  empty : i.inlinePending = 0 → i.backing = .empty
  batch : i.recvBatch = []
  capacity : i.reassembler.capacity = ringCapacity

namespace Inner.Tidy

variable {i : Inner F}

theorem fresh {cfg : MoldUdpReceiverConfig} {legs : List Leg} {inner : Inner F}
    (h : fromLegs cfg legs = .ok inner) : inner.Tidy := by
  refine ⟨⟨_, _, Session.backed_start h⟩, ?_, ?_, ?_⟩ <;> obtain rfl := fromLegs_ok h
  · exact fun _ ↦ rfl
  · rfl
  · exact capacity_fresh cfg legs

/-- With nothing ready and nothing in the caller's hands no datagram is kept. -/
theorem backing_eq_empty (h : i.Tidy) (hready : i.ready = []) (hcurrent : i.current = none) :
    i.backing = .empty := by
  obtain ⟨handed, decoded, hbacked⟩ := h.backed
  refine h.empty (hbacked.pending.trans ?_)
  simp [outstanding, hready, hcurrent]

theorem retireCurrent (h : i.Tidy) : i.retireCurrent.Tidy := by
  obtain ⟨handed, decoded, hbacked⟩ := h.backed
  obtain ⟨hsame, -⟩ := i.retireCurrent_sameSources
  refine ⟨⟨handed, decoded, hbacked.retire⟩, ?_, hsame.recvBatch.trans h.batch,
    hsame.capacity.trans h.capacity⟩
  unfold Inner.retireCurrent
  split
  · unfold releaseInline
    dsimp only
    intro hzero
    rw [if_pos hzero]
  · exact h.empty

/-- Landing datagrams with the batch emptied again. -/
theorem land (h : i.Tidy) (datagrams : List (UInt8 × Held F)) :
    ({ i with pendingDatagrams := datagrams } : Inner F).Tidy := by
  obtain ⟨handed, decoded, hbacked⟩ := h.backed
  exact ⟨⟨handed, decoded, hbacked.congr { i with pendingDatagrams := datagrams } rfl rfl rfl⟩,
    h.empty, h.batch, h.capacity⟩

theorem yieldItem (h : i.Tidy) {item : ReadyItem F} {rest : List (ReadyItem F)}
    (hready : i.ready = item :: rest) (hcurrent : i.current = none) :
    ({ i with ready := rest, current := some item } : Inner F).Tidy := by
  obtain ⟨handed, decoded, hbacked⟩ := h.backed
  refine ⟨⟨handed, decoded, hbacked.congr { i with ready := rest, current := some item } ?_ rfl
    rfl⟩, h.empty, h.batch, h.capacity⟩
  simp [outstanding, hready, hcurrent]

end Inner.Tidy

namespace Inner

theorem Processed.backing_empty {i i' : Inner F} {now : Option Instant}
    {r : Except MoldUdpError Unit} (h : i.Processed now r i')
    (hempty : i.inlinePending = 0 → i.backing = .empty) :
    i'.inlinePending = 0 → i'.backing = .empty := by
  have haccepted : ∀ rest header, (i.accepted rest header).inlinePending = 0 →
      (i.accepted rest header).backing = .empty := by
    intro rest header
    unfold accepted anchor
    split <;> exact hempty
  cases h with
  | idle => exact hempty
  | unparsed => exact hempty
  | mismatch => exact hempty
  | @control _ _ rest header ev =>
      have hkept := haccepted rest header
      generalize i.accepted rest header = i₁ at hkept ⊢
      change (i₁.noteTailGap header.sequence).inlinePending = 0 →
        (i₁.noteTailGap header.sequence).backing = .empty
      unfold noteTailGap
      split <;> exact hkept
  | @data streamId datagram rest header =>
      have hkept := haccepted rest header
      generalize i.accepted rest header = i₁ at hkept ⊢
      rcases i₁.decodeData_cases streamId datagram header now with
        ⟨blocks, e, -, hdecode⟩ | ⟨blocks, -, hloop⟩
      · rw [hdecode]
        exact hkept
      have hjump := noteJump_frame { i₁ with blocks := blocks } header.sequence now
      have hframe := Decoding.decodeBlocks_frame streamId now blocks
        (enterLoop { i₁ with blocks := blocks } header datagram now)
      have hpending := hframe.inlinePending.trans hjump.inlinePending
      have hbacking := hframe.backing.trans hjump.backing
      rcases hloop with ⟨e, d, hloop, hdecode⟩ | ⟨d, hloop, hdecode⟩
      · rw [hloop] at hpending hbacking
        rw [hdecode, hpending, hbacking]
        exact hkept
      · rw [hloop] at hpending hbacking
        rw [hdecode]
        dsimp only at hpending hbacking ⊢
        unfold Decoding.install
        split
        · next hpos =>
            intro hzero
            exact (hpos.ne' hzero).elim
        · rw [hpending, hbacking]
          exact hkept

theorem Tidy.decodeNext {i : Inner F} (h : i.Tidy) {now : Instant} (hready : i.ready = [])
    (hcurrent : i.current = none)
    (hfull : ∀ capacity, (i.decodeNext now).1 ≠ .error (.reassemblyBufferFull capacity)) :
    (i.decodeNext now).2.Tidy := by
  obtain ⟨handed, decoded, hbacked⟩ := h.backed
  obtain ⟨hsame, -⟩ := i.decodeNext_sameSources now
  -- only a refused insert leaves items behind that borrow from its datagram
  have hstrands : ¬ i.Strands now := not_strands hready fun e he ↦
    failsEmpty_of_ne_full fun capacity hcapacity ↦ hfull capacity (by rw [he, hcapacity])
  refine ⟨⟨handed, _, hbacked.decode hready hcurrent hstrands⟩, ?_,
    hsame.recvBatch.trans h.batch, hsame.capacity.trans h.capacity⟩
  have hempty := (i.processNextPending_processed (i.clock now)).backing_empty h.empty
  unfold Inner.decodeNext
  generalize i.processNextPending (i.clock now) = processed at hempty ⊢
  obtain ⟨_ | _, i'⟩ := processed
  · exact hempty
  · dsimp only at hempty ⊢
    split
    · rw [(i'.drainConfirmedGaps_backing now).1, (i'.drainConfirmedGaps_backing now).2]
      exact hempty
    · exact hempty

end Inner

end Tidy

/-! ## Turns and calls -/

/-- Frames come from the leg `origin` says. -/
def Round.From (origin : F → ℕ) (legs : ℕ) (round : Round F) : Prop :=
  ∀ stream < legs, ∀ f ∈ (round.legs stream).frames, origin f = stream

instance (origin : F → ℕ) (legs : ℕ) (round : Round F) : Decidable (round.From origin legs) :=
  inferInstanceAs (Decidable (∀ stream < legs, ∀ f ∈ _, _))

/-- A decode that ended at a refused insert. -/
def Action.Refuses : Action F → Prop
  | .decode _ (.error (.reassemblyBufferFull _)) => True
  | _ => False

instance : ∀ a : Action F, Decidable a.Refuses
  | .decode _ (.error (.reassemblyBufferFull _)) => .isTrue trivial
  | .decode _ (.error (.transport _)) => .isFalse id
  | .decode _ (.error (.sessionMismatch ..)) => .isFalse id
  | .decode _ (.error .gapDetected) => .isFalse id
  | .decode _ (.error .packetTooShort) => .isFalse id
  | .decode _ (.error .packetTooLarge) => .isFalse id
  | .decode _ (.error (.poolTooSmall ..)) => .isFalse id
  | .decode _ (.error (.legCount _)) => .isFalse id
  | .decode _ (.ok _) => .isFalse id
  | .legBurst .. => .isFalse id
  | .requesterBurst _ => .isFalse id

theorem Action.Refuses.exists_error {a : Action F} (h : a.Refuses) :
    ∃ p e, a = .decode p (.error e) := by
  unfold Refuses at h
  split at h
  · exact ⟨_, _, rfl⟩
  · exact h.elim

/-- At every burst among `actions` the frames held of that leg fit the ring. -/
def HeldWithinRing (origin : F → ℕ) (actions : List (Action F)) : Prop :=
  ∀ stream state burst, .legBurst stream state burst ∈ actions →
    state.heldOf origin stream ≤ ringCapacity

theorem heldWithinRing_nil (origin : F → ℕ) : HeldWithinRing origin [] :=
  fun _ _ _ hmem ↦ (List.not_mem_nil hmem).elim

theorem HeldWithinRing.append {origin : F → ℕ} {actions actions' : List (Action F)}
    (h : HeldWithinRing origin actions) (h' : HeldWithinRing origin actions') :
    HeldWithinRing origin (actions ++ actions') := fun stream state burst hmem ↦
  (List.mem_append.mp hmem).elim (h stream state burst) (h' stream state burst)

namespace MoldUdpReceiver

variable {origin : F → ℕ}

theorem legBurst_mem_pollSourcesActions {round : Round F} {m : MoldUdpReceiver F} {stream : ℕ}
    {state : Inner F} {burst : Burst F}
    (h : .legBurst stream state burst ∈ m.pollSourcesActions round) :
    .legBurst stream state burst ∈ m.inner.pollLegsActions round.legs := by
  unfold pollSourcesActions at h
  rcases List.mem_append.mp h with h | h
  · exact h
  · split at h
    · cases h
    · split at h
      · unfold pollFramesActions at h
        split at h <;> simp at h
      · cases h

variable [AsRef F]

/-- The state of the receiver between turns, as the bound needs it. -/
structure Unburdened (m : MoldUdpReceiver F) : Prop where
  tidy : m.inner.Tidy
  clean : m.Clean
  current : m.inner.current = none

theorem Unburdened.pollSources {m : MoldUdpReceiver F} (h : m.Unburdened) {round : Round F}
    (hhonest : round.Honest m.inner.legs.length) (hfrom : round.From origin m.inner.legs.length)
    (hready : m.inner.ready = []) (hpending : m.inner.pendingDatagrams = []) :
    HeldWithinRing origin (m.pollSourcesActions round) ∧ (m.pollSources round).2.Unburdened ∧
      (m.pollSources round).2.inner.ready = [] := by
  refine ⟨fun stream state burst hmem ↦ ?_, ?_⟩
  · have hnone : m.inner.QueuedBefore origin 0 := fun p hp ↦ by simp [hpending] at hp
    obtain ⟨hqueue, datagrams, rfl⟩ := Inner.legBurst_mem_pollLegsFromActions
      m.inner.legs.length h.clean.1 hnone
      (fun s _ hs ↦ hhonest.1 s (by omega)) (fun s _ hs ↦ hfrom s (by omega))
      (legBurst_mem_pollSourcesActions hmem)
    rw [← h.tidy.capacity]
    exact Inner.heldOf_le hready h.current (h.tidy.backing_eq_empty hready h.current) h.clean.1
      hqueue
  · obtain ⟨hsettles, -⟩ := pollSources_honest h.clean hhonest
    obtain ⟨datagrams, batch, hinner⟩ := m.pollSources_eq round
    have hbatch : batch = m.inner.recvBatch := by
      have hempty := hsettles.clean.1
      rw [hinner] at hempty
      exact hempty.trans h.clean.1.symm
    subst hbatch
    refine ⟨⟨?_, hsettles.clean, ?_⟩, ?_⟩
    · rw [hinner]
      exact h.tidy.land _
    · rw [hinner]
      exact h.current
    · rw [hinner]
      exact hready

theorem Unburdened.decodeTurn {m : MoldUdpReceiver F} (h : m.Unburdened) (now : Instant)
    (hready : m.inner.ready = []) :
    HeldWithinRing origin (m.decodeTurn now).1 ∧
      ((∀ a ∈ (m.decodeTurn now).1, ¬ a.Refuses) → (m.decodeTurn now).2.2.Unburdened) := by
  have hactions : (m.decodeTurn now).1 = m.decodeNextActions now := by
    unfold MoldUdpReceiver.decodeTurn
    split <;> rfl
  have hstate : (m.decodeTurn now).2.2 = (m.decodeNext now).2 := by
    unfold MoldUdpReceiver.decodeTurn
    split <;> next heq => rw [heq]
  rw [hactions, hstate]
  refine ⟨fun stream state burst hmem ↦ ?_, fun hkeeps ↦ ⟨?_, ?_, ?_⟩⟩
  · unfold decodeNextActions at hmem
    split at hmem <;> simp at hmem
  · refine h.tidy.decodeNext hready h.current fun capacity hfull ↦ ?_
    unfold decodeNextActions at hkeeps
    cases hpending : m.inner.pendingDatagrams with
    | nil =>
        -- nothing to decode, so nothing was refused
        unfold Inner.decodeNext Inner.processNextPending at hfull
        rw [hpending] at hfull
        cases hfull
    | cons p rest =>
        rw [hpending] at hkeeps
        refine hkeeps _ List.mem_cons_self ?_
        change Action.Refuses (.decode p (m.inner.decodeNext now).1)
        rw [hfull]
        trivial
  · exact (decodeNext_settles h.clean now).clean
  · exact (m.inner.current_decodeNext now).trans h.current

theorem Unburdened.turn {m : MoldUdpReceiver F} (h : m.Unburdened) {round : Round F}
    (hhonest : round.Honest m.inner.legs.length) (hfrom : round.From origin m.inner.legs.length) :
    HeldWithinRing origin (m.turn round).1 ∧
      ((∀ a ∈ (m.turn round).1, ¬ a.Refuses) → (m.turn round).2.2.Unburdened) := by
  unfold MoldUdpReceiver.turn
  by_cases hready : m.inner.ready = []
  · rw [if_neg (by simp [hready])]
    by_cases hpending : m.inner.pendingDatagrams = []
    · rw [if_neg (by simp [hpending])]
      obtain ⟨hheld, hpolled, hready'⟩ := h.pollSources hhonest hfrom hready hpending
      generalize m.pollSources round = polled at hpolled hready' ⊢
      obtain ⟨_ | _ | _, m'⟩ := polled
      · exact ⟨hheld, fun _ ↦ hpolled⟩
      · exact ⟨hheld, fun _ ↦ hpolled⟩
      · obtain ⟨hheld', hdecoded⟩ : HeldWithinRing origin (m'.decodeTurn round.now).1 ∧ _ :=
          hpolled.decodeTurn round.now hready'
        exact ⟨hheld.append hheld', fun hkeeps ↦
          hdecoded fun a ha ↦ hkeeps a (List.mem_append_right _ ha)⟩
    · rw [if_pos (by simpa using hpending)]
      exact h.decodeTurn round.now hready
  · rw [if_pos (by simpa using hready)]
    exact ⟨heldWithinRing_nil origin, fun _ ↦ h⟩

theorem Unburdened.pump (rounds : List (Round F)) :
    ∀ {m : MoldUdpReceiver F}, m.Unburdened →
      (∀ round ∈ rounds, round.Honest m.inner.legs.length) →
      (∀ round ∈ rounds, round.From origin m.inner.legs.length) →
      HeldWithinRing origin (pumpActions rounds m) ∧
        ∀ r m', MoldUdpReceiver.pump rounds m = some (r, m') →
          (∀ a ∈ pumpActions rounds m, ¬ a.Refuses) → m'.Unburdened := by
  induction rounds with
  | nil =>
      intro m h _ _
      refine ⟨heldWithinRing_nil origin, fun r m' hpump _ ↦ ?_⟩
      unfold MoldUdpReceiver.pump at hpump
      split at hpump
      · cases hpump
      · cases hpump
        exact h
  | cons round rounds ih =>
      intro m h hhonest hfrom
      have haccounts := turn_accounts h.clean (hhonest round List.mem_cons_self)
      obtain ⟨hheld, hturn⟩ :=
        h.turn (hhonest round List.mem_cons_self) (hfrom round List.mem_cons_self)
      rw [pump_cons]
      unfold pumpActions
      generalize m.turn round = t at haccounts hheld hturn ⊢
      obtain ⟨actions, _ | r₁, m₁⟩ := t
      · -- a turn that goes on has rejected nothing
        have hnext : m₁.Unburdened := by
          refine hturn fun a ha hrefuses ↦ ?_
          obtain ⟨p, e, rfl⟩ := hrefuses.exists_error
          cases haccounts.errors p e ha
        have hlegs := haccounts.settles.legs
        obtain ⟨hheld', hrest⟩ := ih hnext
          (fun round' hround' ↦ hlegs ▸ hhonest round' (List.mem_cons_of_mem round hround'))
          (fun round' hround' ↦ hlegs ▸ hfrom round' (List.mem_cons_of_mem round hround'))
        exact ⟨hheld.append hheld', fun r m' hpump hkeeps ↦
          hrest r m' hpump fun a ha ↦ hkeeps a (List.mem_append_right _ ha)⟩
      · refine ⟨hheld.append (heldWithinRing_nil origin), fun r m' hpump hkeeps ↦ ?_⟩
        cases hpump
        exact hturn fun a ha ↦ hkeeps a (List.mem_append_left _ ha)

end MoldUdpReceiver

/-! ## Whole runs -/

namespace Driven

variable (origin : F → ℕ)

/-- The sources keep the contract, each handing out its own frames. -/
def Sourced (d : Driven F) (c : Call F) : Prop :=
  d.Honest c ∧ ∀ round ∈ c.rounds, round.From origin d.receiver.inner.legs.length

instance (d : Driven F) (c : Call F) : Decidable (d.Sourced origin c) :=
  inferInstanceAs (Decidable (_ ∧ ∀ round ∈ c.rounds, _))

variable [AsRef F]

/-- Calls of `poll` in which no insert is refused. -/
def Polls (d : Driven F) : Call F → Prop
  | .poll rounds => d.Sourced origin (.poll rounds) ∧
      ∀ a ∈ d.receiver.pollActions rounds, ¬ a.Refuses
  | _ => False

instance (d : Driven F) : ∀ c, Decidable (d.Polls origin c)
  | .poll _ => inferInstanceAs (Decidable (_ ∧ ∀ a ∈ _, _))
  | .recv _ => .isFalse id
  | .recvOwned _ => .isFalse id

/-- Between calls: the counts are right and the batches empty. -/
structure Ordered (d : Driven F) : Prop where
  tidy : d.receiver.inner.Tidy
  clean : d.receiver.Clean

theorem Ordered.retired {d : Driven F} (h : d.Ordered) : d.receiver.retireCurrent.Unburdened :=
  ⟨h.tidy.retireCurrent, (MoldUdpReceiver.retireCurrent_settles h.clean).clean,
    d.receiver.inner.retireCurrent_queue.2⟩

theorem Ordered.bursts {d : Driven F} (h : d.Ordered) {rounds : List (Round F)}
    (hsourced : d.Sourced origin (.poll rounds)) :
    HeldWithinRing origin (d.receiver.pollActions rounds) ∧
      ∀ r m', MoldUdpReceiver.pump rounds d.receiver.retireCurrent = some (r, m') →
        (∀ a ∈ d.receiver.pollActions rounds, ¬ a.Refuses) → m'.Unburdened := by
  have hlegs := (MoldUdpReceiver.retireCurrent_settles h.clean).legs
  exact h.retired.pump rounds (fun round hround ↦ hlegs ▸ hsourced.1 round hround)
    fun round hround ↦ hlegs ▸ hsourced.2 round hround

theorem Ordered.next {d d' : Driven F} {c : Call F} (h : d.Ordered) (hpolls : d.Polls origin c)
    (hstep : d.next c = some d') : d'.Ordered ∧
      d'.receiver.inner.legs = d.receiver.inner.legs := by
  cases c with
  | recv => exact hpolls.elim
  | recvOwned => exact hpolls.elim
  | poll rounds =>
      obtain ⟨hsourced, hkeeps⟩ := hpolls
      obtain ⟨⟨error, m'⟩, hcall, rfl⟩ := Option.map_eq_some_iff.mp hstep
      have hsettles := (Call.run_settles h.clean hsourced.1 hcall).1
      refine ⟨⟨?_, hsettles.clean⟩, hsettles.legs⟩
      obtain ⟨⟨r, m₀⟩, hpoll, hr⟩ := Option.map_eq_some_iff.mp hcall
      cases hr
      unfold MoldUdpReceiver.poll at hpoll
      cases hpump : MoldUdpReceiver.pump rounds d.receiver.retireCurrent with
      | none => simp [hpump] at hpoll
      | some q =>
          obtain ⟨result, m₁⟩ := q
          have hend := (h.bursts origin hsourced).2 result m₁ hpump hkeeps
          rw [hpump] at hpoll
          cases result with
          | error e =>
              cases hpoll
              exact hend.tidy
          | ok u =>
              dsimp only at hpoll
              cases hpop : m₁.popReady with
              | none =>
                  rw [hpop] at hpoll
                  cases hpoll
                  exact hend.tidy
              | some q =>
                  obtain ⟨item, m₂⟩ := q
                  obtain ⟨rest, hready, hinner⟩ := MoldUdpReceiver.popReady_eq_some hpop
                  rw [hpop] at hpoll
                  obtain ⟨⟨r', i⟩, hyield, hr⟩ := Option.map_eq_some_iff.mp hpoll
                  cases hr
                  obtain rfl := Inner.yieldItem_state hyield
                  have hyielded := hend.tidy.yieldItem hready hend.current
                  rw [hinner]
                  exact hyielded

end Driven

theorem le_poolCapacity_of_fromLegs {cfg : MoldUdpReceiverConfig} {legs : List Leg}
    {inner : Inner F} (h : fromLegs cfg legs = .ok inner) :
    ∀ leg ∈ legs, minLegPoolCapacity ≤ leg.poolCapacity := by
  unfold fromLegs at h
  split at h
  · cases h
  · split at h
    · cases h
    · next hnone =>
        intro leg hleg
        unfold undersizedLeg at hnone
        rw [Option.map_eq_none_iff, List.find?_eq_none] at hnone
        obtain ⟨k, hk, rfl⟩ := List.mem_iff_getElem.mp hleg
        have hmem : (legs[k].poolCapacity, k) ∈ (legs.map Leg.poolCapacity).zipIdx := by
          rw [List.mem_zipIdx_iff_getElem?]
          simp [hk]
        simpa using hnone _ hmem

/-- Pool sizing is sufficient.  On every run of `poll` calls over transports that keep their
contract, as long as no insert was refused, at every burst a further call takes from a leg
the receiver holds at most `RING_CAPACITY` frames of that leg, which leaves
`MAX_INFLIGHT_BURST` buffers of its pool. -/
theorem pool_suffices [AsRef F] {cfg : MoldUdpReceiverConfig} {legs : List Leg}
    {inner : Inner F} {withRecovery : Bool} {d : Driven F} (origin : F → ℕ)
    (hnew : fromLegs cfg legs = .ok inner)
    (hrun : (Driven.machine F).Run (Driven.Polls origin) (Driven.start inner withRecovery) d)
    {rounds : List (Round F)} (hsourced : d.Sourced origin (.poll rounds)) {stream : ℕ}
    {state : Inner F} {burst : Burst F}
    (hburst : .legBurst stream state burst ∈ d.receiver.pollActions rounds) :
    state.heldOf origin stream ≤ ringCapacity ∧
      ∀ leg ∈ legs, maxInflightBurst ≤ leg.poolCapacity - state.heldOf origin stream := by
  have hordered : d.Ordered := by
    refine (hrun.invariant (I := Driven.Ordered) ?_ ?_)
    · refine ⟨.fresh hnew, ?_, fun requester hrequester ↦ ?_⟩
      · exact (Inner.Tidy.fresh hnew).batch
      · cases withRecovery with
        | false => cases hrequester
        | true =>
            cases hrequester
            rfl
    · exact fun d c d' h hpolls hstep ↦ (h.next origin hpolls hstep).1
  have hle := (hordered.bursts origin hsourced).1 stream state burst hburst
  refine ⟨hle, fun leg hleg ↦ ?_⟩
  have hcapacity := le_poolCapacity_of_fromLegs hnew leg hleg
  rw [minLegPoolCapacity] at hcapacity
  omega

/-- With message 3 waiting in the ring, one buffer of the leg is in use at the next burst. -/
theorem pool_suffices_missing :
    ∃ d : Driven (List UInt8), ∃ state burst,
      Machine.follow Driven.next (Driven.start sampleOneLeg true) [.poll [sampleAhead]] = some d ∧
      .legBurst 0 state burst ∈ d.receiver.pollActions [sampleIdle] ∧
      state.heldOf (fun _ ↦ 0) 0 = 1 ∧
      maxInflightBurst ≤ minLegPoolCapacity - state.heldOf (fun _ ↦ 0) 0 := by
  have hend : ∃ d ∈ Machine.follow Driven.next (Driven.start sampleOneLeg true)
        [.poll [sampleAhead]],
      d.Sourced (fun _ ↦ 0) (.poll [sampleIdle]) ∧
      ∃ a ∈ d.receiver.pollActions [sampleIdle], (match a with
        | .legBurst 0 state _ => decide (state.heldOf (fun _ ↦ 0) 0 = 1)
        | _ => false) = true := by
    decide +kernel
  obtain ⟨d, hd, hsourced, a, ha, hheld⟩ := hend
  have hrun : (Driven.machine (List UInt8)).Run (Driven.Polls fun _ ↦ 0)
      (Driven.start sampleOneLeg true) d :=
    .of_follow (by decide +kernel) hd
  split at hheld
  · next state burst =>
      exact ⟨d, state, burst, hd, ha, of_decide_eq_true hheld,
        (@pool_suffices _ _ { startSequence := some 1 } [⟨minLegPoolCapacity⟩] _ true d (fun _ ↦ 0)
          rfl hrun _ hsourced _ _ _ ha).2 _ List.mem_cons_self⟩
  · cases hheld

end MoldUdp
