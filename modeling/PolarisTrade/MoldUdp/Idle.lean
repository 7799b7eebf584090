import PolarisTrade.MoldUdp.Calls

/-!
# Idle means drained

What was taken from the sources is what was decoded followed by what is still queued,
in arrival order, whatever the calls and however they return.  A call of `poll` that
returns nothing has, after its last decode, found every leg empty, and the requester too
while a gap is pending.
-/

namespace MoldUdp

open Transport Word

variable {F : Type}

/-! ## Taken, decoded, queued -/

/-- Datagrams an action takes from a source, tagged as the receiver queues them. -/
def Action.taken (recoveryStream : UInt8) : Action F → List (UInt8 × Held F)
  | .legBurst stream _ burst => burst.frames.map fun f ↦ (UInt8.ofNat stream, .frame f)
  | .requesterBurst burst => burst.frames.map fun bytes ↦ (recoveryStream, .copied bytes)
  | .decode .. => []

/-- The datagram an action decodes or rejects. -/
def Action.decoded : Action F → List (UInt8 × Held F)
  | .decode p _ => [p]
  | _ => []

namespace MoldUdpReceiver

/-- Nothing is left in the batches between bursts. -/
def Clean (m : MoldUdpReceiver F) : Prop :=
  m.inner.recvBatch = [] ∧ ∀ requester ∈ m.recovery, requester.scratch = []

/-- From `m` to `m'` by `actions`: what was queued and what was taken is what was decoded
and what is queued now. -/
structure Settles (m m' : MoldUdpReceiver F) (actions : List (Action F)) : Prop where
  clean : m'.Clean
  legs : m'.inner.legs = m.inner.legs
  recoveryStream : m'.inner.recoveryStream = m.inner.recoveryStream
  queue : m.inner.pendingDatagrams ++ actions.flatMap (Action.taken m.inner.recoveryStream) =
    actions.flatMap Action.decoded ++ m'.inner.pendingDatagrams

namespace Settles

variable {m m' m'' : MoldUdpReceiver F} {actions actions' : List (Action F)}

theorem refl (h : m.Clean) : Settles m m [] := ⟨h, rfl, rfl, by simp⟩

theorem trans (h : Settles m m' actions) (h' : Settles m' m'' actions') :
    Settles m m'' (actions ++ actions') := by
  refine ⟨h'.clean, h'.legs.trans h.legs, h'.recoveryStream.trans h.recoveryStream, ?_⟩
  rw [List.flatMap_append, List.flatMap_append, ← List.append_assoc, h.queue, List.append_assoc,
    ← h.recoveryStream, h'.queue, List.append_assoc]

/-- Changes outside the sources and the queue do not matter. -/
theorem congr (h : Settles m m' actions) (hclean : m''.Clean)
    (hlegs : m''.inner.legs = m'.inner.legs)
    (hstream : m''.inner.recoveryStream = m'.inner.recoveryStream)
    (hpending : m''.inner.pendingDatagrams = m'.inner.pendingDatagrams) :
    Settles m m'' actions :=
  ⟨hclean, hlegs.trans h.legs, hstream.trans h.recoveryStream, hpending ▸ h.queue⟩

end Settles

/-- The receiver on return from `actions`: nothing queued, and after the last decode every
source was found empty. -/
structure Drained (m : MoldUdpReceiver F) (actions : List (Action F)) : Prop where
  ready : m.inner.ready = []
  pending : m.inner.pendingDatagrams = []
  polled : ∃ before after, actions = before ++ after ∧ (∀ p r, .decode p r ∉ after) ∧
    (∀ stream < m.inner.legs.length, ∃ state burst,
      .legBurst stream state burst ∈ after ∧ burst.result = .ok 0) ∧
    (m.recovery.isSome → m.inner.gapHandler.hasPending → ∃ burst,
      .requesterBurst burst ∈ after ∧ burst.result = .ok 0)

end MoldUdpReceiver

/-! ## Polling the sources -/

theorem Inner.not_decode_mem_pollLegsFromActions {legs : ℕ → Burst F} {p : UInt8 × Held F}
    {r : Except MoldUdpError Unit} (count : ℕ) :
    ∀ (stream : ℕ) (i : Inner F), .decode p r ∉ pollLegsFromActions legs count stream i := by
  induction count with
  | zero => exact fun _ _ ↦ List.not_mem_nil
  | succ count ih =>
      intro stream i
      unfold pollLegsFromActions
      dsimp only
      rw [List.mem_cons, not_or]
      refine ⟨by simp, ?_⟩
      split
      · exact List.not_mem_nil
      · exact ih _ _
      · exact ih _ _

/-- Polling honest legs: what they gave is queued behind the rest, and without anything
landed each of them returned 0. -/
theorem Inner.pollLegsFrom_honest {legs : ℕ → Burst F} (recoveryStream : UInt8) (count : ℕ) :
    ∀ {stream : ℕ} {landed : Bool} {i : Inner F}, i.recvBatch = [] →
      (∀ s, stream ≤ s → s < stream + count → (legs s).Honest) →
      (pollLegsFrom legs count stream landed i).2 =
        { i with
          pendingDatagrams := i.pendingDatagrams ++
            (pollLegsFromActions legs count stream i).flatMap (Action.taken recoveryStream) } ∧
      ((pollLegsFrom legs count stream landed i).1 = .ok false → landed = false ∧
        (pollLegsFromActions legs count stream i).flatMap (Action.taken recoveryStream) = [] ∧
        ∀ s, stream ≤ s → s < stream + count → ∃ state,
          .legBurst s state (legs s) ∈ pollLegsFromActions legs count stream i ∧
          (legs s).result = .ok 0) := by
  induction count with
  | zero =>
      intro stream landed i hbatch _
      refine ⟨by simp [pollLegsFrom, pollLegsFromActions], fun h ↦ ⟨Except.ok.inj h, rfl, ?_⟩⟩
      intro s hlo hhi
      omega
  | succ count ih =>
      intro stream landed i hbatch hhonest
      have hfirst := hhonest stream le_rfl (by omega)
      have hrest : ∀ s, stream + 1 ≤ s → s < stream + 1 + count → (legs s).Honest :=
        fun s hlo hhi ↦ hhonest s (by omega) (by omega)
      unfold pollLegsFrom pollLegsFromActions
      rw [List.flatMap_cons]
      cases hresult : (legs stream).result with
      | error e =>
          have hframes := hfirst.frames_of_error hresult
          simp only [Action.taken, hframes, List.map_nil, List.append_nil, List.flatMap_nil]
          exact ⟨trivial, fun h ↦ by cases h⟩
      | ok n =>
          cases n with
          | zero =>
              have hframes := hfirst.frames_of_zero hresult
              simp only [Action.taken, hframes, List.map_nil, List.append_nil, List.nil_append]
              obtain ⟨hstate, hidle⟩ := @ih (stream + 1) landed i hbatch hrest
              refine ⟨hstate, fun h ↦ ?_⟩
              obtain ⟨hlanded, htaken, hall⟩ := hidle h
              refine ⟨hlanded, htaken, fun s hlo hhi ↦ ?_⟩
              rcases Nat.eq_or_lt_of_le hlo with rfl | hlt
              · exact ⟨i, List.mem_cons_self, hresult⟩
              · obtain ⟨state, hmem, hzero⟩ := hall s hlt (by omega)
                exact ⟨state, List.mem_cons_of_mem _ hmem, hzero⟩
          | succ n =>
              simp only [Action.taken, hbatch, List.nil_append]
              obtain ⟨hstate, hidle⟩ := @ih (stream + 1) true
                { i with
                  recvBatch := []
                  pendingDatagrams := i.pendingDatagrams ++
                    (legs stream).frames.map fun f ↦ (UInt8.ofNat stream, .frame f) } rfl hrest
              refine ⟨?_, fun h ↦ ?_⟩
              · rw [hstate, ← List.append_assoc, ← hbatch]
              · cases (hidle h).1

theorem Inner.pollLegs_honest {legs : ℕ → Burst F} {i : Inner F} (recoveryStream : UInt8)
    (hbatch : i.recvBatch = []) (hhonest : ∀ s < i.legs.length, (legs s).Honest) :
    (i.pollLegs legs).2 =
      { i with
        pendingDatagrams := i.pendingDatagrams ++
          (i.pollLegsActions legs).flatMap (Action.taken recoveryStream) } ∧
    ((i.pollLegs legs).1 = .ok false →
      (i.pollLegsActions legs).flatMap (Action.taken recoveryStream) = [] ∧
      ∀ s < i.legs.length, ∃ state burst,
        .legBurst s state burst ∈ i.pollLegsActions legs ∧ burst.result = .ok 0) := by
  obtain ⟨hstate, hidle⟩ := @pollLegsFrom_honest F legs recoveryStream i.legs.length 0 false i
    hbatch fun s _ hs ↦ hhonest s (by omega)
  refine ⟨hstate, fun h ↦ ?_⟩
  obtain ⟨-, htaken, hall⟩ := hidle h
  refine ⟨htaken, fun s hs ↦ ?_⟩
  obtain ⟨state, hmem, hzero⟩ := hall s (Nat.zero_le s) (by omega)
  exact ⟨state, _, hmem, hzero⟩

namespace MoldUdpReceiver

theorem decoded_eq_nil {actions : List (Action F)} (h : ∀ p r, .decode p r ∉ actions) :
    actions.flatMap Action.decoded = [] := by
  rw [List.flatMap_eq_nil_iff]
  intro a ha
  cases a with
  | decode p r => exact (h p r ha).elim
  | legBurst => rfl
  | requesterBurst => rfl

theorem pollLegs_settles {m : MoldUdpReceiver F} (hclean : m.Clean) {legs : ℕ → Burst F}
    (hhonest : ∀ s < m.inner.legs.length, (legs s).Honest) :
    m.Settles { m with inner := (m.inner.pollLegs legs).2 } (m.inner.pollLegsActions legs) := by
  obtain ⟨hstate, -⟩ := Inner.pollLegs_honest m.inner.recoveryStream hclean.1 hhonest
  have hdecoded : (m.inner.pollLegsActions legs).flatMap Action.decoded = [] :=
    decoded_eq_nil fun p r ↦ Inner.not_decode_mem_pollLegsFromActions _ _ _
  rw [hstate]
  exact ⟨⟨hclean.1, hclean.2⟩, rfl, rfl, by rw [hdecoded, List.nil_append]⟩

theorem not_decode_mem_pollFramesActions (burst : Burst (List UInt8)) (m : MoldUdpReceiver F)
    (p : UInt8 × Held F) (r : Except MoldUdpError Unit) :
    .decode p r ∉ m.pollFramesActions burst := by
  unfold pollFramesActions
  split <;> simp

theorem not_decode_mem_pollSourcesActions (round : Round F) (m : MoldUdpReceiver F)
    (p : UInt8 × Held F) (r : Except MoldUdpError Unit) :
    .decode p r ∉ m.pollSourcesActions round := by
  unfold pollSourcesActions
  rw [List.mem_append, not_or]
  refine ⟨Inner.not_decode_mem_pollLegsFromActions _ _ _, ?_⟩
  split
  · exact List.not_mem_nil
  · split
    · exact not_decode_mem_pollFramesActions _ m p r
    · exact List.not_mem_nil

/-- Polling the requester queues copies of what it gave. -/
theorem pollFrames_honest {m : MoldUdpReceiver F} (hclean : m.Clean) {burst : Burst (List UInt8)}
    (hhonest : burst.Honest) :
    m.Settles (m.pollFrames burst).2 (m.pollFramesActions burst) ∧
      (m.pollFrames burst).2.inner.ready = m.inner.ready ∧
      (m.pollFrames burst).2.recovery.isSome = m.recovery.isSome ∧
      ((m.pollFrames burst).1 = .ok false →
        (m.pollFramesActions burst).flatMap (Action.taken m.inner.recoveryStream) = [] ∧
        (m.recovery.isSome → .requesterBurst burst ∈ m.pollFramesActions burst ∧
          burst.result = .ok 0)) := by
  obtain ⟨hbatch, hscratch⟩ := hclean
  unfold pollFrames pollFramesActions
  obtain hnone | ⟨requester, hsome⟩ := Option.eq_none_or_eq_some m.recovery
  · simp only [hnone]
    exact ⟨.refl ⟨hbatch, hscratch⟩, trivial, trivial, fun _ ↦ ⟨rfl, fun h ↦ by cases h⟩⟩
  · have hempty := hscratch requester hsome
    simp only [hsome, hempty, List.nil_append]
    cases hresult : burst.result with
    | error e =>
        have hframes := hhonest.frames_of_error hresult
        refine ⟨⟨⟨hbatch, ?_⟩, rfl, rfl, ?_⟩, rfl, rfl, fun h ↦ by cases h⟩
        · rintro _ ⟨⟩
          exact hframes
        · simp [Action.taken, Action.decoded, hframes]
    | ok n =>
        refine ⟨⟨⟨hbatch, ?_⟩, rfl, rfl, ?_⟩, rfl, rfl, fun h ↦ ?_⟩
        · rintro _ ⟨⟩
          rfl
        · simp [Action.taken, Action.decoded]
        · obtain rfl : n = 0 := by simpa using h
          simp [Action.taken, hhonest.frames_of_zero hresult]

/-- Polling honest sources; without anything landed every one of them returned 0. -/
theorem pollSources_honest {m : MoldUdpReceiver F} (hclean : m.Clean) {round : Round F}
    (hhonest : round.Honest m.inner.legs.length) :
    m.Settles (m.pollSources round).2 (m.pollSourcesActions round) ∧
      (m.inner.ready = [] → m.inner.pendingDatagrams = [] → (m.pollSources round).1 = .ok false →
        (m.pollSources round).2.Drained (m.pollSourcesActions round)) := by
  have hnodecode := not_decode_mem_pollSourcesActions round m
  have hlegs := pollLegs_settles hclean hhonest.1
  obtain ⟨hstate, hidle⟩ := Inner.pollLegs_honest m.inner.recoveryStream hclean.1 hhonest.1
  have hready : (m.inner.pollLegs round.legs).2.ready = m.inner.ready := by rw [hstate]
  -- after a poll that took nothing the queue is what it was before
  have hempty : ∀ {m' actions}, m.Settles m' actions →
      actions.flatMap (Action.taken m.inner.recoveryStream) = [] →
      (∀ p r, .decode p r ∉ actions) → m.inner.pendingDatagrams = [] →
      m'.inner.pendingDatagrams = [] := by
    intro m' actions hsettles htaken hnone hpending
    have hqueue := hsettles.queue
    rw [htaken, decoded_eq_nil hnone, hpending] at hqueue
    exact hqueue.symm
  unfold pollSources pollSourcesActions at *
  generalize m.inner.pollLegs round.legs = polled at *
  obtain ⟨e | landed, inner⟩ := polled
  · dsimp only at hlegs ⊢
    rw [List.append_nil]
    exact ⟨hlegs, fun _ _ h ↦ by cases h⟩
  dsimp only at hlegs hidle hready hnodecode ⊢
  by_cases hgap : inner.gapHandler.hasPending = true
  · simp only [if_pos hgap] at hnodecode ⊢
    obtain ⟨hframes, hready', hsome, hquiet⟩ := pollFrames_honest hlegs.clean hhonest.2
    have hsettles : m.Settles _ _ := hlegs.trans hframes
    generalize pollFrames round.requester { m with inner := inner } = polled at *
    obtain ⟨e | arrived, m'⟩ := polled
    · exact ⟨hsettles, fun _ _ h ↦ by cases h⟩
    refine ⟨hsettles, fun hr hp h ↦ ?_⟩
    obtain ⟨rfl, rfl⟩ : landed = false ∧ arrived = false := by simpa using h
    obtain ⟨htaken, hall⟩ := hidle rfl
    obtain ⟨htaken', hburst⟩ := hquiet rfl
    have hstream : inner.recoveryStream = m.inner.recoveryStream := hlegs.recoveryStream
    refine ⟨hready'.trans (hready.trans hr), hempty hsettles ?_ hnodecode hp, [], _, rfl,
      hnodecode, fun s hs ↦ ?_, fun hrecovery _ ↦ ?_⟩
    · rw [List.flatMap_append, htaken, ← hstream]
      exact htaken'
    · obtain ⟨state, burst, hmem, hzero⟩ := hall s (hsettles.legs ▸ hs)
      exact ⟨state, burst, List.mem_append_left _ hmem, hzero⟩
    · obtain ⟨hmem, hzero⟩ := hburst (hsome ▸ hrecovery)
      exact ⟨_, List.mem_append_right _ hmem, hzero⟩
  · simp only [if_neg hgap, List.append_nil] at hnodecode ⊢
    refine ⟨hlegs, fun hr hp h ↦ ?_⟩
    obtain ⟨htaken, hall⟩ := hidle h
    exact ⟨hready.trans hr, hempty hlegs htaken hnodecode hp, [], _, rfl, hnodecode,
      fun s hs ↦ hall s (hlegs.legs ▸ hs), fun _ h ↦ (hgap h).elim⟩

end MoldUdpReceiver

/-! ## Turns and calls -/

namespace MoldUdpReceiver

variable [AsRef F]

theorem decodeNext_settles {m : MoldUdpReceiver F} (hclean : m.Clean) (now : Instant) :
    m.Settles (m.decodeNext now).2 (m.decodeNextActions now) := by
  obtain ⟨hsame, hpop⟩ := m.inner.decodeNext_sameSources now
  refine ⟨⟨hsame.recvBatch.trans hclean.1, hclean.2⟩, hsame.legs, hsame.recoveryStream, ?_⟩
  change _ = _ ++ (m.inner.decodeNext now).2.pendingDatagrams
  unfold decodeNextActions
  rw [hpop]
  cases m.inner.pendingDatagrams with
  | nil => rfl
  | cons p rest => simp [Action.taken, Action.decoded]

theorem error_of_decode_mem {m : MoldUdpReceiver F} {now : Instant} {p : UInt8 × Held F}
    {r : Except MoldUdpError Unit} (h : .decode p r ∈ m.decodeNextActions now) :
    (m.decodeNext now).1 = r := by
  unfold decodeNextActions at h
  split at h
  · cases h
  · cases List.mem_singleton.mp h
    rfl

/-- What a turn, or a call, that did `actions` and left `m'` accounts for: the queue, every
rejected datagram in what it returned, and the sources if it found nothing to do. -/
structure Accounts (m m' : MoldUdpReceiver F) (r : Option (Except MoldUdpError Unit))
    (actions : List (Action F)) : Prop where
  settles : m.Settles m' actions
  errors : ∀ p e, .decode p (.error e) ∈ actions → r = some (.error e)
  drained : r = some (.ok ()) → m'.inner.ready = [] → m'.Drained actions

theorem decodeTurn_accounts {m : MoldUdpReceiver F} (hclean : m.Clean) (now : Instant) :
    m.Accounts (m.decodeTurn now).2.2 (m.decodeTurn now).2.1 (m.decodeTurn now).1 := by
  have hsettles := decodeNext_settles hclean now
  have herror := fun p e ↦ @error_of_decode_mem _ _ m now p (.error e)
  unfold decodeTurn
  generalize m.decodeNext now = decoded at hsettles herror ⊢
  obtain ⟨e | _, m'⟩ := decoded
  · refine ⟨hsettles, fun p e' hmem ↦ ?_, fun h ↦ by cases h⟩
    cases herror p e' hmem
    rfl
  · refine ⟨hsettles, fun p e hmem ↦ ?_, fun h ↦ by cases h⟩
    cases herror p e hmem

omit [AsRef F] in
theorem Accounts.after {m m₁ m' : MoldUdpReceiver F} {r : Option (Except MoldUdpError Unit)}
    {actions actions' : List (Action F)} (h : m₁.Accounts m' r actions')
    (hsettles : m.Settles m₁ actions) (hnone : ∀ p e, .decode p (.error e) ∉ actions) :
    m.Accounts m' r (actions ++ actions') := by
  refine ⟨hsettles.trans h.settles, fun p e hmem ↦ ?_, fun hr hready ↦ ?_⟩
  · rcases List.mem_append.mp hmem with hmem | hmem
    · exact (hnone p e hmem).elim
    · exact h.errors p e hmem
  · obtain ⟨-, hpending, before, after, rfl, hpolled⟩ := h.drained hr hready
    exact ⟨hready, hpending, actions ++ before, after, (List.append_assoc ..).symm, hpolled⟩

theorem turn_accounts {m : MoldUdpReceiver F} (hclean : m.Clean) {round : Round F}
    (hhonest : round.Honest m.inner.legs.length) :
    m.Accounts (m.turn round).2.2 (m.turn round).2.1 (m.turn round).1 := by
  unfold turn
  by_cases hready : m.inner.ready = []
  · rw [if_neg (by simp [hready])]
    by_cases hpending : m.inner.pendingDatagrams = []
    · rw [if_neg (by simp [hpending])]
      have hnodecode := m.not_decode_mem_pollSourcesActions round
      obtain ⟨hsettles, hdrained⟩ := pollSources_honest hclean hhonest
      generalize m.pollSources round = polled at hsettles hdrained ⊢
      obtain ⟨e | landed, m'⟩ := polled
      · exact ⟨hsettles, fun p e' hmem ↦ (hnodecode p _ hmem).elim, fun h ↦ by cases h⟩
      · cases landed with
        | false =>
            exact ⟨hsettles, fun p e' hmem ↦ (hnodecode p _ hmem).elim,
              fun _ _ ↦ hdrained hready hpending rfl⟩
        | true =>
            exact (decodeTurn_accounts hsettles.clean round.now).after hsettles
              fun p e ↦ hnodecode p (.error e)
    · rw [if_pos (by simpa using hpending)]
      exact decodeTurn_accounts hclean round.now
  · rw [if_pos (by simpa using hready)]
    exact ⟨.refl hclean, fun _ _ h ↦ (List.not_mem_nil h).elim, fun _ h ↦ (hready h).elim⟩

theorem pump_accounts (rounds : List (Round F)) :
    ∀ {m m' : MoldUdpReceiver F} {r : Except MoldUdpError Unit}, m.Clean →
      (∀ round ∈ rounds, round.Honest m.inner.legs.length) → pump rounds m = some (r, m') →
      m.Accounts m' (some r) (pumpActions rounds m) := by
  induction rounds with
  | nil =>
      intro m m' r hclean _ h
      unfold pump at h
      split at h
      · cases h
      · next hready =>
          cases h
          exact ⟨.refl hclean, fun _ _ h ↦ (List.not_mem_nil h).elim,
            fun _ h ↦ (hready (by simp [h])).elim⟩
  | cons round rounds ih =>
      intro m m' r hclean hhonest h
      have hturn := turn_accounts hclean (hhonest round List.mem_cons_self)
      rw [pump_cons] at h
      unfold pumpActions
      generalize m.turn round = t at h hturn ⊢
      obtain ⟨actions, _ | r₁, m₁⟩ := t
      · have hnone : ∀ p e, .decode p (.error e) ∉ actions := fun p e hmem ↦ by
          cases hturn.errors p e hmem
        refine (ih hturn.settles.clean (fun round' hround' ↦ ?_) h).after hturn.settles hnone
        rw [hturn.settles.legs]
        exact hhonest round' (List.mem_cons_of_mem round hround')
      · cases h
        simpa using hturn

omit [AsRef F] in
theorem retireCurrent_settles {m : MoldUdpReceiver F} (hclean : m.Clean) :
    m.Settles m.retireCurrent [] := by
  obtain ⟨hsame, hpending⟩ := m.inner.retireCurrent_sameSources
  exact (Settles.refl hclean).congr ⟨hsame.recvBatch.trans hclean.1, hclean.2⟩ hsame.legs
    hsame.recoveryStream hpending

theorem pollPump_accounts {rounds : List (Round F)} {m m' : MoldUdpReceiver F}
    {r : Except MoldUdpError Unit} (hclean : m.Clean)
    (hhonest : ∀ round ∈ rounds, round.Honest m.inner.legs.length)
    (h : pump rounds m.retireCurrent = some (r, m')) :
    m.Accounts m' (some r) (m.pollActions rounds) := by
  have hretire := retireCurrent_settles hclean
  exact (pump_accounts rounds hretire.clean
    (fun round hround ↦ hretire.legs ▸ hhonest round hround) h).after hretire
    fun _ _ ↦ List.not_mem_nil

omit [AsRef F] in
/-- Taking an item off the ready queue changes neither the sources nor the datagrams. -/
theorem Settles.popReady {m m₁ m₂ : MoldUdpReceiver F} {actions : List (Action F)}
    {item : ReadyItem F} (h : m.Settles m₁ actions) (hpop : m₁.popReady = some (item, m₂)) :
    m.Settles m₂ actions := by
  unfold MoldUdpReceiver.popReady at hpop
  split at hpop
  · cases hpop
  · cases hpop
    exact h.congr ⟨h.clean.1, h.clean.2⟩ rfl rfl rfl

theorem Settles.yieldItem {m m₁ : MoldUdpReceiver F} {actions : List (Action F)}
    {item : ReadyItem F} {i : Inner F} {r : Except MoldUdpError (MoldUdpOutcome F)}
    (h : m.Settles m₁ actions) (hyield : m₁.inner.yieldItem item = some (r, i)) :
    m.Settles { m₁ with inner := i } actions := by
  obtain rfl := Inner.yieldItem_state hyield
  exact h.congr ⟨h.clean.1, h.clean.2⟩ rfl rfl rfl

omit [AsRef F] in
theorem Settles.yieldOwned {m m₁ : MoldUdpReceiver F} {actions : List (Action F)}
    (h : m.Settles m₁ actions) (item : ReadyItem F) :
    m.Settles { m₁ with inner := (m₁.inner.yieldOwned item).2 } actions := by
  obtain ⟨hsame, hpending⟩ := m₁.inner.yieldOwned_sameSources item
  exact h.congr ⟨hsame.recvBatch.trans h.clean.1, h.clean.2⟩ hsame.legs hsame.recoveryStream
    hpending

theorem nextItem_settles (waits : List (List (Round F) × Except TransportError Unit)) :
    ∀ {m m' : MoldUdpReceiver F} {r : Except MoldUdpError (ReadyItem F)}, m.Clean →
      (∀ round ∈ waits.flatMap Prod.fst, round.Honest m.inner.legs.length) →
      nextItem waits m = some (r, m') →
      m.Settles m' (nextItemActions waits m) ∧
        ∀ p e, .decode p (.error e) ∈ nextItemActions waits m → r = .error e := by
  induction waits with
  | nil => intro m m' r _ _ h; cases h
  | cons w waits ih =>
      obtain ⟨rounds, wait⟩ := w
      intro m m' r hclean hhonest h
      simp only [List.flatMap_cons, List.mem_append] at hhonest
      unfold nextItem at h
      unfold nextItemActions
      cases hpump : pump rounds m with
      | none => simp [hpump] at h
      | some p =>
          obtain ⟨result, m₁⟩ := p
          have haccounts := pump_accounts rounds hclean (fun round hround ↦
            hhonest round (Or.inl hround)) hpump
          rw [hpump] at h
          cases result with
          | error e =>
              cases h
              refine ⟨by simpa using haccounts.settles, fun p e' hmem ↦ ?_⟩
              cases haccounts.errors p e' (by simpa using hmem)
              rfl
          | ok u =>
              have hnone : ∀ p e, .decode p (.error e) ∉ pumpActions rounds m :=
                fun p e hmem ↦ by cases haccounts.errors p e hmem
              dsimp only at h ⊢
              cases hpop : m₁.popReady with
              | some q =>
                  rw [hpop] at h
                  cases h
                  refine ⟨by simpa using haccounts.settles.popReady hpop, fun p e hmem ↦ ?_⟩
                  exact (hnone p e (by simpa using hmem)).elim
              | none =>
                  rw [hpop] at h
                  cases wait with
                  | error e =>
                      cases h
                      refine ⟨by simpa using haccounts.settles, fun p e' hmem ↦ ?_⟩
                      exact (hnone p e' (by simpa using hmem)).elim
                  | ok u =>
                      obtain ⟨hrest, herrors⟩ := ih haccounts.settles.clean
                        (fun round hround ↦ haccounts.settles.legs ▸
                          hhonest round (Or.inr hround)) h
                      refine ⟨haccounts.settles.trans hrest, fun p e hmem ↦ ?_⟩
                      rcases List.mem_append.mp hmem with hmem | hmem
                      · exact (hnone p e hmem).elim
                      · exact herrors p e hmem

/-- `nextItem` as `recv` and `recv_owned` call it. -/
theorem recvItem_settles {waits : List (List (Round F) × Except TransportError Unit)}
    {m m' : MoldUdpReceiver F} {r : Except MoldUdpError (ReadyItem F)} (hclean : m.Clean)
    (hhonest : ∀ round ∈ waits.flatMap Prod.fst, round.Honest m.inner.legs.length)
    (h : nextItem waits m.retireCurrent = some (r, m')) :
    m.Settles m' (nextItemActions waits m.retireCurrent) ∧
      ∀ p e, .decode p (.error e) ∈ nextItemActions waits m.retireCurrent → r = .error e := by
  have hretire := retireCurrent_settles hclean
  obtain ⟨hsettles, herrors⟩ := nextItem_settles waits hretire.clean
    (fun round hround ↦ hretire.legs ▸ hhonest round hround) h
  exact ⟨hretire.trans hsettles, herrors⟩

end MoldUdpReceiver

/-! ## Whole runs -/

section Runs

variable [AsRef F]

/-- Every call that returns accounts for the datagrams, and returns the error of the one it
rejected. -/
theorem Call.run_settles {m m' : MoldUdpReceiver F} {c : Call F} {error : Option MoldUdpError}
    (hclean : m.Clean) (hhonest : ∀ round ∈ c.rounds, round.Honest m.inner.legs.length)
    (h : c.run m = some (error, m')) :
    m.Settles m' (c.actions m) ∧
      ∀ p e, .decode p (.error e) ∈ c.actions m → error = some e := by
  cases c with
  | poll rounds =>
      obtain ⟨⟨r, m₀⟩, hpoll, hr⟩ := Option.map_eq_some_iff.mp h
      cases hr
      unfold MoldUdpReceiver.poll at hpoll
      cases hpump : MoldUdpReceiver.pump rounds m.retireCurrent with
      | none => simp [hpump] at hpoll
      | some q =>
          obtain ⟨result, m₁⟩ := q
          have haccounts := MoldUdpReceiver.pollPump_accounts hclean hhonest hpump
          rw [hpump] at hpoll
          cases result with
          | error e =>
              cases hpoll
              refine ⟨haccounts.settles, fun p e' hmem ↦ ?_⟩
              cases haccounts.errors p e' hmem
              rfl
          | ok u =>
              have hnone : ∀ p e, .decode p (.error e) ∉ m.pollActions rounds :=
                fun p e hmem ↦ by cases haccounts.errors p e hmem
              dsimp only at hpoll
              cases hpop : m₁.popReady with
              | none =>
                  rw [hpop] at hpoll
                  cases hpoll
                  exact ⟨haccounts.settles, fun p e hmem ↦ (hnone p e hmem).elim⟩
              | some q =>
                  obtain ⟨item, m₂⟩ := q
                  rw [hpop] at hpoll
                  obtain ⟨⟨r', i⟩, hyield, hr⟩ := Option.map_eq_some_iff.mp hpoll
                  cases hr
                  exact ⟨(haccounts.settles.popReady hpop).yieldItem hyield,
                    fun p e hmem ↦ (hnone p e hmem).elim⟩
  | recv waits =>
      obtain ⟨⟨r, m₀⟩, hrecv, hr⟩ := Option.map_eq_some_iff.mp h
      cases hr
      unfold MoldUdpReceiver.recv at hrecv
      cases hnext : MoldUdpReceiver.nextItem waits m.retireCurrent with
      | none => simp [hnext] at hrecv
      | some q =>
          obtain ⟨result, m₁⟩ := q
          obtain ⟨hsettles, herrors⟩ :=
            MoldUdpReceiver.recvItem_settles hclean hhonest hnext
          rw [hnext] at hrecv
          cases result with
          | error e =>
              cases hrecv
              refine ⟨hsettles, fun p e' hmem ↦ ?_⟩
              cases herrors p e' hmem
              rfl
          | ok item =>
              obtain ⟨⟨r', i⟩, hyield, hr⟩ := Option.map_eq_some_iff.mp hrecv
              cases hr
              exact ⟨hsettles.yieldItem hyield, fun p e hmem ↦ by cases herrors p e hmem⟩
  | recvOwned waits =>
      obtain ⟨⟨r, m₀⟩, hrecv, hr⟩ := Option.map_eq_some_iff.mp h
      cases hr
      unfold MoldUdpReceiver.recvOwned at hrecv
      cases hnext : MoldUdpReceiver.nextItem waits m.retireCurrent with
      | none => simp [hnext] at hrecv
      | some q =>
          obtain ⟨result, m₁⟩ := q
          obtain ⟨hsettles, herrors⟩ :=
            MoldUdpReceiver.recvItem_settles hclean hhonest hnext
          rw [hnext] at hrecv
          cases result with
          | error e =>
              cases hrecv
              refine ⟨hsettles, fun p e' hmem ↦ ?_⟩
              cases herrors p e' hmem
              rfl
          | ok item =>
              cases hrecv
              exact ⟨hsettles.yieldOwned item, fun p e hmem ↦ by cases herrors p e hmem⟩

/-- What was taken is what was decoded or rejected followed by what is queued, in arrival
order, and the error of a rejected datagram was returned by the call that rejected it. -/
structure Driven.Settled (d : Driven F) : Prop where
  queue : d.actions.flatMap (Action.taken d.receiver.inner.recoveryStream) =
    d.actions.flatMap Action.decoded ++ d.receiver.inner.pendingDatagrams
  errors : ∀ call ∈ d.log, ∀ p e, .decode p (.error e) ∈ call.actions → call.error = some e

/-- Every call settles with the receiver as it was made. -/
theorem Driven.settles_run {first d : Driven F} (hclean : first.receiver.Clean)
    (hlog : first.log = [])
    (hrun : (Driven.machine F).Run Driven.Honest first d) :
    first.receiver.Settles d.receiver d.actions ∧
      ∀ call ∈ d.log, ∀ p e, .decode p (.error e) ∈ call.actions → call.error = some e := by
  refine hrun.invariant (I := fun d ↦ first.receiver.Settles d.receiver d.actions ∧
    ∀ call ∈ d.log, ∀ p e, .decode p (.error e) ∈ call.actions → call.error = some e) ?_ ?_
  · rw [Driven.actions, hlog]
    exact ⟨.refl hclean, by simp⟩
  · rintro d c d' ⟨hsettles, herrors⟩ hhonest hstep
    obtain ⟨⟨error, m'⟩, hcall, rfl⟩ := Option.map_eq_some_iff.mp hstep
    obtain ⟨hcallsettles, hcallerrors⟩ := Call.run_settles hsettles.clean hhonest hcall
    refine ⟨?_, fun call hmem ↦ ?_⟩
    · have hactions : Driven.actions ⟨m', d.log ++ [⟨c.actions d.receiver, error⟩]⟩ =
          d.actions ++ c.actions d.receiver := by simp [Driven.actions]
      rw [hactions]
      exact hsettles.trans hcallsettles
    · rcases List.mem_append.mp hmem with hmem | hmem
      · exact herrors call hmem
      · obtain rfl := List.mem_singleton.mp hmem
        exact hcallerrors

/-- Idle means drained.  With sources that keep the transport contract, after any sequence of
receive calls: a call of `poll` that returns nothing leaves nothing queued and has, after its
last decode, found every leg empty, and the requester if a gap is pending on return; and
however the calls returned, each datagram taken was decoded, rejected with the error its call
returned, or is still queued in arrival order. -/
theorem poll_idle_drained {cfg : MoldUdpReceiverConfig} {legs : List Leg} {inner : Inner F}
    {withRecovery : Bool} {d : Driven F} (hnew : fromLegs cfg legs = .ok inner)
    (hrun : (Driven.machine F).Run Driven.Honest (Driven.start inner withRecovery) d) :
    (∀ rounds m', d.Honest (.poll rounds) → d.receiver.poll rounds = some (.ok none, m') →
      m'.Drained (d.receiver.pollActions rounds)) ∧ d.Settled := by
  obtain rfl := fromLegs_ok hnew
  have hclean : (Driven.start (.fresh cfg legs : Inner F) withRecovery).receiver.Clean := by
    refine ⟨rfl, fun requester hrequester ↦ ?_⟩
    cases withRecovery with
    | false => cases hrequester
    | true =>
        cases hrequester
        rfl
  obtain ⟨hsettles, herrors⟩ := Driven.settles_run hclean rfl hrun
  refine ⟨fun rounds m' hhonest hpoll ↦ ?_, ?_, herrors⟩
  · unfold MoldUdpReceiver.poll at hpoll
    cases hpump : MoldUdpReceiver.pump rounds d.receiver.retireCurrent with
    | none => simp [hpump] at hpoll
    | some q =>
        obtain ⟨result, m₁⟩ := q
        have haccounts := MoldUdpReceiver.pollPump_accounts hsettles.clean hhonest hpump
        rw [hpump] at hpoll
        cases result with
        | error e => cases hpoll
        | ok u =>
            dsimp only at hpoll
            cases hpop : m₁.popReady with
            | some q =>
                rw [hpop] at hpoll
                obtain ⟨⟨r, i⟩, -, hr⟩ := Option.map_eq_some_iff.mp hpoll
                cases r <;> cases hr
            | none =>
                rw [hpop] at hpoll
                cases hpoll
                refine haccounts.drained rfl ?_
                unfold MoldUdpReceiver.popReady at hpop
                split at hpop
                · next hready => exact hready
                · cases hpop
  · have hqueue := hsettles.queue
    rw [← hsettles.recoveryStream] at hqueue
    exact hqueue

end Runs

/-- Whether a call returned nothing. -/
instance decidableReturnsNone {ε α β : Type} : ∀ r : Option (Except ε (Option α) × β),
    Decidable (∃ b, r = some (.ok none, b))
  | none => .isFalse fun ⟨_, h⟩ ↦ nomatch h
  | some (.error _, _) => .isFalse fun ⟨_, h⟩ ↦ nomatch h
  | some (.ok (some _), _) => .isFalse fun ⟨_, h⟩ ↦ nomatch h
  | some (.ok none, b) => .isTrue ⟨b, rfl⟩

/-- A turn in which no source has anything. -/
def sampleIdle : Round (List UInt8) := ⟨fun _ ↦ ⟨[], .ok 0⟩, ⟨[], .ok 0⟩, 0⟩

/-- A turn in which the leg has message 3. -/
def sampleAhead : Round (List UInt8) :=
  { sampleIdle with legs := fun _ ↦ ⟨[moldPacket sampleSession 3 [7]], .ok 1⟩ }

/-- With 1 and 2 missing, a call that finds leg and requester empty returns nothing. -/
theorem poll_idle_drained_missing :
    ∃ d : Driven (List UInt8), ∃ m',
      Machine.follow Driven.next (Driven.start sampleOneLeg true) [.poll [sampleAhead]] = some d ∧
      d.receiver.inner.gapHandler.hasPending = true ∧
      d.receiver.poll [sampleIdle] = some (.ok none, m') ∧
      m'.Drained (d.receiver.pollActions [sampleIdle]) := by
  have hend : ∃ d ∈ Machine.follow Driven.next (Driven.start sampleOneLeg true)
        [.poll [sampleAhead]],
      d.receiver.inner.gapHandler.hasPending = true ∧ d.Honest (.poll [sampleIdle]) ∧
      ∃ m', d.receiver.poll [sampleIdle] = some (.ok none, m') := by
    decide +kernel
  obtain ⟨d, hd, hgap, hhonest, m', hpoll⟩ := hend
  have hrun : (Driven.machine (List UInt8)).Run Driven.Honest (Driven.start sampleOneLeg true) d :=
    .of_follow (by decide +kernel) hd
  exact ⟨d, m', hd, hgap, hpoll, (@poll_idle_drained _ _ { startSequence := some 1 }
    [⟨minLegPoolCapacity⟩] _ true d rfl hrun).1 [sampleIdle] m' hhonest hpoll⟩

end MoldUdp
