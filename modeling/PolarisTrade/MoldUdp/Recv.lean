import PolarisTrade.Lib.Machine
import PolarisTrade.MoldUdp.Decode

/-!
# Receive calls and the receiver as a transition system

A call of `poll`, `recv` or `recv_owned` is run against a script: one `Round` for
every turn of the pump loop, holding what the transports and the clock answer in
that turn.  The same receiver is also a transition system whose events are the
single actions those calls are made of, and every call is a run of it.
-/

namespace MoldUdp

open Transport Word

variable {F : Type}

/-- One `recv_burst`: the frames it pushed, and what it returned. -/
structure Burst (F : Type) where
  frames : List F
  result : Except TransportError ℕ

/-- What the environment answers in one turn of the pump loop. -/
structure Round (F : Type) where
  legs : ℕ → Burst F
  requester : Burst (List UInt8)
  now : Instant

/-- Requester socket, down to the batch its frames are copied out of. -/
structure Requester where
  scratch : List (List UInt8)

structure MoldUdpReceiver (F : Type) where
  inner : Inner F
  recovery : Option Requester

namespace Inner

/-- `poll_legs` from leg `stream` on, `count` legs remaining. -/
def pollLegsFrom (legs : ℕ → Burst F) : ℕ → ℕ → Bool → Inner F →
    Except MoldUdpError Bool × Inner F
  | 0, _, landed, i => (.ok landed, i)
  | count + 1, stream, landed, i =>
      let batch := i.recvBatch ++ (legs stream).frames
      match (legs stream).result with
      | .error e => (.error (.transport e), { i with recvBatch := batch })
      | .ok 0 => pollLegsFrom legs count (stream + 1) landed { i with recvBatch := batch }
      | .ok _ =>
          pollLegsFrom legs count (stream + 1) true
            { i with
              recvBatch := []
              pendingDatagrams := i.pendingDatagrams ++
                batch.map fun f ↦ (UInt8.ofNat stream, .frame f) }

def pollLegs (legs : ℕ → Burst F) (i : Inner F) : Except MoldUdpError Bool × Inner F :=
  pollLegsFrom legs i.legs.length 0 false i

/-- The clock is read only with several legs. -/
def clock (i : Inner F) (now : Instant) : Option Instant :=
  if i.arbiter.isSome then some now else none

@[simp] theorem isSome_clock (i : Inner F) (now : Instant) :
    (i.clock now).isSome = i.arbiter.isSome := by
  unfold clock
  split
  · next hsome => exact hsome.symm
  · next hnone => exact (Bool.eq_false_of_not_eq_true hnone).symm

variable [AsRef F]

/-- Decode one datagram, then promote the candidates whose window has elapsed. -/
def decodeNext (i : Inner F) (now : Instant) : Except MoldUdpError Unit × Inner F :=
  match i.processNextPending (i.clock now) with
  | (.error e, i') => (.error e, i')
  | (.ok _, i') => (.ok (), if (i.clock now).isSome then i'.drainConfirmedGaps now else i')

end Inner

namespace MoldUdpReceiver

/-- `poll_frames` into `pending_datagrams`; without recovery nothing arrives. -/
def pollFrames (burst : Burst (List UInt8)) (m : MoldUdpReceiver F) :
    Except MoldUdpError Bool × MoldUdpReceiver F :=
  match m.recovery with
  | none => (.ok false, m)
  | some requester =>
      let batch := requester.scratch ++ burst.frames
      match burst.result with
      | .error e => (.error (.transport e), { m with recovery := some ⟨batch⟩ })
      | .ok n =>
          (.ok (decide (0 < n)),
            { inner :=
                { m.inner with
                  pendingDatagrams := m.inner.pendingDatagrams ++
                    batch.map fun bytes ↦ (m.inner.recoveryStream, .copied bytes) }
              recovery := some ⟨[]⟩ })

/-- Poll every source: the legs, and the requester while a gap is pending. -/
def pollSources (round : Round F) (m : MoldUdpReceiver F) :
    Except MoldUdpError Bool × MoldUdpReceiver F :=
  match m.inner.pollLegs round.legs with
  | (.error e, inner) => (.error e, { m with inner := inner })
  | (.ok landed, inner) =>
      let m := { m with inner := inner }
      if inner.gapHandler.hasPending then
        match m.pollFrames round.requester with
        | (.error e, m) => (.error e, m)
        | (.ok arrived, m) => (.ok (landed || arrived), m)
      else (.ok landed, m)

variable [AsRef F]

def decodeNext (m : MoldUdpReceiver F) (now : Instant) :
    Except MoldUdpError Unit × MoldUdpReceiver F :=
  ((m.inner.decodeNext now).1, { m with inner := (m.inner.decodeNext now).2 })

/-- The loop of `pump`; `none` when the script ends before the loop does. -/
def pump : List (Round F) → MoldUdpReceiver F →
    Option (Except MoldUdpError Unit × MoldUdpReceiver F)
  | [], m => if m.inner.ready.isEmpty then none else some (.ok (), m)
  | round :: rounds, m =>
      if !m.inner.ready.isEmpty then some (.ok (), m)
      else if !m.inner.pendingDatagrams.isEmpty then
        match m.decodeNext round.now with
        | (.error e, m) => some (.error e, m)
        | (.ok _, m) => pump rounds m
      else
        match m.pollSources round with
        | (.error e, m) => some (.error e, m)
        | (.ok false, m) => some (.ok (), m)
        | (.ok true, m) =>
            match m.decodeNext round.now with
            | (.error e, m) => some (.error e, m)
            | (.ok _, m) => pump rounds m

/-- Next item of the ready queue, taken off it. -/
def popReady (m : MoldUdpReceiver F) : Option (ReadyItem F × MoldUdpReceiver F) :=
  match m.inner.ready with
  | [] => none
  | item :: rest => some (item, { m with inner := { m.inner with ready := rest } })

def retireCurrent (m : MoldUdpReceiver F) : MoldUdpReceiver F :=
  { m with inner := m.inner.retireCurrent }

/-- One call of `poll`; `none` when the script ends early or the slice panics. -/
def poll (rounds : List (Round F)) (m : MoldUdpReceiver F) :
    Option (Except MoldUdpError (Option (MoldUdpOutcome F)) × MoldUdpReceiver F) :=
  match pump rounds m.retireCurrent with
  | none => none
  | some (.error e, m) => some (.error e, m)
  | some (.ok _, m) =>
      match m.popReady with
      | none => some (.ok none, m)
      | some (item, m) =>
          (m.inner.yieldItem item).map fun r ↦ (r.1.map some, { m with inner := r.2 })

/-- `next_item`: pump until an item is ready, waiting on the sources in between. -/
def nextItem : List (List (Round F) × Except TransportError Unit) → MoldUdpReceiver F →
    Option (Except MoldUdpError (ReadyItem F) × MoldUdpReceiver F)
  | [], _ => none
  | (rounds, wait) :: waits, m =>
      match pump rounds m with
      | none => none
      | some (.error e, m) => some (.error e, m)
      | some (.ok _, m) =>
          match m.popReady, wait with
          | some (item, m), _ => some (.ok item, m)
          | none, .error e => some (.error (.transport e), m)
          | none, .ok _ => nextItem waits m

def recv (waits : List (List (Round F) × Except TransportError Unit)) (m : MoldUdpReceiver F) :
    Option (Except MoldUdpError (MoldUdpOutcome F) × MoldUdpReceiver F) :=
  match nextItem waits m.retireCurrent with
  | none => none
  | some (.error e, m) => some (.error e, m)
  | some (.ok item, m) =>
      (m.inner.yieldItem item).map fun r ↦ (r.1, { m with inner := r.2 })

def recvOwned (waits : List (List (Round F) × Except TransportError Unit))
    (m : MoldUdpReceiver F) :
    Option (Except MoldUdpError (MoldUdpOutcome F) × MoldUdpReceiver F) :=
  match nextItem waits m.retireCurrent with
  | none => none
  | some (.error e, m) => some (.error e, m)
  | some (.ok item, m) =>
      some ((m.inner.yieldOwned item).1, { m with inner := (m.inner.yieldOwned item).2 })

end MoldUdpReceiver

/-! ## The transition system -/

/-- Receiver together with what it has handed out and which datagrams it decoded. -/
structure Session (F : Type) where
  inner : Inner F
  handed : List (MoldUdpOutcome F)
  decoded : List (UInt8 × Held F)

inductive Event (F : Type) where
  | retire
  | land (datagrams : List (UInt8 × Held F)) (batch : List F)
  | decode (now : Instant)
  | yieldItem
  | yieldOwned

/-- The outcome a result hands to the caller, if any. -/
def outcomes : Except MoldUdpError (MoldUdpOutcome F) → List (MoldUdpOutcome F)
  | .ok outcome => [outcome]
  | .error _ => []

variable [AsRef F]

/-- A datagram is decoded, and an item handed out, only once `current` is retired;
decoding also waits for `ready` to be empty.  An event without a successor is a
call the receiver does not make in that state, or one that panics. -/
def Session.next (s : Session F) : Event F → Option (Session F)
  | .retire => some { s with inner := s.inner.retireCurrent }
  | .land datagrams batch =>
      some { s with
        inner :=
          { s.inner with
            pendingDatagrams := s.inner.pendingDatagrams ++ datagrams
            recvBatch := batch } }
  | .decode now =>
      match s.inner.ready, s.inner.current with
      | [], none =>
          some { s with
            inner := (s.inner.decodeNext now).2
            decoded := s.decoded ++ s.inner.pendingDatagrams.take 1 }
      | _, _ => none
  | .yieldItem =>
      match s.inner.ready, s.inner.current with
      | item :: rest, none =>
          (Inner.yieldItem { s.inner with ready := rest } item).map fun r ↦
            { s with inner := r.2, handed := s.handed ++ outcomes r.1 }
      | _, _ => none
  | .yieldOwned =>
      match s.inner.ready, s.inner.current with
      | item :: rest, none =>
          let r := Inner.yieldOwned { s.inner with ready := rest } item
          some { s with inner := r.2, handed := s.handed ++ outcomes r.1 }
      | _, _ => none

/-- What each event does, with its guard. -/
inductive Session.Step (s : Session F) : Event F → Session F → Prop
  | retire : Step s .retire { s with inner := s.inner.retireCurrent }
  | land (datagrams : List (UInt8 × Held F)) (batch : List F) :
      Step s (.land datagrams batch)
        { s with
          inner :=
            { s.inner with
              pendingDatagrams := s.inner.pendingDatagrams ++ datagrams
              recvBatch := batch } }
  | decode (now : Instant) : s.inner.ready = [] → s.inner.current = none →
      Step s (.decode now)
        { s with
          inner := (s.inner.decodeNext now).2
          decoded := s.decoded ++ s.inner.pendingDatagrams.take 1 }
  | yieldItem (item : ReadyItem F) (rest : List (ReadyItem F))
      (r : Except MoldUdpError (MoldUdpOutcome F)) :
      s.inner.ready = item :: rest → s.inner.current = none →
      Inner.yieldItem { s.inner with ready := rest } item =
        some (r, { s.inner with ready := rest, current := some item }) →
      Step s .yieldItem
        { s with
          inner := { s.inner with ready := rest, current := some item }
          handed := s.handed ++ outcomes r }
  | yieldOwned (item : ReadyItem F) (rest : List (ReadyItem F)) :
      s.inner.ready = item :: rest → s.inner.current = none →
      Step s .yieldOwned
        { s with
          inner := (Inner.yieldOwned { s.inner with ready := rest } item).2
          handed := s.handed ++ outcomes (Inner.yieldOwned { s.inner with ready := rest } item).1 }

/-- Yielding moves the item to `current` and writes nothing else. -/
theorem Inner.yieldItem_state {i i' : Inner F} {item : ReadyItem F}
    {r : Except MoldUdpError (MoldUdpOutcome F)} (h : i.yieldItem item = some (r, i')) :
    i' = { i with current := some item } := by
  cases item with
  | inline =>
      obtain ⟨_, -, hpair⟩ := Option.map_eq_some_iff.mp h
      exact (Prod.mk.inj hpair).2.symm
  | view =>
      obtain ⟨_, -, hpair⟩ := Option.map_eq_some_iff.mp h
      exact (Prod.mk.inj hpair).2.symm
  | event => exact (Prod.mk.inj (Option.some.inj h)).2.symm
  | gap => exact (Prod.mk.inj (Option.some.inj h)).2.symm

theorem Session.next_yieldItem {i i' : Inner F} {handed : List (MoldUdpOutcome F)}
    {decoded : List (UInt8 × Held F)} {item : ReadyItem F} {rest : List (ReadyItem F)}
    {r : Except MoldUdpError (MoldUdpOutcome F)} (hready : i.ready = item :: rest)
    (hcurrent : i.current = none)
    (hyield : Inner.yieldItem { i with ready := rest } item = some (r, i')) :
    Session.next ⟨i, handed, decoded⟩ .yieldItem = some ⟨i', handed ++ outcomes r, decoded⟩ := by
  rw [hcurrent] at hyield
  simp only [Session.next, hready, hcurrent, hyield, Option.map_some]

theorem Session.step_of_next {s t : Session F} {e : Event F} (h : s.next e = some t) :
    s.Step e t := by
  cases e with
  | retire =>
      cases h
      exact .retire
  | land datagrams batch =>
      cases h
      exact .land datagrams batch
  | decode now =>
      simp only [Session.next] at h
      split at h
      · next hready hcurrent =>
          cases h
          exact .decode now hready hcurrent
      · cases h
  | yieldItem =>
      simp only [Session.next] at h
      split at h
      · next item rest hready hcurrent =>
          obtain ⟨⟨r, i⟩, hyield, rfl⟩ := Option.map_eq_some_iff.mp h
          obtain rfl := Inner.yieldItem_state hyield
          exact .yieldItem item rest r hready hcurrent hyield
      · cases h
  | yieldOwned =>
      simp only [Session.next] at h
      split at h
      · next item rest hready hcurrent =>
          cases h
          exact .yieldOwned item rest hready hcurrent
      · cases h

/-- The fields that say what was received and what is missing. -/
structure Inner.SameTracking (i i' : Inner F) : Prop where
  session : i'.session = i.session
  reassembler : i'.reassembler = i.reassembler
  nextUnseen : i'.nextUnseen = i.nextUnseen
  gapHandler : i'.gapHandler = i.gapHandler
  arbiter : i'.arbiter = i.arbiter
  seqAnchored : i'.seqAnchored = i.seqAnchored

/-- Only decoding changes what was received and what is missing. -/
theorem Session.Step.sameTracking {s t : Session F} {e : Event F} (h : s.Step e t)
    (hdecode : ∀ now, e ≠ .decode now) :
    s.inner.SameTracking t.inner ∧ t.decoded = s.decoded := by
  cases h with
  | retire =>
      refine ⟨?_, rfl⟩
      dsimp only
      unfold Inner.retireCurrent
      split <;> exact ⟨rfl, rfl, rfl, rfl, rfl, rfl⟩
  | land => exact ⟨⟨rfl, rfl, rfl, rfl, rfl, rfl⟩, rfl⟩
  | decode now => exact (hdecode now rfl).elim
  | yieldItem => exact ⟨⟨rfl, rfl, rfl, rfl, rfl, rfl⟩, rfl⟩
  | yieldOwned item =>
      refine ⟨?_, rfl⟩
      cases item <;> exact ⟨rfl, rfl, rfl, rfl, rfl, rfl⟩

omit [AsRef F] in
theorem Inner.retireCurrent_queue (i : Inner F) :
    i.retireCurrent.ready = i.ready ∧ i.retireCurrent.current = none := by
  unfold retireCurrent
  split <;> exact ⟨rfl, rfl⟩

def machine (F : Type) [AsRef F] : Machine (Session F) (Event F) := .ofNext Session.next

def Session.start (inner : Inner F) : Session F := ⟨inner, [], []⟩

/-! ## Calls are runs -/

omit [AsRef F] in
/-- Polling the legs only adds datagrams to decode and leaves a batch behind. -/
theorem Inner.pollLegsFrom_eq (legs : ℕ → Burst F) (count : ℕ) :
    ∀ (stream : ℕ) (landed : Bool) (i : Inner F), ∃ datagrams batch,
      (pollLegsFrom legs count stream landed i).2 =
        { i with
          pendingDatagrams := i.pendingDatagrams ++ datagrams
          recvBatch := batch } := by
  induction count with
  | zero => exact fun _ _ i ↦ ⟨[], i.recvBatch, by simp [pollLegsFrom]⟩
  | succ count ih =>
      intro stream landed i
      unfold pollLegsFrom
      dsimp only
      split
      · exact ⟨[], _, by rw [List.append_nil]⟩
      · obtain ⟨datagrams, batch, h⟩ := ih (stream + 1) landed
          { i with recvBatch := i.recvBatch ++ (legs stream).frames }
        exact ⟨datagrams, batch, h⟩
      · obtain ⟨datagrams, batch, h⟩ := ih (stream + 1) true
          { i with
            recvBatch := []
            pendingDatagrams := i.pendingDatagrams ++
              (i.recvBatch ++ (legs stream).frames).map fun f ↦
                (UInt8.ofNat stream, .frame f) }
        exact ⟨_ ++ datagrams, batch, by rw [h, ← List.append_assoc]⟩

theorem Inner.current_decodeNext (i : Inner F) (now : Instant) :
    (i.decodeNext now).2.current = i.current := by
  have hcurrent := (i.processNextPending_processed (i.clock now)).current
  unfold decodeNext
  generalize i.processNextPending (i.clock now) = processed at hcurrent ⊢
  obtain ⟨_ | _, i'⟩ := processed
  · exact hcurrent
  · dsimp only
    split
    · exact (current_drainConfirmedGaps i' now).trans hcurrent
    · exact hcurrent

omit [AsRef F] in
/-- Polling every source lands datagrams and changes nothing else of `inner`. -/
theorem MoldUdpReceiver.pollSources_eq (round : Round F) (m : MoldUdpReceiver F) :
    ∃ datagrams batch, (m.pollSources round).2.inner =
      { m.inner with
        pendingDatagrams := m.inner.pendingDatagrams ++ datagrams
        recvBatch := batch } := by
  obtain ⟨datagrams, batch, hlegs⟩ :=
    Inner.pollLegsFrom_eq round.legs m.inner.legs.length 0 false m.inner
  change (m.inner.pollLegs round.legs).2 = _ at hlegs
  unfold pollSources
  generalize m.inner.pollLegs round.legs = polled at hlegs ⊢
  obtain ⟨_ | landed, inner⟩ := polled
  · exact ⟨datagrams, batch, hlegs⟩
  · subst hlegs
    dsimp only
    split
    · unfold pollFrames
      dsimp only
      cases m.recovery with
      | none => exact ⟨datagrams, batch, rfl⟩
      | some requester =>
          cases round.requester.result with
          | error e => exact ⟨datagrams, batch, rfl⟩
          | ok n => exact ⟨_, batch, by dsimp only; rw [List.append_assoc]⟩
    · exact ⟨datagrams, batch, rfl⟩

/-- Runs with no condition on their events. -/
abbrev Session.Reaches (s t : Session F) : Prop := (machine F).Run (fun _ _ ↦ True) s t

namespace MoldUdpReceiver

variable {handed : List (MoldUdpOutcome F)} {decoded : List (UInt8 × Held F)}

theorem decodeNext_reaches (m : MoldUdpReceiver F) (now : Instant)
    (hready : m.inner.ready = []) (hcurrent : m.inner.current = none) :
    Session.Reaches ⟨m.inner, handed, decoded⟩
      ⟨(m.decodeNext now).2.inner, handed, decoded ++ m.inner.pendingDatagrams.take 1⟩ := by
  refine .single (e := .decode now) trivial ?_
  change Session.next _ _ = _
  simp only [Session.next, hready, hcurrent]
  rfl

theorem pollSources_reaches (round : Round F) (m : MoldUdpReceiver F) :
    Session.Reaches ⟨m.inner, handed, decoded⟩
      ⟨(m.pollSources round).2.inner, handed, decoded⟩ := by
  obtain ⟨datagrams, batch, h⟩ := m.pollSources_eq round
  rw [h]
  exact .single (e := .land datagrams batch) trivial rfl

/-- The pump loop is a run that hands nothing out. -/
theorem pump_reaches (rounds : List (Round F)) :
    ∀ {m m' : MoldUdpReceiver F} {r : Except MoldUdpError Unit}
      {decoded : List (UInt8 × Held F)}, m.inner.current = none →
      pump rounds m = some (r, m') → m'.inner.current = none ∧
        ∃ decoded', Session.Reaches ⟨m.inner, handed, decoded⟩ ⟨m'.inner, handed, decoded'⟩ := by
  induction rounds with
  | nil =>
      intro m m' r decoded hcurrent h
      unfold pump at h
      split at h
      · cases h
      · cases h
        exact ⟨hcurrent, decoded, .refl⟩
  | cons round rounds ih =>
      -- one decode, after which the loop returns or goes on
      have hdecode : ∀ {m m' : MoldUdpReceiver F} {r : Except MoldUdpError Unit}
          {decoded : List (UInt8 × Held F)}, m.inner.ready = [] → m.inner.current = none →
          (match m.decodeNext round.now with
            | (.error e, m) => some (.error e, m)
            | (.ok _, m) => pump rounds m) = some (r, m') → m'.inner.current = none ∧
          ∃ decoded', Session.Reaches ⟨m.inner, handed, decoded⟩
            ⟨m'.inner, handed, decoded'⟩ := by
        intro m m' r decoded hready hcurrent h
        have hrun := @decodeNext_reaches _ _ handed decoded m round.now hready hcurrent
        have hcur : (m.decodeNext round.now).2.inner.current = none :=
          (m.inner.current_decodeNext round.now).trans hcurrent
        generalize m.decodeNext round.now = next at h hrun hcur
        obtain ⟨_ | _, m₁⟩ := next
        · cases h
          exact ⟨hcur, _, hrun⟩
        · obtain ⟨hcur', decoded', hrest⟩ := ih hcur h
          exact ⟨hcur', decoded', hrun.trans hrest⟩
      intro m m' r decoded hcurrent h
      unfold pump at h
      split at h
      · cases h
        exact ⟨hcurrent, decoded, .refl⟩
      · next hready =>
          have hready : m.inner.ready = [] := by simpa using hready
          split at h
          · exact hdecode hready hcurrent h
          · have hrun := @pollSources_reaches _ _ handed decoded round m
            obtain ⟨datagrams, batch, hinner⟩ := m.pollSources_eq round
            generalize m.pollSources round = polled at h hrun hinner
            obtain ⟨_ | landed, m₁⟩ := polled
            · cases h
              exact ⟨(congrArg Inner.current hinner).trans hcurrent, _, hrun⟩
            · have hcur₁ : m₁.inner.current = none :=
                (congrArg Inner.current hinner).trans hcurrent
              cases landed with
              | false =>
                  cases h
                  exact ⟨hcur₁, _, hrun⟩
              | true =>
                  obtain ⟨hcur', decoded', hrest⟩ :=
                    hdecode ((congrArg Inner.ready hinner).trans hready) hcur₁ h
                  exact ⟨hcur', decoded', hrun.trans hrest⟩

omit [AsRef F] in
theorem popReady_eq_some {m m' : MoldUdpReceiver F} {item : ReadyItem F}
    (h : m.popReady = some (item, m')) :
    ∃ rest, m.inner.ready = item :: rest ∧ m'.inner = { m.inner with ready := rest } := by
  unfold popReady at h
  split at h
  · cases h
  · next rest hready =>
      cases h
      exact ⟨rest, hready, rfl⟩

theorem retireCurrent_reaches (m : MoldUdpReceiver F) :
    m.retireCurrent.inner.current = none ∧
      Session.Reaches ⟨m.inner, handed, decoded⟩ ⟨m.retireCurrent.inner, handed, decoded⟩ :=
  ⟨m.inner.retireCurrent_queue.2, .single (e := .retire) trivial rfl⟩

theorem yieldItem_reaches {i i' : Inner F} {item : ReadyItem F} {rest : List (ReadyItem F)}
    {r : Except MoldUdpError (MoldUdpOutcome F)} (hready : i.ready = item :: rest)
    (hcurrent : i.current = none)
    (hyield : Inner.yieldItem { i with ready := rest } item = some (r, i')) :
    Session.Reaches ⟨i, handed, decoded⟩ ⟨i', handed ++ outcomes r, decoded⟩ :=
  .single (e := .yieldItem) trivial (Session.next_yieldItem hready hcurrent hyield)

theorem yieldOwned_reaches {i : Inner F} {item : ReadyItem F} {rest : List (ReadyItem F)}
    (hready : i.ready = item :: rest) (hcurrent : i.current = none) :
    Session.Reaches ⟨i, handed, decoded⟩
      ⟨(Inner.yieldOwned { i with ready := rest } item).2,
        handed ++ outcomes (Inner.yieldOwned { i with ready := rest } item).1, decoded⟩ := by
  refine .single (e := .yieldOwned) trivial ?_
  change Session.next _ _ = _
  simp only [Session.next, hready, hcurrent]

/-- The outcome a call of `poll` hands out, if any. -/
def polled : Except MoldUdpError (Option (MoldUdpOutcome F)) → List (MoldUdpOutcome F)
  | .ok (some outcome) => [outcome]
  | _ => []

/-- Every call of `poll` that returns is a run handing out what the call returned. -/
theorem poll_reaches {rounds : List (Round F)} {m m' : MoldUdpReceiver F}
    {r : Except MoldUdpError (Option (MoldUdpOutcome F))} (h : m.poll rounds = some (r, m')) :
    ∃ decoded', Session.Reaches ⟨m.inner, handed, decoded⟩
      ⟨m'.inner, handed ++ polled r, decoded'⟩ := by
  obtain ⟨hcurrent, hretire⟩ := @retireCurrent_reaches _ _ handed decoded m
  unfold poll at h
  cases hpump : pump rounds m.retireCurrent with
  | none => simp [hpump] at h
  | some p =>
      obtain ⟨result, m₁⟩ := p
      obtain ⟨hcurrent₁, decoded₁, hrun⟩ :=
        @pump_reaches _ _ handed rounds _ _ _ decoded hcurrent hpump
      rw [hpump] at h
      cases result with
      | error e =>
          cases h
          exact ⟨decoded₁, by simpa [polled] using hretire.trans hrun⟩
      | ok u =>
          dsimp only at h
          cases hpop : m₁.popReady with
          | none =>
              rw [hpop] at h
              cases h
              exact ⟨decoded₁, by simpa [polled] using hretire.trans hrun⟩
          | some q =>
              obtain ⟨item, m₂⟩ := q
              obtain ⟨rest, hready, hinner⟩ := popReady_eq_some hpop
              rw [hpop] at h
              dsimp only at h
              rw [hinner] at h
              obtain ⟨⟨outcome, i'⟩, hyield, hr⟩ := Option.map_eq_some_iff.mp h
              cases hr
              have hlast := @yieldItem_reaches _ _ handed decoded₁ _ _ _ _ _ hready hcurrent₁ hyield
              refine ⟨decoded₁, (hretire.trans hrun).trans ?_⟩
              cases outcome <;> exact hlast

/-- Waiting for an item is a run that leaves it at the front of the queue. -/
theorem nextItem_reaches (waits : List (List (Round F) × Except TransportError Unit)) :
    ∀ {m m' : MoldUdpReceiver F} {r : Except MoldUdpError (ReadyItem F)}
      {decoded : List (UInt8 × Held F)}, m.inner.current = none →
      nextItem waits m = some (r, m') →
      ∃ i decoded', Session.Reaches ⟨m.inner, handed, decoded⟩ ⟨i, handed, decoded'⟩ ∧
        i.current = none ∧
        match r with
        | .error _ => m'.inner = i
        | .ok item => ∃ rest, i.ready = item :: rest ∧ m'.inner = { i with ready := rest } := by
  induction waits with
  | nil => intro m m' r decoded _ h; cases h
  | cons w waits ih =>
      obtain ⟨rounds, wait⟩ := w
      intro m m' r decoded hcurrent h
      unfold nextItem at h
      cases hpump : pump rounds m with
      | none => simp [hpump] at h
      | some p =>
          obtain ⟨result, m₁⟩ := p
          obtain ⟨hcurrent₁, decoded₁, hrun⟩ :=
            @pump_reaches _ _ handed rounds _ _ _ decoded hcurrent hpump
          rw [hpump] at h
          cases result with
          | error e =>
              cases h
              exact ⟨_, decoded₁, hrun, hcurrent₁, rfl⟩
          | ok u =>
              dsimp only at h
              cases hpop : m₁.popReady with
              | some q =>
                  obtain ⟨item, m₂⟩ := q
                  rw [hpop] at h
                  cases h
                  exact ⟨m₁.inner, decoded₁, hrun, hcurrent₁, popReady_eq_some hpop⟩
              | none =>
                  rw [hpop] at h
                  cases wait with
                  | error e =>
                      cases h
                      exact ⟨_, decoded₁, hrun, hcurrent₁, rfl⟩
                  | ok u =>
                      obtain ⟨i, decoded', hrest, hi, hr⟩ := ih hcurrent₁ h
                      exact ⟨i, decoded', hrun.trans hrest, hi, hr⟩

theorem recv_reaches {waits : List (List (Round F) × Except TransportError Unit)}
    {m m' : MoldUdpReceiver F} {r : Except MoldUdpError (MoldUdpOutcome F)}
    (h : m.recv waits = some (r, m')) :
    ∃ decoded', Session.Reaches ⟨m.inner, handed, decoded⟩
      ⟨m'.inner, handed ++ outcomes r, decoded'⟩ := by
  obtain ⟨hcurrent, hretire⟩ := @retireCurrent_reaches _ _ handed decoded m
  unfold recv at h
  cases hnext : nextItem waits m.retireCurrent with
  | none => simp [hnext] at h
  | some p =>
      obtain ⟨result, m₁⟩ := p
      obtain ⟨i, decoded₁, hrun, hi, hitem⟩ :=
        @nextItem_reaches _ _ handed waits _ _ _ decoded hcurrent hnext
      rw [hnext] at h
      cases result with
      | error e =>
          cases h
          subst hitem
          exact ⟨decoded₁, by simpa [outcomes] using hretire.trans hrun⟩
      | ok item =>
          obtain ⟨rest, hready, hinner⟩ := hitem
          dsimp only at h
          rw [hinner] at h
          obtain ⟨⟨outcome, i'⟩, hyield, hr⟩ := Option.map_eq_some_iff.mp h
          cases hr
          exact ⟨decoded₁, (hretire.trans hrun).trans (yieldItem_reaches hready hi hyield)⟩

theorem recvOwned_reaches {waits : List (List (Round F) × Except TransportError Unit)}
    {m m' : MoldUdpReceiver F} {r : Except MoldUdpError (MoldUdpOutcome F)}
    (h : m.recvOwned waits = some (r, m')) :
    ∃ decoded', Session.Reaches ⟨m.inner, handed, decoded⟩
      ⟨m'.inner, handed ++ outcomes r, decoded'⟩ := by
  obtain ⟨hcurrent, hretire⟩ := @retireCurrent_reaches _ _ handed decoded m
  unfold recvOwned at h
  cases hnext : nextItem waits m.retireCurrent with
  | none => simp [hnext] at h
  | some p =>
      obtain ⟨result, m₁⟩ := p
      obtain ⟨i, decoded₁, hrun, hi, hitem⟩ :=
        @nextItem_reaches _ _ handed waits _ _ _ decoded hcurrent hnext
      rw [hnext] at h
      cases result with
      | error e =>
          cases h
          subst hitem
          exact ⟨decoded₁, by simpa [outcomes] using hretire.trans hrun⟩
      | ok item =>
          obtain ⟨rest, hready, hinner⟩ := hitem
          dsimp only at h
          rw [hinner] at h
          cases h
          exact ⟨decoded₁, (hretire.trans hrun).trans (yieldOwned_reaches hready hi)⟩

end MoldUdpReceiver

end MoldUdp
