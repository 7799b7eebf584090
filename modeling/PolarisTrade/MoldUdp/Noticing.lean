import PolarisTrade.MoldUdp.Tracking

/-!
# A history of every decode

The receiver keeps no record of when it first missed a number or of what it already
reported.  The history written here next to the session does: for each decode, the numbers
its datagram carried, the gap candidates it staged and what it handed to the gap handler.
The session itself runs as before.
-/

namespace MoldUdp

open Transport Word

variable {F : Type}

/-! ## What one decode does -/

/-- One decode.  `staged` are the numbers of the candidates it adds, `opened` the ranges
handed to `record_missing_range` and `confirmed` the numbers handed to `record_gap`. -/
structure Record where
  time : Instant
  carried : List ℕ
  staged : List ℕ
  opened : List (ℕ × ℕ)
  confirmed : List ℕ

/-- How often this decode reports `s` missing. -/
def Record.reports (r : Record) (s : ℕ) : ℕ :=
  r.opened.countP (fun g ↦ g.1 ≤ s ∧ s < g.2) + r.confirmed.count s

/-- The blocks a refused insert keeps the loop from reaching. -/
def Decoding.cutOff (streamId : UInt8) (now : Option Instant) :
    List Block → Decoding F → List Block
  | [], _ => []
  | b :: blocks, d =>
      match decodeBlock streamId now b d with
      | (.ok _, d) => cutOff streamId now blocks d
      | (.error _, _) => blocks

namespace Inner

/-- The range `note_tail_gap` records. -/
def tailGap (i : Inner F) (nextExpected : ℕ) : List (ℕ × ℕ) :=
  if i.nextUnseen < nextExpected then [(i.nextUnseen, nextExpected)] else []

/-- The range a jump records; with several legs it is staged instead. -/
def jumpGap (i : Inner F) (sequence : ℕ) (now : Option Instant) : List (ℕ × ℕ) :=
  if i.nextUnseen < sequence then
    match i.arbiter, now with
    | some _, some _ => []
    | _, _ => [(i.nextUnseen, sequence)]
  else []

/-- The gap candidates with the instants they were staged at. -/
def candidates (i : Inner F) : List (ℕ × Instant) :=
  match i.arbiter with
  | none => []
  | some a => a.pendingGapConfirms.entries

variable [AsRef F]

/-- Header of a datagram the receiver accepts. -/
def headerOf (i : Inner F) (datagram : Held F) : Option DownstreamHeader :=
  match parseHeader datagram.asRef with
  | .error _ => none
  | .ok header =>
      if i.session = none ∨ i.session = some header.session then some header else none

end Inner

/-- The blocks of a data datagram none of which is truncated. -/
def wholeBlocks [AsRef F] (datagram : Held F) (header : DownstreamHeader) : Option (List Block) :=
  match header.kind, numberBlocks header.sequence (header.blocks datagram.asRef) with
  | .data, (blocks, .ok _) => some blocks
  | _, _ => none

namespace Inner

variable [AsRef F]

/-- Numbers of the messages in a datagram, as far as the receiver accepts it. -/
def numbersIn (i : Inner F) (datagram : Held F) : List ℕ :=
  match (i.headerOf datagram).bind (wholeBlocks datagram) with
  | none => []
  | some blocks => blocks.map Block.seq

/-- Numbers of the messages still waiting to be decoded. -/
def queued (i : Inner F) : List ℕ := i.pendingDatagrams.flatMap fun p ↦ i.numbersIn p.2

/-- Numbers of the messages in the datagram up next. -/
def carried (i : Inner F) : List ℕ :=
  match i.pendingDatagrams with
  | [] => []
  | (_, datagram) :: _ => i.numbersIn datagram

/-- Carried numbers that a refused insert keeps the loop from reaching. -/
def cutOff (i : Inner F) (now : Option Instant) : List ℕ :=
  match i.pendingDatagrams with
  | [] => []
  | (streamId, datagram) :: rest =>
      match i.headerOf datagram with
      | none => []
      | some header =>
          match wholeBlocks datagram header with
          | none => []
          | some blocks =>
              (Decoding.cutOff streamId now blocks
                (enterLoop { i.accepted rest header with blocks := blocks } header datagram
                  now)).map Block.seq

def opened (i : Inner F) (now : Option Instant) : List (ℕ × ℕ) :=
  match i.pendingDatagrams with
  | [] => []
  | (_, datagram) :: rest =>
      match i.headerOf datagram with
      | none => []
      | some header =>
          match header.kind, wholeBlocks datagram header with
          | .data, none => []
          | .data, some _ => (i.accepted rest header).jumpGap header.sequence now
          | _, _ => (i.accepted rest header).tailGap header.sequence

/-- Numbers of the candidates that processing the datagram up next adds. -/
def staged (i : Inner F) (now : Option Instant) : List ℕ :=
  ((i.processNextPending now).2.candidates.filter fun p ↦ p ∉ i.candidates).map Prod.fst

/-- Candidates promoted after processing; none when it failed. -/
def confirmed (i : Inner F) (now : Instant) : List ℕ :=
  match i.processNextPending (i.clock now) with
  | (.error _, _) => []
  | (.ok _, i') =>
      match i'.arbiter with
      | none => []
      | some a => (a.confirmedGaps now).1

def record (i : Inner F) (now : Instant) : Record where
  time := now
  carried := i.carried
  staged := i.staged (i.clock now)
  opened := i.opened (i.clock now)
  confirmed := i.confirmed now

end Inner

/-! ## The session with its history -/

structure Watched (F : Type) where
  session : Session F
  log : List Record

namespace Watched

def start (inner : Inner F) : Watched F := ⟨.start inner, []⟩

/-- How often `s` was reported missing so far. -/
def reports (w : Watched F) (s : ℕ) : ℕ := (w.log.map (·.reports s)).sum

variable [AsRef F]

def noted (w : Watched F) : Event F → List Record
  | .decode now => w.log ++ [w.session.inner.record now]
  | _ => w.log

def next (w : Watched F) (e : Event F) : Option (Watched F) :=
  (w.session.next e).map fun session ↦ ⟨session, w.noted e⟩

def machine (F : Type) [AsRef F] : Machine (Watched F) (Event F) := .ofNext next

/-- Every run of the session is a run with a history. -/
theorem exists_run {inner : Inner F} {s : Session F}
    (hrun : Session.Reaches (Session.start inner) s) :
    ∃ log, (machine F).Run (fun _ _ ↦ True) (start inner) ⟨s, log⟩ := by
  induction hrun with
  | refl => exact ⟨[], .refl⟩
  | @tail t u e _ _ hstep ih =>
      obtain ⟨log, hlog⟩ := ih
      refine ⟨noted ⟨t, log⟩ e, .tail e hlog trivial ?_⟩
      exact Option.map_eq_some_iff.mpr ⟨u, hstep, rfl⟩

/-- A step with a history is a step of the session; a decode adds its record. -/
theorem next_cases {w w' : Watched F} {e : Event F} (h : w.next e = some w') :
    w.session.next e = some w'.session ∧
      ((w.session.inner.SameTracking w'.session.inner ∧ w'.log = w.log) ∨
        ∃ now, e = .decode now ∧ w'.session.inner = (w.session.inner.decodeNext now).2 ∧
          w'.log = w.log ++ [w.session.inner.record now]) := by
  obtain ⟨t, hnext, rfl⟩ := Option.map_eq_some_iff.mp h
  refine ⟨hnext, ?_⟩
  have hstep := Session.step_of_next hnext
  by_cases hdecode : ∀ now, e ≠ .decode now
  · refine Or.inl ⟨(hstep.sameTracking hdecode).1, ?_⟩
    cases e with
    | decode now => exact (hdecode now rfl).elim
    | _ => rfl
  · cases hstep with
    | decode now => exact Or.inr ⟨now, rfl, rfl, rfl⟩
    | _ => exact (hdecode fun now ↦ by simp).elim

/-- Without its history a run is a run of the session. -/
theorem session_run {allowed : Watched F → Event F → Prop} {inner : Inner F} {w : Watched F}
    (hrun : (machine F).Run allowed (start inner) w) :
    Session.Reaches (Session.start inner) w.session := by
  induction hrun with
  | refl => exact .refl
  | tail e _ _ hstep ih => exact .tail e ih trivial (next_cases hstep).1

omit [AsRef F] in
/-- A record adds its own reports. -/
theorem reports_append {w w' : Watched F} {r : Record} (h : w'.log = w.log ++ [r]) (s : ℕ) :
    w'.reports s = w.reports s + r.reports s := by
  simp [reports, h]

end Watched

/-! ## Inversion -/

section Decodes

variable [AsRef F]

/-- Everything processing the datagram up next can do to the tracking state, with the
numbers carried, the numbers cut off and the ranges recorded. -/
inductive Inner.Decodes (i : Inner F) (now : Option Instant) :
    List ℕ → List ℕ → List (ℕ × ℕ) → Inner F → Prop
  | kept {i' : Inner F} : i.SameTracking i' → Decodes i now [] [] [] i'
  | tail {rest : List (UInt8 × Held F)} {header : DownstreamHeader} {i' : Inner F} :
      header.sequence < 2 ^ 64 →
      ((i.accepted rest header).noteTailGap header.sequence).SameTracking i' →
      Decodes i now [] [] ((i.accepted rest header).tailGap header.sequence) i'
  | truncated {rest : List (UInt8 × Held F)} {header : DownstreamHeader} {i' : Inner F} :
      header.sequence < 2 ^ 64 → (i.accepted rest header).SameTracking i' →
      Decodes i now [] [] [] i'
  | loop {streamId : UInt8} {datagram : Held F} {rest : List (UInt8 × Held F)}
      {header : DownstreamHeader} {blocks : List Block} {i' : Inner F} :
      parseHeader datagram.asRef = .ok header →
      numberBlocks header.sequence (header.blocks datagram.asRef) = (blocks, .ok ()) →
      (Decoding.decodeBlocks streamId now blocks
        (enterLoop { i.accepted rest header with blocks := blocks } header datagram
          now)).2.inner.SameTracking i' →
      Decodes i now (blocks.map Block.seq)
        ((Decoding.cutOff streamId now blocks
          (enterLoop { i.accepted rest header with blocks := blocks } header datagram
            now)).map Block.seq)
        ((i.accepted rest header).jumpGap header.sequence now) i'

theorem Inner.headerOf_eq {i : Inner F} {datagram : Held F} {header : DownstreamHeader}
    (hparse : parseHeader datagram.asRef = .ok header)
    (hsession : i.session = none ∨ i.session = some header.session) :
    i.headerOf datagram = some header := by
  rw [headerOf, hparse]
  exact if_pos hsession

theorem Inner.processNextPending_decodes (i : Inner F) (now : Option Instant) :
    i.Decodes now i.carried (i.cutOff now) (i.opened now) (i.processNextPending now).2 := by
  have hprocessed := i.processNextPending_processed now
  unfold carried cutOff opened
  generalize i.processNextPending now = processed at hprocessed ⊢
  obtain ⟨r, i'⟩ := processed
  dsimp only at hprocessed ⊢
  cases hprocessed with
  | idle hpending =>
      rw [hpending]
      exact .kept ⟨rfl, rfl, rfl, rfl, rfl, rfl⟩
  | unparsed e hpending hparse =>
      simp only [hpending, numbersIn, headerOf, hparse]
      exact .kept ⟨rfl, rfl, rfl, rfl, rfl, rfl⟩
  | @mismatch _ _ _ header expected hpending hparse hsession hne =>
      have hother : ¬ (i.session = none ∨ i.session = some header.session) := by
        rw [hsession]
        rintro (hnone | hlocked)
        · cases hnone
        · exact hne (Option.some.inj hlocked)
      simp only [hpending, numbersIn, headerOf, hparse, if_neg hother]
      exact .kept ⟨rfl, rfl, rfl, rfl, rfl, rfl⟩
  | @control _ datagram rest header ev hpending hparse hsession hkind =>
      have hheader := headerOf_eq hparse hsession
      have hwhole : wholeBlocks datagram header = none := by
        unfold wholeBlocks
        split
        · next hdata _ => exact (hkind hdata).elim
        · rfl
      simp only [hpending, numbersIn, hheader, Option.bind_some, hwhole]
      have htail : i.Decodes now [] [] ((i.accepted rest header).tailGap header.sequence)
          (((i.accepted rest header).noteTailGap header.sequence).pushEvent ev) :=
        .tail (parseHeader_sequence_lt hparse) ⟨rfl, rfl, rfl, rfl, rfl, rfl⟩
      cases hk : header.kind with
      | heartbeat => exact htail
      | endOfSession => exact htail
      | data => exact (hkind hk).elim
  | @data streamId datagram rest header hpending hparse hsession hkind =>
      have hheader := headerOf_eq hparse hsession
      rcases (i.accepted rest header).decodeData_cases streamId datagram header now with
        ⟨blocks, e, hnumber, hdecode⟩ | ⟨blocks, hnumber, hloop⟩
      · have hwhole : wholeBlocks datagram header = none := by
          rw [wholeBlocks, hkind, hnumber]
        simp only [hpending, numbersIn, hheader, Option.bind_some, hwhole, hkind, hdecode]
        exact .truncated (parseHeader_sequence_lt hparse) ⟨rfl, rfl, rfl, rfl, rfl, rfl⟩
      · have hwhole : wholeBlocks datagram header = some blocks := by
          rw [wholeBlocks, hkind, hnumber]
        simp only [hpending, numbersIn, hheader, Option.bind_some, hwhole, hkind]
        refine .loop hparse hnumber ?_
        rcases hloop with ⟨e, d, hloop, hdecode⟩ | ⟨d, hloop, hdecode⟩
        · rw [hloop, hdecode]
          exact ⟨rfl, rfl, rfl, rfl, rfl, rfl⟩
        · rw [hloop, hdecode]
          dsimp only
          unfold Decoding.install
          split <;> exact ⟨rfl, rfl, rfl, rfl, rfl, rfl⟩

end Decodes

/-! ## The mark and the ranges recorded -/

namespace Inner

theorem nextUnseen_accepted (i : Inner F) (rest : List (UInt8 × Held F))
    (header : DownstreamHeader) :
    (i.accepted rest header).nextUnseen =
      if i.seqAnchored then i.nextUnseen else header.sequence := by
  unfold accepted anchor
  split <;> rfl

/-- A header ahead of the mark was not the one that anchored the receiver. -/
theorem anchored_of_accepted_lt (i : Inner F) {rest : List (UInt8 × Held F)}
    {header : DownstreamHeader} (hlt : (i.accepted rest header).nextUnseen < header.sequence) :
    i.seqAnchored = true := by
  by_contra hblank
  rw [nextUnseen_accepted, if_neg hblank] at hlt
  exact lt_irrefl _ hlt

theorem jumpGap_cases (i : Inner F) (sequence : ℕ) (now : Option Instant) :
    i.jumpGap sequence now = [] ∨
      (i.nextUnseen < sequence ∧ (i.arbiter = none ∨ now = none) ∧
        i.jumpGap sequence now = [(i.nextUnseen, sequence)]) := by
  unfold jumpGap
  by_cases hlt : i.nextUnseen < sequence
  · rw [if_pos hlt]
    cases i.arbiter with
    | none => exact Or.inr ⟨hlt, Or.inl rfl, rfl⟩
    | some a =>
        cases now with
        | none => exact Or.inr ⟨hlt, Or.inr rfl, rfl⟩
        | some t => exact Or.inl rfl
  · exact Or.inl (if_neg hlt)

theorem gapHandler_accepted (i : Inner F) (rest : List (UInt8 × Held F))
    (header : DownstreamHeader) : (i.accepted rest header).gapHandler = i.gapHandler := by
  unfold accepted anchor
  split <;> rfl

theorem nextUnseen_noteTailGap (i : Inner F) (nextExpected : ℕ) :
    (i.noteTailGap nextExpected).nextUnseen = max i.nextUnseen nextExpected := by
  unfold noteTailGap
  split
  · next hlt => exact (max_eq_right hlt.le).symm
  · next hle => exact (max_eq_left (Nat.le_of_not_lt hle)).symm

@[simp] theorem arbiter_noteTailGap (i : Inner F) (nextExpected : ℕ) :
    (i.noteTailGap nextExpected).arbiter = i.arbiter := by
  unfold noteTailGap
  split <;> rfl

@[simp] theorem seqAnchored_noteTailGap (i : Inner F) (nextExpected : ℕ) :
    (i.noteTailGap nextExpected).seqAnchored = i.seqAnchored := by
  unfold noteTailGap
  split <;> rfl

theorem candidates_congr {i i' : Inner F} (h : i'.arbiter = i.arbiter) :
    i'.candidates = i.candidates := by
  unfold candidates
  rw [h]

theorem candidates_of_none {i : Inner F} (h : i.arbiter = none) : i.candidates = [] := by
  unfold candidates
  rw [h]

theorem candidates_of_some {i : Inner F} {a : AbArbiter} (h : i.arbiter = some a) :
    i.candidates = a.pendingGapConfirms.entries := by
  unfold candidates
  rw [h]

/-- A candidate lies below the mark. -/
theorem Tracking.candidate_lt {i : Inner F} (h : i.Tracking) {p : ℕ × Instant}
    (hp : p ∈ i.candidates) : p.1 < i.nextUnseen := by
  unfold candidates at hp
  split at hp
  · cases hp
  · next a harbiter => exact (h.arbiter a harbiter).staged p.1 ⟨p.2, hp⟩

/-- Only an anchored receiver has candidates. -/
theorem Tracking.anchored_of_candidate {i : Inner F} (h : i.Tracking) {p : ℕ × Instant}
    (hp : p ∈ i.candidates) : i.seqAnchored = true := by
  by_contra hblank
  unfold candidates at hp
  split at hp
  · cases hp
  · next a harbiter =>
      exact (h.blank (Bool.eq_false_of_not_eq_true hblank) p.1).2 a harbiter ⟨p.2, hp⟩

/-- A candidate after processing was one before or is staged by it. -/
theorem mem_staged_or_mem [AsRef F] (i : Inner F) (now : Option Instant) {p : ℕ × Instant}
    (hp : p ∈ (i.processNextPending now).2.candidates) :
    p ∈ i.candidates ∨ p.1 ∈ i.staged now := by
  by_cases hold : p ∈ i.candidates
  · exact Or.inl hold
  · exact Or.inr (List.mem_map_of_mem (List.mem_filter.mpr ⟨hp, by simpa using hold⟩))

/-- The mark of the loop, raised on entry and kept by every round. -/
theorem nextUnseen_loop (i : Inner F) (streamId : UInt8) (header : DownstreamHeader)
    (datagram : Held F) (now : Option Instant) (blocks : List Block) :
    (Decoding.decodeBlocks streamId now blocks
      (i.enterLoop header datagram now)).2.inner.nextUnseen =
      max i.nextUnseen (saturatingAdd header.sequence header.messageCount) :=
  (Decoding.decodeBlocks_frame streamId now blocks (i.enterLoop header datagram now)).nextUnseen

theorem seqAnchored_loop (i : Inner F) (streamId : UInt8) (header : DownstreamHeader)
    (datagram : Held F) (now : Option Instant) (blocks : List Block) :
    (Decoding.decodeBlocks streamId now blocks
      (i.enterLoop header datagram now)).2.inner.seqAnchored = i.seqAnchored :=
  (Decoding.decodeBlocks_frame streamId now blocks
    (i.enterLoop header datagram now)).seqAnchored.trans
      (noteJump_frame i header.sequence now).seqAnchored

theorem isSome_arbiter_loop (i : Inner F) (streamId : UInt8) (header : DownstreamHeader)
    (datagram : Held F) (now : Option Instant) (blocks : List Block) :
    (Decoding.decodeBlocks streamId now blocks
      (i.enterLoop header datagram now)).2.inner.arbiter.isSome = i.arbiter.isSome :=
  (Decoding.isSome_arbiter_decodeBlocks streamId now blocks
    (i.enterLoop header datagram now)).trans (isSome_arbiter_noteJump i header.sequence now)

end Inner

theorem le_saturatingAdd_sequence (header : DownstreamHeader) (h : header.sequence < 2 ^ 64) :
    header.sequence ≤ saturatingAdd header.sequence header.messageCount := by
  unfold saturatingAdd
  rw [max64]
  omega

namespace Inner.Decodes

variable [AsRef F] {i i' : Inner F} {now : Option Instant} {carried cutOff : List ℕ}
  {opened : List (ℕ × ℕ)}

/-- Once anchored the receiver stays so, and its mark only grows. -/
theorem nextUnseen_le (h : i.Decodes now carried cutOff opened i')
    (hanchored : i.seqAnchored = true) :
    i'.seqAnchored = true ∧ i.nextUnseen ≤ i'.nextUnseen := by
  have haccepted : ∀ rest header, (i.accepted rest header).nextUnseen = i.nextUnseen :=
    fun rest header ↦ (i.nextUnseen_accepted rest header).trans (if_pos hanchored)
  cases h with
  | kept hsame =>
      rw [hsame.seqAnchored, hsame.nextUnseen]
      exact ⟨hanchored, le_rfl⟩
  | @tail rest header _ _ hsame =>
      rw [hsame.seqAnchored, hsame.nextUnseen, seqAnchored_noteTailGap, nextUnseen_noteTailGap,
        haccepted]
      exact ⟨(i.accepted_session rest header).2, le_max_left _ _⟩
  | @truncated rest header _ _ hsame =>
      rw [hsame.seqAnchored, hsame.nextUnseen, haccepted]
      exact ⟨(i.accepted_session rest header).2, le_rfl⟩
  | @loop _ _ rest header _ _ _ _ hsame =>
      rw [hsame.seqAnchored, hsame.nextUnseen, seqAnchored_loop, nextUnseen_loop]
      exact ⟨(i.accepted_session rest header).2, (haccepted rest header).ge.trans (le_max_left _ _)⟩

/-- A receiver that is still not anchored has taken nothing. -/
theorem sameTracking_of_blank (h : i.Decodes now carried cutOff opened i')
    (hblank : i'.seqAnchored = false) : i.SameTracking i' := by
  have haccepted := fun rest header ↦ (i.accepted_session rest header).2
  cases h with
  | kept hsame => exact hsame
  | tail _ hsame => simp [hsame.seqAnchored, haccepted] at hblank
  | truncated _ hsame => simp [hsame.seqAnchored, haccepted] at hblank
  | loop _ _ hsame =>
      rw [hsame.seqAnchored, seqAnchored_loop] at hblank
      rw [show _ = true from haccepted _ _] at hblank
      cases hblank

/-- At most one range is recorded: from the mark to a number the mark then reaches.  The
candidates stay as they are. -/
theorem opened_eq (h : i.Decodes now carried cutOff opened i')
    (hclock : now.isSome = i.arbiter.isSome) :
    opened = [] ∨ (i.seqAnchored = true ∧ i'.candidates = i.candidates ∧
      ∃ stop, opened = [(i.nextUnseen, stop)] ∧ stop ≤ i'.nextUnseen) := by
  cases h with
  | kept => exact Or.inl rfl
  | truncated => exact Or.inl rfl
  | @tail rest header _ _ hsame =>
      unfold tailGap
      split
      · next hlt =>
          have hanchored := i.anchored_of_accepted_lt hlt
          have haccepted := accepted_of_anchored hanchored rest header
          refine Or.inr ⟨hanchored, candidates_congr ?_, header.sequence, ?_, ?_⟩
          · rw [hsame.arbiter, arbiter_noteTailGap, haccepted]
          · rw [haccepted]
          · rw [hsame.nextUnseen, nextUnseen_noteTailGap]
            exact le_max_right _ _
      · exact Or.inl rfl
  | @loop streamId datagram rest header blocks _ hparse _ hsame =>
      rcases (i.accepted rest header).jumpGap_cases header.sequence now with
        hempty | ⟨hlt, hnone, hjump⟩
      · exact Or.inl hempty
      · have hanchored := i.anchored_of_accepted_lt hlt
        have haccepted := accepted_of_anchored hanchored rest header
        have hlegs : i.arbiter = none := by
          rw [haccepted] at hnone
          rcases hnone with harbiter | rfl
          · exact harbiter
          · exact Option.isNone_iff_eq_none.mp (by simpa using hclock.symm)
        have hlegs' : i'.arbiter = none := by
          have hloop := isSome_arbiter_loop { i.accepted rest header with blocks := blocks }
            streamId header datagram now blocks
          rw [← hsame.arbiter, haccepted] at hloop
          exact Option.isNone_iff_eq_none.mp (by simpa [hlegs] using hloop)
        refine Or.inr ⟨hanchored, ?_, header.sequence, ?_, ?_⟩
        · rw [candidates_of_none hlegs, candidates_of_none hlegs']
        · rw [hjump, haccepted]
        · rw [hsame.nextUnseen, nextUnseen_loop]
          exact (le_saturatingAdd_sequence header (parseHeader_sequence_lt hparse)).trans
            (le_max_right _ _)

/-- A number is in a recorded range not at all; or once, and then the mark passes it now
and the candidates stay as they are. -/
theorem countP_opened (h : i.Decodes now carried cutOff opened i')
    (hclock : now.isSome = i.arbiter.isSome) (s : ℕ) :
    opened.countP (fun g ↦ g.1 ≤ s ∧ s < g.2) = 0 ∨
      (opened.countP (fun g ↦ g.1 ≤ s ∧ s < g.2) = 1 ∧ i.seqAnchored = true ∧
        i.nextUnseen ≤ s ∧ s < i'.nextUnseen ∧ i'.candidates = i.candidates) := by
  rcases h.opened_eq hclock with rfl | ⟨hanchored, hcandidates, stop, rfl, hstop⟩
  · exact Or.inl rfl
  · by_cases hs : i.nextUnseen ≤ s ∧ s < stop
    · refine Or.inr ⟨by simp [hs], hanchored, hs.1, hs.2.trans_le hstop, hcandidates⟩
    · exact Or.inl (by simpa using hs)

end Inner.Decodes

/-! ## Gaps come from reports -/

namespace Decoding

theorem gapHandler_decodeBlock (streamId : UInt8) (now : Option Instant) (b : Block)
    (d : Decoding F) :
    (decodeBlock streamId now b d).2.inner.gapHandler = d.inner.gapHandler ∨
      (decodeBlock streamId now b d).2.inner.gapHandler =
        d.inner.gapHandler.markReceived b.seq := by
  have hobserve : (d.inner.observe streamId b.seq now).2.gapHandler = d.inner.gapHandler := by
    unfold Inner.observe
    split <;> rfl
  unfold decodeBlock
  generalize d.inner.observe streamId b.seq now = observed at hobserve ⊢
  obtain ⟨verdict, inner⟩ := observed
  cases verdict with
  | duplicate => exact Or.inl hobserve
  | outOfWindow => exact Or.inl hobserve
  | forward =>
      refine Or.inr ((gapHandler_place streamId b).trans ?_)
      exact congrArg (GapRequestHandler.markReceived · b.seq) hobserve

/-- The loop only ever takes numbers out of the gaps. -/
theorem tracks_of_decodeBlocks (streamId : UInt8) (now : Option Instant) {todo : List Block} :
    ∀ {d : Decoding F}, d.inner.gapHandler.WellFormed → ∀ {s : ℕ},
      (decodeBlocks streamId now todo d).2.inner.gapHandler.Tracks s →
      d.inner.gapHandler.Tracks s := by
  induction todo with
  | nil => exact fun _ _ h ↦ h
  | cons b todo ih =>
      intro d hwf s h
      have hmark := GapRequestHandler.markReceived_spec hwf b.seq
      have hstep : (decodeBlock streamId now b d).2.inner.gapHandler.WellFormed ∧
          ∀ s, (decodeBlock streamId now b d).2.inner.gapHandler.Tracks s →
            d.inner.gapHandler.Tracks s := by
        rcases gapHandler_decodeBlock streamId now b d with hgap | hgap
        · rw [hgap]
          exact ⟨hwf, fun _ ↦ id⟩
        · rw [hgap]
          exact ⟨hmark.1, fun s hs ↦ ((hmark.2 s).mp hs).1⟩
      unfold decodeBlocks at h
      generalize decodeBlock streamId now b d = decoded at h hstep
      obtain ⟨_ | _, d'⟩ := decoded
      · exact hstep.2 s h
      · exact hstep.2 s (ih hstep.1 h)

end Decoding

/-- A jump adds the range it records to the gaps, and nothing else. -/
theorem Inner.noteJump_gaps {i : Inner F} (hwf : i.gapHandler.WellFormed) {sequence : ℕ}
    (hsequence : sequence < 2 ^ 64) (now : Option Instant) :
    (i.noteJump sequence now).gapHandler.WellFormed ∧
      ∀ s, (i.noteJump sequence now).gapHandler.Tracks s →
        i.gapHandler.Tracks s ∨ ∃ g ∈ i.jumpGap sequence now, g.1 ≤ s ∧ s < g.2 := by
  obtain ⟨hwf', hrange⟩ := @GapRequestHandler.recordMissingRange_spec _ hwf i.nextUnseen _ hsequence
  unfold noteJump jumpGap
  by_cases hlt : i.nextUnseen < sequence
  · rw [if_pos hlt, if_pos hlt]
    cases i.arbiter with
    | none => exact ⟨hwf', fun s hs ↦ by simpa using (hrange s).mp hs⟩
    | some a =>
        cases now with
        | none => exact ⟨hwf', fun s hs ↦ by simpa using (hrange s).mp hs⟩
        | some t => exact ⟨hwf, fun s hs ↦ Or.inl hs⟩
  · rw [if_neg hlt]
    exact ⟨hwf, fun s hs ↦ Or.inl hs⟩

/-- Whatever processing adds to the gaps lies in a range it recorded. -/
theorem Inner.Decodes.tracks [AsRef F] {i i' : Inner F} {now : Option Instant}
    {carried cutOff : List ℕ} {opened : List (ℕ × ℕ)}
    (h : i.Decodes now carried cutOff opened i') (hwf : i.gapHandler.WellFormed) {s : ℕ}
    (htracks : i'.gapHandler.Tracks s) :
    i.gapHandler.Tracks s ∨ ∃ g ∈ opened, g.1 ≤ s ∧ s < g.2 := by
  cases h with
  | kept hsame =>
      rw [hsame.gapHandler] at htracks
      exact Or.inl htracks
  | truncated _ hsame =>
      rw [hsame.gapHandler, gapHandler_accepted] at htracks
      exact Or.inl htracks
  | @tail rest header _ hsequence hsame =>
      rw [hsame.gapHandler] at htracks
      unfold noteTailGap at htracks
      unfold tailGap
      split at htracks
      · next hlt =>
          rw [if_pos hlt]
          dsimp only at htracks
          rw [gapHandler_accepted] at htracks
          have hold := ((GapRequestHandler.recordMissingRange_spec hwf hsequence).2 s).mp htracks
          exact hold.imp_right fun hs ↦ ⟨_, List.mem_cons_self, hs⟩
      · rw [gapHandler_accepted] at htracks
        exact Or.inl htracks
  | @loop streamId datagram rest header blocks _ hparse _ hsame =>
      rw [hsame.gapHandler] at htracks
      obtain ⟨hwf', hjump⟩ := noteJump_gaps (i := { i.accepted rest header with blocks := blocks })
        (by exact i.gapHandler_accepted rest header ▸ hwf) (parseHeader_sequence_lt hparse) now
      have hentry := Decoding.tracks_of_decodeBlocks streamId now
        (d := enterLoop { i.accepted rest header with blocks := blocks } header datagram now)
        hwf' htracks
      refine (hjump s hentry).imp_left fun hs ↦ ?_
      exact i.gapHandler_accepted rest header ▸ hs

/-! ## Promotion -/

/-- `i'` is `i` after promoting the candidates `confirmed` at `now`. -/
structure Inner.Promoted (i i' : Inner F) (now : Instant) (confirmed : List ℕ) : Prop where
  nextUnseen : i'.nextUnseen = i.nextUnseen
  seqAnchored : i'.seqAnchored = i.seqAnchored
  gapHandler : i'.gapHandler = confirmed.foldl GapRequestHandler.recordGap i.gapHandler
  left : ∀ p ∈ i'.candidates, p ∈ i.candidates ∧ p.1 ∉ confirmed
  waited : ∀ s ∈ confirmed, ∃ t, (s, t) ∈ i.candidates ∧ ∀ a ∈ i.arbiter, a.graceElapsed now t
  nodup : confirmed.Nodup
  arbiter : ∀ a' ∈ i'.arbiter, a' ∈ i.arbiter ∨ ∃ a ∈ i.arbiter, a' = (a.confirmedGaps now).2

namespace Inner

theorem promoted_drainConfirmedGaps {i : Inner F} {a : AbArbiter} (ha : i.arbiter = some a)
    (now : Instant) : i.Promoted (i.drainConfirmedGaps now) now (a.confirmedGaps now).1 := by
  have hdrain : i.drainConfirmedGaps now =
      { i with
        arbiter := some (a.confirmedGaps now).2
        gapHandler := (a.confirmedGaps now).1.foldl GapRequestHandler.recordGap i.gapHandler
        ready := i.ready ++ (a.confirmedGaps now).1.map fun _ ↦ .gap } := by
    unfold drainConfirmedGaps
    rw [ha]
  have hentries := candidates_of_some ha
  rw [hdrain]
  refine ⟨rfl, rfl, rfl, fun p hp ↦ ?_, fun s hs ↦ ?_, ?_, ?_⟩
  · rw [hentries]
    exact SortedMap.mem_entries_foldl_erase.mp hp
  · obtain ⟨p, hp, rfl⟩ := List.mem_map.mp hs
    obtain ⟨hmem, helapsed⟩ := List.mem_filter.mp hp
    refine ⟨p.2, hentries ▸ hmem, fun a' ha' ↦ ?_⟩
    obtain rfl : a = a' := Option.some.inj (ha.symm.trans ha')
    exact helapsed
  · exact a.pendingGapConfirms.nodup_keys.sublist (List.filter_sublist.map Prod.fst)
  · rintro _ ⟨⟩
    exact Or.inr ⟨a, ha, rfl⟩

theorem Promoted.none (i : Inner F) (now : Instant) : i.Promoted i now [] :=
  ⟨rfl, rfl, rfl, fun _ hp ↦ ⟨hp, List.not_mem_nil⟩, fun _ hs ↦ (List.not_mem_nil hs).elim,
    List.nodup_nil, fun _ ha ↦ Or.inl ha⟩

variable [AsRef F]

/-- A decode is processing, then promotion. -/
theorem decodeNext_promoted (i : Inner F) (now : Instant) :
    (i.processNextPending (i.clock now)).2.Promoted (i.decodeNext now).2 now (i.confirmed now) := by
  have hsome := (i.processNextPending_processed (i.clock now)).isSome_arbiter
  unfold decodeNext confirmed
  generalize i.processNextPending (i.clock now) = processed at hsome ⊢
  obtain ⟨e | u, i'⟩ := processed
  · exact .none i' now
  · dsimp only at hsome ⊢
    rw [isSome_clock, ← hsome]
    obtain harbiter | ⟨a, harbiter⟩ := Option.eq_none_or_eq_some i'.arbiter
    · simp only [harbiter, Option.isSome_none, Bool.false_eq_true, if_false]
      exact .none i' now
    · simp only [harbiter, Option.isSome_some, if_true]
      exact promoted_drainConfirmedGaps harbiter now

end Inner

end MoldUdp
