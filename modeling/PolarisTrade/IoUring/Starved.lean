import PolarisTrade.IoUring.System

/-!
# The starved gate

`ENOBUFS` closes the gate: nothing is armed until a slot goes back to the kernel.  A completion
may wait in the queue while slots go back, and then closes the gate over a group that has
buffers.  The gate is right when every such completion is read before the next slot is handed
over, and none is posted while a provide request waits.
-/

namespace IoUring

open Transport

namespace UringDriver

variable {d : UringDriver}

/-- Reading completions closes the gate only for one that found no buffer. -/
theorem complete_starved (d : UringDriver) (out : FrameBatch IndexFrame) :
    ((d.complete out).2.1.fleet.starved = true →
      d.fleet.starved = true ∨ ∃ cqe ∈ d.cq, cqe.isNoBuffers = true) ∧
    (d.complete out).2.1.cq ⊆ d.cq ∧
    (d.complete out).2.1.sq = d.sq ∧
    (d.complete out).2.1.bufRing = d.bufRing ∧
    (d.complete out).2.1.fleet.depth = d.fleet.depth := by
  refine complete_invariant
    (I := fun d' _ ↦
      (d'.fleet.starved = true →
        d.fleet.starved = true ∨ ∃ cqe ∈ d.cq, cqe.isNoBuffers = true) ∧
      d'.cq ⊆ d.cq ∧ d'.sq = d.sq ∧ d'.bufRing = d.bufRing ∧ d'.fleet.depth = d.fleet.depth)
    (fun d' out' cqe cq hcq ⟨hstarved, hsub, hsq, hring, hdepth⟩ ↦ ?_)
    ⟨.inl, List.Subset.refl _, rfl, rfl, rfl⟩
  obtain ⟨back, stats, hone⟩ := completeOne_eq { d' with cq := cq } out' cqe
  rw [hone]
  refine ⟨fun h ↦ ?_, fun c hc ↦ hsub (hcq ▸ List.mem_cons_of_mem _ hc), hsq, hring,
    (depth_settled _ _).trans hdepth⟩
  rcases Bool.or_eq_true_iff.mp ((starved_settled _ _).symm.trans h) with h | h
  · exact hstarved h
  · exact .inr ⟨cqe, hsub (hcq ▸ List.mem_cons_self), h⟩

theorem reap_starved (h : d.reap.fleet.starved = true) :
    d.fleet.starved = true ∨ ∃ cqe ∈ d.cq, cqe.isNoBuffers = true := by
  suffices hfold : ∀ (cq : List Cqe) (fleet : Fleet), (cq.foldl d.settled fleet).starved = true →
      fleet.starved = true ∨ ∃ cqe ∈ cq, cqe.isNoBuffers = true from hfold d.cq d.fleet h
  intro cq
  induction cq with
  | nil => exact fun fleet h ↦ .inl h
  | cons cqe cq ih =>
      intro fleet h
      rcases ih _ h with h | ⟨other, hmem, h⟩
      · rw [starved_settled, Bool.or_eq_true_iff] at h
        exact h.imp_right fun h ↦ ⟨cqe, List.mem_cons_self, h⟩
      · exact .inr ⟨other, List.mem_cons_of_mem _ hmem, h⟩

theorem reap_depth (d : UringDriver) : d.reap.fleet.depth = d.fleet.depth := by
  suffices hfold : ∀ (cq : List Cqe) (fleet : Fleet),
      (cq.foldl d.settled fleet).depth = fleet.depth from hfold d.cq d.fleet
  intro cq
  induction cq with
  | nil => exact fun fleet ↦ rfl
  | cons cqe cq ih => exact fun fleet ↦ (ih _).trans (depth_settled _ _)

end UringDriver

namespace Uring

variable {d d' : Uring}

/-- The kernel finds no buffer only when it holds none. -/
def Selects (d : Uring) : Event → Prop
  | .post cqe => cqe.isNoBuffers = true → d.holds = []
  | _ => True

instance : ∀ (d : Uring) (ev : Event), Decidable (d.Selects ev)
  | d, .post cqe => inferInstanceAs (Decidable (cqe.isNoBuffers = true → d.holds = []))
  | _, .poll _ | _, .giveBack _ | _, .arm _ | _, .submit _ _ | _, .drop _ | _, .take
  | _, .teardown | _, .cancel _ _ _ | _, .reap => inferInstanceAs (Decidable True)

/-- No slot is handed over behind a completion that found no buffer, and none finds no buffer
while a provide request waits. -/
def Prompt (d : Uring) : Event → Prop
  | .giveBack _ => d.driver.back ≠ [] → ∀ cqe ∈ d.driver.cq, cqe.isNoBuffers = false
  | .post cqe => cqe.isNoBuffers = true → d.driver.sq.flatMap Sqe.slots = []
  | _ => True

instance : ∀ (d : Uring) (ev : Event), Decidable (d.Prompt ev)
  | d, .giveBack _ => inferInstanceAs
      (Decidable (d.driver.back ≠ [] → ∀ cqe ∈ d.driver.cq, cqe.isNoBuffers = false))
  | d, .post cqe => inferInstanceAs
      (Decidable (cqe.isNoBuffers = true → d.driver.sq.flatMap Sqe.slots = []))
  | _, .poll _ | _, .arm _ | _, .submit _ _ | _, .drop _ | _, .take
  | _, .teardown | _, .cancel _ _ _ | _, .reap => inferInstanceAs (Decidable True)

/-- The gate is closed, or will be once the queue is read. -/
def Closing (d : Uring) : Prop :=
  d.driver.fleet.starved = true ∨ ∃ cqe ∈ d.driver.cq, cqe.isNoBuffers = true

/-- The refill went through: nothing more is wanted. -/
def Refilled : Phase → Prop
  | .submitting _ | .idle none | .idle (some (.ok _)) => True
  | _ => False

theorem not_refilled_finish (driver : UringDriver) (e : Io) (completed : Option (Except Io ℕ)) :
    ¬ Refilled (finish driver (.error e) completed) := by
  rcases completed with _ | (e' | n)
  · exact id
  · exact id
  · exact id

/-- A gate that closes is right, and an open one has the fleet armed. -/
structure Gated (depth : ℕ) (d : Uring) : Prop where
  closing : d.Closing → d.holds = [] ∧ d.driver.sq.flatMap Sqe.slots = []
  wanted : Refilled d.phase → d.driver.fleet.wanted = 0
  depth_eq : d.driver.fleet.depth = depth

variable {depth : ℕ}

theorem holds_congr {driver : UringDriver} (hring : driver.bufRing = d.driver.bufRing)
    (recvs : ℕ) (live : List IndexFrame) (phase : Phase) :
    holds { d with driver := driver, recvs := recvs, live := live, phase := phase }
      = d.holds := by
  unfold holds
  dsimp only
  rw [hring]

theorem Gated.poll (h : d.Gated depth) (cap : ℕ) (completed : Option (Except Io ℕ)) :
    Gated depth
      { d with
        driver := (d.driver.drainFreed.complete ⟨[], cap⟩).2.1
        live := d.live ++ (d.driver.drainFreed.complete ⟨[], cap⟩).2.2.frames
        phase := .refilling completed } := by
  obtain ⟨hstarved, hsub, hsq, hring, hdepth⟩ :=
    d.driver.drainFreed.complete_starved ⟨[], cap⟩
  refine ⟨fun hclosing ↦ ?_, nofun, hdepth.trans h.depth_eq⟩
  have hclosing' : d.Closing := by
    rcases hclosing with hs | ⟨cqe, hmem, hcqe⟩
    · exact hstarved hs
    · exact .inr ⟨cqe, hsub hmem, hcqe⟩
  rw [holds_congr hring, hsq]
  exact h.closing hclosing'

theorem not_closing_of_refilled {slots : ℕ} (hslots : 0 < slots)
    (hcq : ∀ cqe ∈ d.driver.cq, cqe.isNoBuffers = false)
    (hfleet : d.driver.fleet = d'.driver.fleet.refilled slots) : ¬ d.Closing := by
  rintro (hs | ⟨cqe, hmem, hcqe⟩)
  · rw [hfleet, Fleet.refilled, if_pos hslots] at hs
    cases hs
  · rw [hcq cqe hmem] at hcqe
    cases hcqe

theorem Gated.giveBack (h : d.Gated depth) {rooms : List Room}
    (hprompt : d.Prompt (.giveBack rooms)) {phase : Phase} (hphase : ¬ Refilled phase) :
    Gated depth { d with driver := (d.driver.giveBack rooms).2, phase := phase } := by
  have hgives := d.driver.givesBack_giveBack rooms
  generalize (d.driver.giveBack rooms).2 = driver at hgives ⊢
  cases hgives with
  | nothing hback => exact ⟨h.closing, fun hr ↦ absurd hr hphase, h.depth_eq⟩
  | ring hring hback =>
      refine ⟨fun hclosing ↦ absurd hclosing ?_, fun hr ↦ absurd hr hphase,
        (Fleet.depth_refilled _ _).trans h.depth_eq⟩
      exact not_closing_of_refilled (List.length_pos_of_ne_nil hback) (hprompt hback) rfl
  | @legacy stats provided left hring hback hprovided =>
      refine ⟨fun hclosing ↦ ?_, fun hr ↦ absurd hr hphase,
        (Fleet.depth_refilled _ _).trans h.depth_eq⟩
      rcases Nat.eq_zero_or_pos (d.driver.back.length - left.length) with hzero | hpos
      · -- nothing was handed over: queue and gate are as before
        have hle := hprovided.length_le
        have hsort := List.length_insertionSort (· ≤ ·) d.driver.back
        obtain rfl := hprovided.eq_nil (by omega)
        rw [hzero] at hclosing
        obtain ⟨hholds, hsq⟩ := h.closing hclosing
        refine ⟨hholds, ?_⟩
        rw [List.append_nil]
        exact hsq
      · exact absurd hclosing (not_closing_of_refilled hpos (hprompt hback) rfl)

theorem Gated.arm (h : d.Gated depth) (rooms : List Room) (completed : Option (Except Io ℕ)) :
    Gated depth
      { d with
        driver := (d.driver.arm rooms).2
        phase := proceed (d.driver.arm rooms).2 (d.driver.arm rooms).1 completed
          (.submitting completed) } := by
  obtain ⟨r, stats, k, harm, -, hok⟩ := d.driver.armLoop_eq d.driver.fleet.wanted rooms
  rw [UringDriver.arm, harm]
  refine ⟨fun hclosing ↦ ?_, fun hr ↦ ?_, h.depth_eq⟩
  · obtain ⟨hholds, hsq⟩ := h.closing hclosing
    refine ⟨hholds, ?_⟩
    rw [List.flatMap_append, hsq, Sqe.slots_replicate_recv]
    rfl
  · cases r with
    | error e => exact absurd hr (not_refilled_finish _ e completed)
    | ok _ =>
        rw [hok rfl]
        exact d.driver.fleet.wanted_add_wanted

/-- A buffer is there to take only when the gate is not closing. -/
theorem holds_ne_nil_of_select {slot : ℕ} (h : d.select slot = some d') : d.holds ≠ [] := by
  unfold select at h
  unfold holds
  cases hring : d.driver.bufRing with
  | none =>
      rw [hring] at h
      dsimp only at h ⊢
      split at h
      · next hmem => exact List.ne_nil_of_mem hmem
      · cases h
  | some ring =>
      rw [hring] at h
      dsimp only at h ⊢
      split at h
      · next hhead =>
          rw [Ne, List.map_eq_nil_iff, RingMem.unread_eq_nil_iff]
          exact hhead.1
      · cases h

theorem Gated.recv (h : d.Gated depth) {cqe : Cqe} (hselects : d.Selects (.post cqe))
    (hprompt : d.Prompt (.post cqe)) (hselect : d.selectOf cqe = some d') (ended : ℕ) :
    Gated depth (d'.queue cqe ended) := by
  have hempty : ∀ {driver : UringDriver} {cq}, driver.fleet = d.driver.fleet →
      cq = d.driver.cq ++ [cqe] →
      (driver.fleet.starved = true ∨ ∃ other ∈ cq, other.isNoBuffers = true) →
      d.holds = [] ∧ d.driver.sq.flatMap Sqe.slots = [] := by
    rintro driver cq hfleet rfl (hs | ⟨other, hmem, hother⟩)
    · exact h.closing (.inl (hfleet ▸ hs))
    · rcases List.mem_append.mp hmem with hmem | hmem
      · exact h.closing (.inr ⟨other, hmem, hother⟩)
      · rw [List.mem_singleton.mp hmem] at hother
        exact ⟨hselects hother, hprompt hother⟩
  unfold selectOf at hselect
  split at hselect
  · cases hselect
    exact ⟨fun hclosing ↦ hempty rfl rfl hclosing, h.wanted, h.depth_eq⟩
  · next slot hslot =>
      have hne := holds_ne_nil_of_select hselect
      have hselectOf : d.selectOf cqe = some d' := by
        unfold selectOf
        rw [hslot]
        exact hselect
      obtain ⟨group, head, rfl⟩ := selectOf_eq hselectOf
      exact ⟨fun hclosing ↦ absurd (hempty rfl rfl hclosing).1 hne, h.wanted, h.depth_eq⟩

theorem Gated.cancel (h : d.Gated depth) {left : Bool} {room : Room} {waited : Submitted} :
    Gated depth
      { d with
        driver := (Uring.cancel d.driver left room waited).1
        phase := (Uring.cancel d.driver left room waited).2 } := by
  have hphase : ¬ Refilled (Uring.cancel d.driver left room waited).2 := by
    have halive := isAlive_cancel d.driver left room waited
    intro hr
    generalize (Uring.cancel d.driver left room waited).2 = phase at halive hr
    cases phase with
    | submitting _ | idle _ => cases halive
    | refilling _ | arming _ | cancelling | reaping | dropped _ => exact hr
  obtain ⟨entries, stats, hcancel, hentries⟩ := cancel_eq d.driver left room waited
  refine ⟨fun hclosing ↦ ?_, fun hr ↦ absurd hr hphase, ?_⟩
  · rw [hcancel] at hclosing ⊢
    obtain ⟨hholds, hsq⟩ := h.closing hclosing
    refine ⟨hholds, ?_⟩
    rw [List.flatMap_append, hsq, List.nil_append, List.flatMap_eq_nil_iff]
    intro entry hentry
    rw [hentries entry hentry]
    rfl
  · rw [hcancel]
    exact h.depth_eq

theorem Gated.start (cfg : ValidConfig) (path : RecvPath) (skipSuccess : Bool) (base : ℕ) :
    Gated (if path = .multishot then 1 else cfg.1.depth.1)
      (.start cfg path skipSuccess base) := by
  refine ⟨?_, nofun, rfl⟩
  rintro (h | ⟨cqe, hcqe, -⟩)
  · cases h
  · cases hcqe

theorem Gated.next {ev : Event} (h : d.Gated depth) (hselects : d.Selects ev)
    (hprompt : d.Prompt ev) (hnext : d.next ev = some d') : d'.Gated depth := by
  cases moves_of_next hnext with
  | poll hphase cap => exact h.poll cap _
  | @giveBack completed hphase rooms =>
      refine h.giveBack hprompt ?_
      unfold proceed
      split
      · exact id
      · exact not_refilled_finish _ _ completed
  | arm hphase rooms => exact h.arm rooms _
  | submit hphase cqOverflow submitted =>
      exact ⟨h.closing, fun _ ↦ h.wanted (by rw [hphase]; trivial), h.depth_eq⟩
  | drop hi => exact ⟨h.closing, h.wanted, h.depth_eq⟩
  | @take entry sq hsq =>
      refine ⟨fun hclosing ↦ ?_, h.wanted, h.depth_eq⟩
      obtain ⟨hholds, hslots⟩ := h.closing hclosing
      rw [hsq, List.flatMap_cons, List.append_eq_nil_iff] at hslots
      rw [hslots.1, List.append_nil]
      exact ⟨hholds, hslots.2⟩
  | recv hrecv hpos hselect => exact h.recv hselects hprompt hselect _
  | @post cqe hrecv =>
      refine ⟨fun hclosing ↦ h.closing ?_, h.wanted, h.depth_eq⟩
      refine hclosing.imp_right fun ⟨other, hmem, hother⟩ ↦ ?_
      rcases List.mem_append.mp hmem with hmem | hmem
      · exact ⟨other, hmem, hother⟩
      · rw [List.mem_singleton.mp hmem] at hother
        exact absurd (of_decide_eq_true hother).1 hrecv
  | teardown hphase => exact ⟨h.closing, nofun, h.depth_eq⟩
  | cancel hphase => exact h.cancel
  | reap hphase =>
      refine ⟨fun hclosing ↦ h.closing ?_, nofun, d.driver.reap_depth.trans h.depth_eq⟩
      rcases hclosing with hs | ⟨cqe, hcqe, -⟩
      · exact UringDriver.reap_starved hs
      · cases hcqe

/-- Between two calls a closed gate means that the kernel holds no slot, and after a call that
succeeded the fleet is armed whenever the kernel holds one, if each completion that found no
buffer is read before the next slot is handed over. -/
theorem starved_only_when_empty {cfg : ValidConfig} {path : RecvPath} {skipSuccess : Bool}
    {base : ℕ}
    (hrun : machine.Run (fun d ev ↦ d.Selects ev ∧ d.Prompt ev)
      (start cfg path skipSuccess base) d)
    {returned : Option (Except Io Polled)} (hidle : d.phase = .idle returned) :
    (d.driver.fleet.starved = true → d.holds = []) ∧
    (∀ polled, returned = some (.ok polled) → d.holds ≠ [] → 0 < d.driver.fleet.armed) := by
  have hgated := hrun.invariant (I := Gated _) (.start cfg path skipSuccess base)
    fun _ _ _ h hallowed hnext ↦ h.next hallowed.1 hallowed.2 hnext
  refine ⟨fun hs ↦ (hgated.closing (.inl hs)).1, ?_⟩
  rintro polled rfl hholds
  have hwanted := hgated.wanted (by rw [hidle]; trivial)
  have hopen : d.driver.fleet.starved ≠ true :=
    fun hs ↦ hholds (hgated.closing (.inl hs)).1
  have hdepth : 0 < d.driver.fleet.depth := by
    rw [hgated.depth_eq]
    split
    · exact Nat.one_pos
    · exact cfg.1.depth.2.1
  rw [Fleet.wanted, if_neg hopen] at hwanted
  omega

/-- The group runs dry, the completion that says so is read in time, and a dropped frame opens
the gate again. -/
theorem starved_only_when_empty_reopened : ∃ d,
    machine.Run (fun d ev ↦ d.Selects ev ∧ d.Prompt ev) (start sampleConfig .multishot true 0) d ∧
    d.driver.fleet.starved = false ∧ d.holds = [0] ∧ 0 < d.driver.fleet.armed := by
  have hend : ∃ d ∈ Machine.follow next (start sampleConfig .multishot true 0)
      [.giveBack [], .arm [], .submit false none, .take, .post ⟨.recv, 10, 0x00003⟩,
        .post ⟨.recv, 10, 0x10003⟩, .post ⟨.recv, -105, 0⟩, .poll 4, .giveBack [], .arm [],
        .submit false none, .drop 0, .poll 4, .giveBack [], .arm [], .submit false none],
      d.phase = .idle (some (.ok .idle)) ∧ d.driver.fleet.starved = false ∧ d.holds = [0] := by
    decide +kernel
  obtain ⟨d, hd, hphase, hstarved, hholds⟩ := hend
  have hrun : machine.Run (fun d ev ↦ d.Selects ev ∧ d.Prompt ev) _ d :=
    .of_follow (by decide +kernel) hd
  refine ⟨d, hrun, hstarved, hholds, ?_⟩
  exact (starved_only_when_empty hrun hphase).2 _ rfl (by rw [hholds]; exact List.cons_ne_nil _ _)

/-- A batch of one leaves `ENOBUFS` in the queue while slot 0 goes back: the call that reads it
reports exhaustion with slot 0 in the ring and no receive armed. -/
theorem starved_with_buffers : ∃ d,
    machine.Run Selects (start sampleConfig .multishot true 0) d ∧
    d.phase = .idle (some (.ok .exhausted)) ∧ d.driver.fleet.starved = true ∧
    d.holds = [0] ∧ d.driver.fleet.armed = 0 := by
  have hend : ∃ d ∈ Machine.follow next (start sampleConfig .multishot true 0)
      [.giveBack [], .arm [], .submit false none, .take, .post ⟨.recv, 10, 0x00003⟩,
        .post ⟨.recv, 10, 0x10003⟩, .post ⟨.recv, -105, 0⟩, .poll 1, .giveBack [], .arm [],
        .submit false none, .drop 0, .poll 1, .giveBack [], .arm [], .submit false none,
        .poll 1, .giveBack [], .arm [], .submit false none],
      d.phase = .idle (some (.ok .exhausted)) ∧ d.driver.fleet.starved = true ∧
      d.holds = [0] ∧ d.driver.fleet.armed = 0 := by
    decide +kernel
  obtain ⟨d, hd, hphase⟩ := hend
  exact ⟨d, .of_follow (by decide +kernel) hd, hphase⟩

end Uring

end IoUring
