import PolarisTrade.IoUring.System

/-!
# Armed receives

A receive that has been pushed is in the submission queue, with the kernel, or ended by a
completion not yet read.  `fleet.armed` counts them through arming, completions and the loop
that cancels them; receive memory is freed when there is none.
-/

namespace IoUring

open Transport

/-- The completion is the last one of a receive. -/
def Cqe.ends (multishot : Bool) (cqe : Cqe) : Bool :=
  cqe.userData = .recv && cqe.terminal multishot

namespace UringDriver

variable {d : UringDriver} {depth recvs : ℕ}

/-- Receives in the submission queue, with the kernel, and ended but not read. -/
def pending (d : UringDriver) (recvs : ℕ) : ℕ :=
  d.sq.countP Sqe.isRecv + recvs + d.cq.countP (Cqe.ends d.multishot)

/-- The count is right, and every completion in the queue is as the kernel makes them. -/
structure Counted (depth recvs : ℕ) (d : UringDriver) : Prop where
  armed_eq : d.fleet.armed = d.pending recvs
  armed_le : d.fleet.armed ≤ depth
  depth_eq : d.fleet.depth = depth
  orderly : ∀ cqe ∈ d.cq, cqe.userData = .recv → cqe.Orderly

theorem armed_settled (fleet : Fleet) {cqe : Cqe} (h : cqe.userData = .recv → cqe.Orderly) :
    (d.settled fleet cqe).armed = fleet.armed - (cqe.ends d.multishot).toNat := by
  unfold settled Cqe.ends
  split
  · next hrecv =>
      rw [fleet.armed_complete_classify (h hrecv), decide_eq_true hrecv, Bool.true_and]
  · next hrecv =>
      rw [decide_eq_false hrecv, Bool.false_and]
      rfl

/-- Taking a completion off the queue. -/
theorem Counted.settle {cqe : Cqe} {cq : List Cqe} (h : d.Counted depth recvs)
    (hcq : d.cq = cqe :: cq) (back : List ℕ) (stats : DriverStats) :
    Counted depth recvs
      { d with cq := cq, fleet := d.settled d.fleet cqe, back := back, stats := stats } := by
  have horderly := h.orderly
  rw [hcq] at horderly
  obtain ⟨hcqe, hrest⟩ := List.forall_mem_cons.mp horderly
  have harmed := armed_settled (d := d) d.fleet hcqe
  have hcount : d.fleet.armed = d.sq.countP Sqe.isRecv + recvs
      + (cq.countP (Cqe.ends d.multishot) + (cqe.ends d.multishot).toNat) := by
    rw [h.armed_eq, pending, hcq, List.countP_cons, Bool.toNat, Bool.cond_eq_ite]
  have hle := h.armed_le
  refine ⟨?_, ?_, (depth_settled _ _).trans h.depth_eq, hrest⟩
  · change (d.settled d.fleet cqe).armed
      = d.sq.countP Sqe.isRecv + recvs + cq.countP (Cqe.ends d.multishot)
    omega
  · change (d.settled d.fleet cqe).armed ≤ depth
    omega

theorem Counted.drainFreed (h : d.Counted depth recvs) : d.drainFreed.Counted depth recvs :=
  ⟨h.armed_eq, h.armed_le, h.depth_eq, h.orderly⟩

theorem Counted.complete (h : d.Counted depth recvs) (out : FrameBatch IndexFrame) :
    (d.complete out).2.1.Counted depth recvs := by
  refine complete_invariant (I := fun d _ ↦ d.Counted depth recvs) (fun d out cqe cq hcq h ↦ ?_) h
  obtain ⟨back, stats, hone⟩ := completeOne_eq { d with cq := cq } out cqe
  rw [hone]
  exact h.settle hcq back stats

theorem Counted.reap (h : d.Counted depth recvs) : d.reap.Counted depth recvs := by
  suffices hfold : ∀ cq fleet, Counted depth recvs { d with cq := cq, fleet := fleet } →
      Counted depth recvs { d with cq := [], fleet := cq.foldl d.settled fleet } from
    hfold d.cq d.fleet h
  intro cq
  induction cq with
  | nil => exact fun fleet h ↦ h
  | cons cqe cq ih => exact fun fleet h ↦ ih _ (h.settle rfl d.back d.stats)

/-- Requests that are not receives. -/
theorem Counted.append (h : d.Counted depth recvs) {entries : List Sqe}
    (hentries : ∀ entry ∈ entries, entry.isRecv = false) (fleet : Fleet)
    (harmed : fleet.armed = d.fleet.armed) (hdepth : fleet.depth = d.fleet.depth)
    (bufRing : Option RingMem) (back : List ℕ) (stats : DriverStats) :
    Counted depth recvs
      { d with
        sq := d.sq ++ entries
        fleet := fleet
        bufRing := bufRing
        back := back
        stats := stats } := by
  have hzero : entries.countP Sqe.isRecv = 0 := by
    rw [List.countP_eq_zero]
    intro entry hentry
    rw [hentries entry hentry]
    exact Bool.false_ne_true
  refine ⟨?_, ?_, hdepth.trans h.depth_eq, h.orderly⟩
  · change fleet.armed = (d.sq ++ entries).countP Sqe.isRecv + recvs
      + d.cq.countP (Cqe.ends d.multishot)
    rw [harmed, h.armed_eq, List.countP_append, hzero]
    rfl
  · change fleet.armed ≤ depth
    rw [harmed]
    exact h.armed_le

theorem Counted.giveBack (h : d.Counted depth recvs) (rooms : List Room) :
    (d.giveBack rooms).2.Counted depth recvs := by
  have hgives := d.givesBack_giveBack rooms
  generalize (d.giveBack rooms).2 = d' at hgives ⊢
  cases hgives with
  | nothing hback => exact h
  | ring hring hback =>
      have hnone : ∀ entry ∈ ([] : List Sqe), entry.isRecv = false := nofun
      have happend := h.append hnone (d.fleet.refilled d.back.length)
        (d.fleet.armed_refilled _) (d.fleet.depth_refilled _)
      rw [List.append_nil] at happend
      exact happend _ _ _
  | legacy hring hback hprovided =>
      exact h.append hprovided.isRecv _ (d.fleet.armed_refilled _) (d.fleet.depth_refilled _) _ _ _

/-- `arm` pushes what is wanted at most. -/
theorem Counted.arm (h : d.Counted depth recvs) (rooms : List Room) :
    (d.arm rooms).2.Counted depth recvs := by
  obtain ⟨r, stats, k, harm, hle, -⟩ := d.armLoop_eq d.fleet.wanted rooms
  have hwanted : d.fleet.wanted ≤ d.fleet.depth - d.fleet.armed := by
    unfold Fleet.wanted
    split
    · exact Nat.zero_le _
    · exact le_rfl
  have harmed := h.armed_eq
  have hbound := h.armed_le
  rw [h.depth_eq] at hwanted
  rw [UringDriver.arm, harm]
  refine ⟨?_, ?_, h.depth_eq, h.orderly⟩
  · have hcount : (List.replicate k (Sqe.recv d.multishot)).countP Sqe.isRecv = k := by
      rw [List.countP_replicate]
      exact if_pos rfl
    change d.fleet.armed + k
      = (d.sq ++ List.replicate k (Sqe.recv d.multishot)).countP Sqe.isRecv + recvs
        + d.cq.countP (Cqe.ends d.multishot)
    rw [List.countP_append, hcount, harmed, pending]
    omega
  · change d.fleet.armed + k ≤ depth
    omega

theorem Counted.cancel (h : d.Counted depth recvs) (left : Bool) (room : Room)
    (waited : Submitted) : (Uring.cancel d left room waited).1.Counted depth recvs := by
  obtain ⟨entries, stats, hcancel, hentries⟩ := Uring.cancel_eq d left room waited
  rw [hcancel]
  refine h.append (fun entry hentry ↦ ?_) d.fleet rfl rfl _ _ _
  rw [hentries entry hentry]
  rfl

/-- The kernel takes a submission. -/
theorem Counted.take (h : d.Counted depth recvs) {entry : Sqe} {sq : List Sqe}
    (hsq : d.sq = entry :: sq) :
    Counted depth (recvs + entry.isRecv.toNat) { d with sq := sq } := by
  refine ⟨?_, h.armed_le, h.depth_eq, h.orderly⟩
  have harmed := h.armed_eq
  rw [pending, hsq, List.countP_cons] at harmed
  change d.fleet.armed = sq.countP Sqe.isRecv + (recvs + entry.isRecv.toNat)
    + d.cq.countP (Cqe.ends d.multishot)
  rw [harmed, Bool.toNat, Bool.cond_eq_ite]
  omega

/-- The kernel posts a completion; a terminal one of a receive ends it. -/
theorem Counted.queue (h : d.Counted depth recvs) {cqe : Cqe}
    (hpos : cqe.userData = .recv → 0 < recvs)
    (horderly : cqe.userData = .recv → cqe.Orderly) :
    Counted depth (recvs - (cqe.ends d.multishot).toNat) { d with cq := d.cq ++ [cqe] } := by
  refine ⟨?_, h.armed_le, h.depth_eq, ?_⟩
  · have harmed := h.armed_eq
    have hle : (cqe.ends d.multishot).toNat ≤ recvs := by
      cases hends : cqe.ends d.multishot with
      | false => exact Nat.zero_le _
      | true => exact hpos (of_decide_eq_true (Bool.and_eq_true_iff.mp hends).1)
    change d.fleet.armed = d.sq.countP Sqe.isRecv + (recvs - (cqe.ends d.multishot).toNat)
      + (d.cq ++ [cqe]).countP (Cqe.ends d.multishot)
    rw [harmed, pending, List.countP_append, List.countP_singleton, ← Bool.cond_eq_ite]
    change _ = _ + (_ + (cqe.ends d.multishot).toNat)
    omega
  · intro other hother
    rcases List.mem_append.mp hother with hmem | hmem
    · exact h.orderly other hmem
    · rw [List.mem_singleton.mp hmem]
      exact horderly

end UringDriver

namespace Uring

variable {d d' : Uring}

/-- Receive requests pushed whose last completion has not been read. -/
def outstanding (d : Uring) : ℕ := d.driver.pending d.recvs

/-- Error completions end their receive, and datagrams that are not empty come in a buffer. -/
def Orderly (_ : Uring) : Event → Prop
  | .post cqe => cqe.userData = .recv → cqe.Orderly
  | _ => True

instance : ∀ (d : Uring) (ev : Event), Decidable (d.Orderly ev)
  | _, .post cqe => inferInstanceAs (Decidable (cqe.userData = .recv → cqe.Orderly))
  | _, .poll _ | _, .giveBack _ | _, .arm _ | _, .submit _ _ | _, .drop _ | _, .take
  | _, .teardown | _, .cancel _ _ _ | _, .reap => inferInstanceAs (Decidable True)

/-- Memory is freed with nothing armed. -/
structure Quiet (depth : ℕ) (d : Uring) : Prop where
  counted : d.driver.Counted depth d.recvs
  freed : d.phase = .dropped true → d.driver.fleet.armed = 0

theorem finish_ne_dropped (driver : UringDriver) (r : Except Io Unit)
    (completed : Option (Except Io ℕ)) (freed : Bool) :
    finish driver r completed ≠ .dropped freed := by
  unfold finish
  split
  · split <;> nofun
  · nofun

theorem proceed_ne_dropped (driver : UringDriver) (r : Except Io Unit)
    (completed : Option (Except Io ℕ)) {phase : Phase} {freed : Bool}
    (h : phase ≠ .dropped freed) : proceed driver r completed phase ≠ .dropped freed := by
  unfold proceed
  split
  · exact h
  · exact finish_ne_dropped driver _ completed freed

/-- The loop of `cancel_recvs` ends well with nothing armed. -/
theorem armed_of_cancel {driver : UringDriver} {left : Bool} {room : Room} {waited : Submitted}
    (h : (cancel driver left room waited).2 = .dropped true) :
    (cancel driver left room waited).1.fleet.armed = 0 := by
  unfold cancel at h ⊢
  split_ifs at h ⊢ with hzero hleft
  · exact hzero
  · cases h
  · rcases hpush : driver.push .cancel room with ⟨_ | _, driver'⟩
    · rw [hpush] at h
      cases h
    · rw [hpush] at h
      cases waited with
      | none => cases h
      | some errno =>
          dsimp only at h
          split_ifs at h
          cases h

theorem Quiet.start (cfg : ValidConfig) (path : RecvPath) (skipSuccess : Bool) (base : ℕ) :
    Quiet (if path = .multishot then 1 else cfg.1.depth.1) (.start cfg path skipSuccess base) :=
  ⟨⟨rfl, Nat.zero_le _, rfl, nofun⟩, nofun⟩

theorem Quiet.next {depth : ℕ} {ev : Event} (h : d.Quiet depth) (horderly : d.Orderly ev)
    (hnext : d.next ev = some d') : d'.Quiet depth := by
  cases moves_of_next hnext with
  | poll hphase cap => exact ⟨h.counted.drainFreed.complete _, nofun⟩
  | giveBack hphase rooms =>
      exact ⟨h.counted.giveBack rooms, fun hd ↦ absurd hd (proceed_ne_dropped _ _ _ nofun)⟩
  | arm hphase rooms =>
      exact ⟨h.counted.arm rooms, fun hd ↦ absurd hd (proceed_ne_dropped _ _ _ nofun)⟩
  | submit hphase cqOverflow submitted =>
      have hc := h.counted
      exact ⟨⟨hc.armed_eq, hc.armed_le, hc.depth_eq, hc.orderly⟩,
        fun hd ↦ absurd hd (finish_ne_dropped _ _ _ _)⟩
  | drop hi =>
      have hc := h.counted
      exact ⟨⟨hc.armed_eq, hc.armed_le, hc.depth_eq, hc.orderly⟩, h.freed⟩
  | take hsq => exact ⟨h.counted.take hsq, h.freed⟩
  | @recv cqe d₁ hrecv hpos hselect =>
      obtain ⟨group, head, rfl⟩ := selectOf_eq hselect
      have hends : cqe.ends d.driver.multishot = cqe.terminal d.driver.multishot := by
        rw [Cqe.ends, decide_eq_true hrecv, Bool.true_and]
      have hqueue := h.counted.queue (fun _ ↦ hpos) horderly
      rw [hends] at hqueue
      exact ⟨hqueue, h.freed⟩
  | @post cqe hrecv =>
      have hends : cqe.ends d.driver.multishot = false := by
        rw [Cqe.ends, decide_eq_false hrecv, Bool.false_and]
      have hqueue := h.counted.queue (fun hr : cqe.userData = .recv ↦ absurd hr hrecv) horderly
      rw [hends] at hqueue
      exact ⟨hqueue, h.freed⟩
  | teardown hphase => exact ⟨h.counted, nofun⟩
  | cancel hphase => exact ⟨h.counted.cancel _ _ _, armed_of_cancel⟩
  | reap hphase => exact ⟨h.counted.reap, nofun⟩

/-- `fleet.armed` is the number of outstanding receives, on every path and whatever pushes and
enters return, from `bind` through teardown.  It stays within the depth of the fleet, and `drop`
frees the receive memory only when nothing is outstanding. -/
theorem armed_eq_outstanding {cfg : ValidConfig} {path : RecvPath} {skipSuccess : Bool}
    {base : ℕ} (hrun : machine.Run Orderly (start cfg path skipSuccess base) d) :
    d.driver.fleet.armed = d.outstanding ∧
    d.driver.fleet.armed ≤ (if path = .multishot then 1 else cfg.1.depth.1) ∧
    (d.phase = .dropped true → d.outstanding = 0) := by
  have hquiet := hrun.invariant (I := Quiet _) (.start cfg path skipSuccess base)
    fun _ _ _ h horderly hnext ↦ h.next horderly hnext
  have harmed : d.driver.fleet.armed = d.outstanding := hquiet.counted.armed_eq
  refine ⟨harmed, hquiet.counted.armed_le, fun hfreed ↦ ?_⟩
  rw [← harmed]
  exact hquiet.freed hfreed

/-- Two single-shot receives: one brings a datagram and cannot be armed again, the other is
cancelled at teardown, and the memory is freed. -/
theorem armed_eq_outstanding_torn_down : ∃ d,
    machine.Run Orderly (start sampleConfig .bufRing true 0) d ∧ d.phase = .dropped true ∧
    d.driver.fleet.armed = d.outstanding ∧ d.outstanding = 0 := by
  have hend : ∃ d ∈ Machine.follow next (start sampleConfig .bufRing true 0)
      [.giveBack [], .arm [.fits, .full none true], .submit false none, .take, .take,
        .post ⟨.recv, 10, 1⟩, .poll 1, .giveBack [], .arm [.full (some eagain) false], .teardown,
        .cancel true .fits none, .take, .post ⟨.recv, -125, 0⟩, .reap,
        .cancel true .fits none], d.phase = .dropped true := by
    decide +kernel
  obtain ⟨d, hd, hphase⟩ := hend
  have hrun : machine.Run Orderly _ d := .of_follow (by decide +kernel) hd
  obtain ⟨harmed, -, hfreed⟩ := armed_eq_outstanding hrun
  exact ⟨d, hrun, hphase, harmed, hfreed hphase⟩

end Uring

end IoUring
