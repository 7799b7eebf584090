import PolarisTrade.IoUring.Runs
import PolarisTrade.IoUring.System

/-!
# Draining into `back`

`poll_frames` drains the freed list into `back`, which must be empty then.  `give_back` leaves
slots in it when a push fails, and nothing empties it before the next call.  So the drain finds it
empty exactly when each run of the slots queued before the last hand-over found room in the
submission queue.  A buffer ring takes every slot; only the legacy path can fail.
-/

namespace IoUring

open Transport

/-- The entry finds room, at once or after an enter that is taken as done. -/
def Room.Takes : Room → Prop
  | .fits => True
  | .full submitted again =>
      (∀ errno ∈ submitted, errno = eagain ∨ errno = ebusy ∨ errno = eintr) ∧ again

namespace UringDriver

variable {d : UringDriver}

theorem push_eq_ok_iff (d : UringDriver) (entry : Sqe) (room : Room) :
    (d.push entry room).1 = .ok () ↔ room.Takes := by
  cases room with
  | fits => exact iff_of_true rfl trivial
  | full submitted again =>
      cases submitted with
      | none => cases again <;> simp [push, enter, Room.Takes]
      | some errno =>
          by_cases herrno : errno = eagain ∨ errno = ebusy ∨ errno = eintr
          · cases again <;> simp [push, enter, Room.Takes, herrno]
          · simp [push, enter, Room.Takes, herrno]

/-- The answers a hand-over of `k` runs meets; those missing are room. -/
theorem forall_take_succ (rooms : List Room) (k : ℕ) :
    (∀ room ∈ rooms.take (k + 1), room.Takes) ↔
      (rooms.headD .fits).Takes ∧ ∀ room ∈ rooms.tail.take k, room.Takes := by
  cases rooms with
  | nil => simp [Room.Takes]
  | cons room rooms => rw [List.take_succ_cons, List.forall_mem_cons]; rfl

/-- The loop has no slot left exactly when the push of each run found room. -/
theorem provideLoop_left {slots : List ℕ} {runs : List (ℕ × ℕ)} (h : Cuts slots runs)
    (d : UringDriver) {n : ℕ} (hn : slots.length ≤ n) (rooms : List Room) :
    (d.provideLoop n slots rooms).2.2 = [] ↔ ∀ room ∈ rooms.take runs.length, room.Takes := by
  induction h generalizing d n rooms with
  | nil =>
      refine iff_of_true ?_ fun _ h ↦ ?_
      · cases n <;> rfl
      · rw [List.length_nil, List.take_zero] at h
        cases h
  | @cons first slots runs hruns ih =>
      cases n with
      | zero => cases hn
      | succ n =>
          rw [List.length_cons, forall_take_succ]
          unfold provideLoop
          dsimp only
          rw [← d.push_eq_ok_iff (d.provide first (run first (first :: slots)))]
          rcases d.push (d.provide first (run first (first :: slots))) (rooms.headD .fits)
            with ⟨e | _, d'⟩
          · refine iff_of_false (List.cons_ne_nil _ _) fun htakes ↦ ?_
            cases htakes.1
          · rw [and_iff_right rfl]
            exact ih d' (length_drop_run_le hn) rooms.tail

theorem giveBack_left (hring : d.bufRing = none) (rooms : List Room) {runs : List (ℕ × ℕ)}
    (hruns : Cuts (d.back.insertionSort (· ≤ ·)) runs) :
    (d.giveBack rooms).2.back = [] ↔ ∀ room ∈ rooms.take runs.length, room.Takes := by
  have hleft := provideLoop_left hruns { d with back := [] }
    (List.length_insertionSort (· ≤ ·) d.back).le rooms
  unfold giveBack
  split
  · next h =>
      have hback := List.isEmpty_iff.mp h
      rw [hback] at hleft ⊢
      exact hleft
  · rw [handOver_none (d := { d with back := [] }) hring]
    exact hleft

/-- A buffer ring takes every slot. -/
theorem giveBack_ring (hring : d.bufRing.isSome) (rooms : List Room) :
    (d.giveBack rooms).2.back = [] := by
  obtain ⟨ring, hring⟩ := Option.isSome_iff_exists.mp hring
  unfold giveBack
  split
  · next h => exact List.isEmpty_iff.mp h
  · rw [handOver_ring (d := { d with back := [] }) hring]

theorem isSome_bufRing_giveBack (d : UringDriver) (rooms : List Room) :
    (d.giveBack rooms).2.bufRing.isSome = d.bufRing.isSome := by
  have hgives := d.givesBack_giveBack rooms
  generalize (d.giveBack rooms).2 = driver at hgives ⊢
  cases hgives with
  | nothing hback => rfl
  | ring hring hback => rw [hring]; rfl
  | legacy hring hback hprovided => rfl

theorem bufRing_complete (d : UringDriver) (out : FrameBatch IndexFrame) :
    (d.complete out).2.1.bufRing = d.bufRing := by
  refine complete_invariant (I := fun d' _ ↦ d'.bufRing = d.bufRing) ?_ rfl
  intro d' out' cqe cq _ h
  obtain ⟨back, stats, hone⟩ := completeOne_eq { d' with cq := cq } out' cqe
  rw [hone]
  exact h

end UringDriver

/-! ## Whole runs -/

/-- The system with the slots that were queued before the last `give_back` and what its pushes
found. -/
structure Handed where
  uring : Uring
  queued : List ℕ
  rooms : List Room

namespace Handed

variable {w w' : Handed}

def next (w : Handed) (ev : Uring.Event) : Option Handed :=
  (w.uring.next ev).map fun uring ↦
    match ev with
    | .giveBack rooms => ⟨uring, w.uring.driver.back, rooms⟩
    | _ => { w with uring := uring }

def machine : Machine Handed Uring.Event := .ofNext next

def start (cfg : ValidConfig) (path : RecvPath) (skipSuccess : Bool) (base : ℕ) : Handed where
  uring := .start cfg path skipSuccess base
  queued := []
  rooms := []

/-- `give_back` has run and the next drain has not. -/
def After : Phase → Prop
  | .arming _ | .submitting _ | .idle _ => True
  | _ => False

/-- What is left in `back` says what the pushes of the hand-over found. -/
structure Told (path : RecvPath) (w : Handed) : Prop where
  left {runs : List (ℕ × ℕ)} : After w.uring.phase →
    Cuts (w.queued.insertionSort (· ≤ ·)) runs →
    (w.uring.driver.back = [] ↔
      path ≠ .legacy ∨ ∀ room ∈ w.rooms.take runs.length, room.Takes)
  ring : w.uring.driver.bufRing.isSome ↔ path ≠ .legacy

variable {path : RecvPath}

theorem Told.start (cfg : ValidConfig) (skipSuccess : Bool) (base : ℕ) :
    (start cfg path skipSuccess base).Told path := by
  refine ⟨False.elim, ?_⟩
  cases path with
  | legacy => exact iff_of_false Bool.false_ne_true fun hpath ↦ hpath rfl
  | bufRing => exact iff_of_true rfl (by decide)
  | multishot => exact iff_of_true rfl (by decide)

/-- A step that leaves `back` and the ring alone and was made after the hand-over. -/
theorem Told.frame (h : w.Told path) {uring : Uring}
    (hback : uring.driver.back = w.uring.driver.back)
    (hring : uring.driver.bufRing = w.uring.driver.bufRing)
    (hafter : After uring.phase → After w.uring.phase) :
    Told path { w with uring := uring } := by
  refine ⟨fun ha hruns ↦ ?_, ?_⟩
  · rw [hback]
    exact h.left (hafter ha) hruns
  · rw [hring]
    exact h.ring

theorem Told.giveBack (h : w.Told path) (rooms : List Room) {uring : Uring}
    (hdriver : uring.driver = (w.uring.driver.giveBack rooms).2) :
    Told path ⟨uring, w.uring.driver.back, rooms⟩ := by
  refine ⟨fun _ hruns ↦ ?_, ?_⟩
  · rw [hdriver]
    by_cases hpath : path = .legacy
    · have hring : w.uring.driver.bufRing = none := by
        rw [← Option.not_isSome_iff_eq_none, h.ring]
        exact not_not_intro hpath
      rw [UringDriver.giveBack_left hring rooms hruns, or_iff_right (not_not_intro hpath)]
    · exact iff_of_true (UringDriver.giveBack_ring (h.ring.mpr hpath) rooms) (.inl hpath)
  · rw [hdriver, UringDriver.isSome_bufRing_giveBack]
    exact h.ring

theorem Told.next {ev : Uring.Event} (h : w.Told path) (hnext : w.next ev = some w') :
    w'.Told path := by
  obtain ⟨uring, hstep, rfl⟩ := Option.map_eq_some_iff.mp hnext
  cases Uring.moves_of_next hstep with
  | poll hphase cap =>
      -- the drain into `back` comes here, and `give_back` follows before anything else
      refine ⟨False.elim, ?_⟩
      change (UringDriver.complete _ _).2.1.bufRing.isSome ↔ _
      rw [UringDriver.bufRing_complete]
      exact h.ring
  | giveBack hphase rooms => exact h.giveBack rooms rfl
  | arm hphase rooms =>
      obtain ⟨r, stats, k, harm, -⟩ :=
        w.uring.driver.armLoop_eq w.uring.driver.fleet.wanted rooms
      apply h.frame
      · rw [UringDriver.arm, harm]
      · rw [UringDriver.arm, harm]
      · rw [hphase]
        exact fun _ ↦ trivial
  | submit hphase cqOverflow submitted =>
      refine h.frame rfl rfl ?_
      rw [hphase]
      exact fun _ ↦ trivial
  | drop hi => exact h.frame rfl rfl id
  | take hsq => exact h.frame rfl rfl id
  | recv hrecv hpos hselect =>
      obtain ⟨group, head, rfl⟩ := Uring.selectOf_eq hselect
      exact h.frame rfl rfl id
  | post hrecv => exact h.frame rfl rfl id
  | teardown hphase => exact h.frame rfl rfl False.elim
  | @cancel hphase left room waited =>
      obtain ⟨entries, stats, hcancel, -⟩ := Uring.cancel_eq w.uring.driver left room waited
      have halive := Uring.isAlive_cancel w.uring.driver left room waited
      apply h.frame
      · rw [hcancel]
      · rw [hcancel]
      · generalize (Uring.cancel w.uring.driver left room waited).2 = phase at halive
        cases phase with
        | arming _ | submitting _ | idle _ => cases halive
        | refilling _ | cancelling | reaping | dropped _ => exact False.elim
  | reap hphase => exact h.frame rfl rfl False.elim

end Handed

/-- Between two calls, where the next drain finds `back` as it is: it is empty exactly when the
driver has a buffer ring or the push of each run of the slots queued before the last hand-over
found room. -/
theorem drain_freed_empty_iff {cfg : ValidConfig} {path : RecvPath} {skipSuccess : Bool}
    {base : ℕ} {w : Handed}
    (hrun : Handed.machine.Run (fun _ _ ↦ True) (.start cfg path skipSuccess base) w)
    {returned : Option (Except Io Polled)} (hidle : w.uring.phase = .idle returned) :
    ∃ runs, Cuts (w.queued.insertionSort (· ≤ ·)) runs ∧
      (w.uring.driver.back = [] ↔
        path ≠ .legacy ∨ ∀ room ∈ w.rooms.take runs.length, room.Takes) := by
  have h : w.Told path := by
    refine hrun.invariant (I := Handed.Told path) (.start cfg skipSuccess base) ?_
    exact fun _ _ _ h _ hnext ↦ h.next hnext
  obtain ⟨runs, hruns⟩ := exists_cuts (w.queued.insertionSort (· ≤ ·))
  refine ⟨runs, hruns, h.left ?_ hruns⟩
  rw [hidle]
  trivial

/-- On the legacy path a frame is dropped and the push of its slot in the next call finds room. -/
theorem drain_freed_empty_iff_legacy :
    ∃ w, Handed.machine.Run (fun _ _ ↦ True) (.start Uring.sampleConfig .legacy true 0) w ∧
      w.uring.phase = .idle (some (.ok .idle)) ∧ w.queued = [0] ∧ w.rooms = [.fits] ∧
      w.uring.driver.back = [] := by
  have hend : ∃ w ∈ Machine.follow Handed.next (.start Uring.sampleConfig .legacy true 0)
      [.giveBack [], .arm [], .submit false none, .take, .take, .take,
        .post ⟨.recv, 10, 0x00001⟩, .poll 1, .giveBack [], .arm [], .submit false none, .drop 0,
        .poll 1, .giveBack [.fits], .arm [], .submit false none],
      w.uring.phase = .idle (some (.ok .idle)) ∧ w.queued = [0] ∧ w.rooms = [.fits] := by
    decide +kernel
  obtain ⟨w, hw, hphase, hqueued, hrooms⟩ := hend
  have hrun : Handed.machine.Run (fun _ _ ↦ True)
      (.start Uring.sampleConfig .legacy true 0) w :=
    .of_follow (Machine.allowedAlong_of_forall (fun _ _ ↦ trivial) _ _) hw
  refine ⟨w, hrun, hphase, hqueued, hrooms, ?_⟩
  obtain ⟨runs, -, hempty⟩ := drain_freed_empty_iff hrun hphase
  refine hempty.mpr (.inr fun room hroom ↦ ?_)
  rw [hrooms] at hroom
  rw [List.mem_singleton.mp (List.mem_of_mem_take hroom)]
  trivial

/-- Sixteen slots of 64 bytes and one receive, so that the submission queue has four entries. -/
def Uring.shallowConfig : ValidConfig :=
  ⟨{ Uring.sampleConfig.1 with slots := ⟨16, by decide⟩, depth := ⟨1, by decide⟩ }, rfl⟩

/-- On the legacy path the kernel fills the slots 0 to 8, each in a call of its own, and the frames
of 0, 2, 4, 6 and 8 are dropped: five runs.  In the next call four provide requests fill the
submission queue, the enter for the fifth answers `EBUSY`, which is taken as done, and the queue
is still full.  Slot 8 stays in `back`, where the drain of the following call finds it: it is
swapped onto the freed list, and that call has nothing to hand over. -/
theorem drain_freed_into_kept_slot :
    ∃ w, Handed.machine.Run (fun _ _ ↦ True) (.start Uring.shallowConfig .legacy true 0) w ∧
      w.uring.phase =
        .idle (some (.error ⟨"io_uring submission queue", .wouldBlock⟩)) ∧
      w.queued = [0, 2, 4, 6, 8] ∧
      w.rooms = [.fits, .fits, .fits, .fits, .full (some ebusy) false] ∧
      w.uring.driver.sq.length = 4 ∧ w.uring.driver.back = [8] ∧
      w.uring.driver.drainFreed.back = [] ∧ w.uring.driver.drainFreed.pool.freed = [8] := by
  refine Machine.Run.exists_of_follow
    ([.giveBack [], .arm [], .submit false none, .take, .take] ++
      ((List.range 9).flatMap fun slot ↦
        [.post ⟨.recv, 10, slot * 0x10000 + 1⟩, .poll 1, .giveBack [], .arm [],
          .submit false none, .take]) ++
      (List.range 5).map Uring.Event.drop ++
      [.poll 1, .giveBack [.fits, .fits, .fits, .fits, .full (some ebusy) false]]) ?_
  decide +kernel

end IoUring
