import PolarisTrade.Lib.Machine
import PolarisTrade.IoUring.Driver

/-!
# Driver and kernel

The driver, the caller's frames and the kernel's side of the ring together.  `bind` and
`pollFrames` run in steps, at the points where what they do becomes visible to the kernel;
between any two steps the kernel takes submissions, fills buffers of its group and posts
completions, and the caller drops frames.
-/

namespace IoUring

open Transport

/-- Where the driver is.  `completed` is what `complete` returned, `none` during `bind`. -/
inductive Phase where
  | refilling (completed : Option (Except Io ℕ))
  | arming (completed : Option (Except Io ℕ))
  | submitting (completed : Option (Except Io ℕ))
  /-- between two calls, with what the last one returned -/
  | idle (returned : Option (Except Io Polled))
  /-- at the head of the loop of `cancel_recvs` -/
  | cancelling
  /-- before the completions of one turn are read -/
  | reaping
  /-- after `drop`, and whether it freed the receive memory -/
  | dropped (freed : Bool)
  deriving DecidableEq

/-- The driver is bound or being bound. -/
def Phase.isAlive : Phase → Bool
  | .refilling _ | .arming _ | .submitting _ | .idle _ => true
  | .cancelling | .reaping | .dropped _ => false

structure Uring where
  driver : UringDriver
  /-- the buffer group of the legacy path -/
  group : List ℕ
  /-- the kernel's index into the buffer ring -/
  head : BitVec 16
  /-- receives the kernel has taken that have not ended -/
  recvs : ℕ
  live : List IndexFrame
  phase : Phase

namespace Uring

inductive Event where
  | poll (cap : ℕ)
  | giveBack (rooms : List Room)
  | arm (rooms : List Room)
  | submit (cqOverflow : Bool) (submitted : Submitted)
  | drop (i : ℕ)
  /-- the kernel takes the oldest submission -/
  | take
  /-- the kernel posts a completion -/
  | post (cqe : Cqe)
  | teardown
  /-- one turn of `cancel_recvs` up to its wait: time left, and what push and wait return -/
  | cancel (left : Bool) (room : Room) (waited : Submitted)
  | reap

/-! ## Kernel -/

/-- The buffers the kernel may fill. -/
def holds (d : Uring) : List ℕ :=
  match d.driver.bufRing with
  | none => d.group
  | some ring => (ring.unread d.head).map Entry.bid

/-- The kernel takes a buffer: any of a group, the first of a ring. -/
def select (d : Uring) (slot : ℕ) : Option Uring :=
  match d.driver.bufRing with
  | none => if slot ∈ d.group then some { d with group := d.group.erase slot } else none
  | some ring =>
      if ring.resv ≠ d.head ∧ (ring.read d.head).bid = slot then
        some { d with head := d.head + 1 }
      else none

/-- The buffer a completion of a receive came in, if it has one. -/
def selectOf (d : Uring) (cqe : Cqe) : Option Uring :=
  match bufferSelect cqe.flags with
  | none => some d
  | some slot => d.select slot

/-- The queue with a completion more; a terminal one ends its receive. -/
def queue (d : Uring) (cqe : Cqe) (ended : ℕ) : Uring :=
  { d with
    driver := { d.driver with cq := d.driver.cq ++ [cqe] }
    recvs := d.recvs - ended }

def post (d : Uring) (cqe : Cqe) : Option Uring :=
  if cqe.userData = .recv then
    if d.recvs = 0 then none
    else (d.selectOf cqe).map (·.queue cqe (cqe.terminal d.driver.multishot).toNat)
  else some (d.queue cqe 0)

/-! ## Driver steps -/

/-- Where a call ends: `bind` hands out the driver or drops it, `pollFrames` returns. -/
def finish (driver : UringDriver) (refilled : Except Io Unit) : Option (Except Io ℕ) → Phase
  | none =>
      match refilled with
      | .ok _ => .idle none
      | .error _ => .cancelling
  | some completed => .idle (some (driver.polled completed refilled))

/-- On to the next part of the refill, or out of the call with its error. -/
def proceed (driver : UringDriver) (r : Except Io Unit) (completed : Option (Except Io ℕ))
    (phase : Phase) : Phase :=
  match r with
  | .ok _ => phase
  | .error e => finish driver (.error e) completed

/-- `bind` always enters the kernel. -/
def submit (driver : UringDriver) (completed : Option (Except Io ℕ)) (cqOverflow : Bool)
    (submitted : Submitted) : Except Io Unit × UringDriver :=
  match completed with
  | none => driver.enter submitted
  | some _ => driver.submitIfNeeded cqOverflow submitted

def etime : ℤ := 62

/-- One turn of `cancel_recvs` up to the completions it reads. -/
def cancel (driver : UringDriver) (left : Bool) (room : Room) (waited : Submitted) :
    UringDriver × Phase :=
  if driver.fleet.armed = 0 then (driver, .dropped true)
  else if left = false then (driver, .dropped false)
  else
    match driver.push .cancel room with
    | (.error _, driver) => (driver, .dropped false)
    | (.ok _, driver) =>
        match waited with
        | none => (driver, .reaping)
        | some errno =>
            if errno = etime ∨ errno = eintr then (driver, .reaping) else (driver, .dropped false)

def next (d : Uring) : Event → Option Uring
  | .poll cap =>
      match d.phase with
      | .idle _ =>
          let (completed, driver, out) := d.driver.drainFreed.complete { frames := [], cap := cap }
          some
            { d with
              driver := driver
              live := d.live ++ out.frames
              phase := .refilling (some completed) }
      | _ => none
  | .giveBack rooms =>
      match d.phase with
      | .refilling completed =>
          let (r, driver) := d.driver.giveBack rooms
          some { d with driver := driver, phase := proceed driver r completed (.arming completed) }
      | _ => none
  | .arm rooms =>
      match d.phase with
      | .arming completed =>
          let (r, driver) := d.driver.arm rooms
          some
            { d with driver := driver, phase := proceed driver r completed (.submitting completed) }
      | _ => none
  | .submit cqOverflow submitted =>
      match d.phase with
      | .submitting completed =>
          let (r, driver) := submit d.driver completed cqOverflow submitted
          some { d with driver := driver, phase := finish driver r completed }
      | _ => none
  | .drop i =>
      match d.live[i]? with
      | some frame =>
          some
            { d with
              driver := { d.driver with pool := d.driver.pool.dropFrame frame }
              live := d.live.eraseIdx i }
      | none => none
  | .take =>
      match d.driver.sq with
      | [] => none
      | entry :: sq =>
          some
            { d with
              driver := { d.driver with sq := sq }
              group := d.group ++ entry.slots
              recvs := d.recvs + entry.isRecv.toNat }
  | .post cqe => d.post cqe
  | .teardown =>
      match d.phase with
      | .idle _ => some { d with phase := .cancelling }
      | _ => none
  | .cancel left room waited =>
      match d.phase with
      | .cancelling =>
          let (driver, phase) := cancel d.driver left room waited
          some { d with driver := driver, phase := phase }
      | _ => none
  | .reap =>
      match d.phase with
      | .reaping => some { d with driver := d.driver.reap, phase := .cancelling }
      | _ => none

def machine : Machine Uring Event := .ofNext next

/-- `bind`, before it hands the first slot over. -/
def start (cfg : ValidConfig) (path : RecvPath) (skipSuccess : Bool) (base : ℕ) : Uring where
  driver := .new cfg path skipSuccess base
  group := []
  head := 0
  recvs := 0
  live := []
  phase := .refilling none

/-- Two slots of 64 bytes and two receives. -/
def sampleConfig : ValidConfig :=
  ⟨⟨⟨2, by decide⟩, ⟨64, by decide⟩, ⟨2, by decide⟩, none⟩, by decide⟩

/-! ## What a step can do -/

/-- The steps, each with the state it leads to. -/
inductive Moves (d : Uring) : Event → Uring → Prop
  | poll {returned : Option (Except Io Polled)} (hphase : d.phase = .idle returned) (cap : ℕ) :
      Moves d (.poll cap)
        { d with
          driver := (d.driver.drainFreed.complete ⟨[], cap⟩).2.1
          live := d.live ++ (d.driver.drainFreed.complete ⟨[], cap⟩).2.2.frames
          phase := .refilling (some (d.driver.drainFreed.complete ⟨[], cap⟩).1) }
  | giveBack {completed : Option (Except Io ℕ)} (hphase : d.phase = .refilling completed)
      (rooms : List Room) :
      Moves d (.giveBack rooms)
        { d with
          driver := (d.driver.giveBack rooms).2
          phase := proceed (d.driver.giveBack rooms).2 (d.driver.giveBack rooms).1 completed
            (.arming completed) }
  | arm {completed : Option (Except Io ℕ)} (hphase : d.phase = .arming completed)
      (rooms : List Room) :
      Moves d (.arm rooms)
        { d with
          driver := (d.driver.arm rooms).2
          phase := proceed (d.driver.arm rooms).2 (d.driver.arm rooms).1 completed
            (.submitting completed) }
  | submit {completed : Option (Except Io ℕ)} (hphase : d.phase = .submitting completed)
      (cqOverflow : Bool) (submitted : Submitted) {r : Except Io Unit} {stats : DriverStats} :
      Moves d (.submit cqOverflow submitted)
        { d with
          driver := { d.driver with stats := stats }
          phase := finish { d.driver with stats := stats } r completed }
  | drop {i : ℕ} {frame : IndexFrame} (hi : d.live[i]? = some frame) :
      Moves d (.drop i)
        { d with
          driver := { d.driver with pool := d.driver.pool.dropFrame frame }
          live := d.live.eraseIdx i }
  | take {entry : Sqe} {sq : List Sqe} (hsq : d.driver.sq = entry :: sq) :
      Moves d .take
        { d with
          driver := { d.driver with sq := sq }
          group := d.group ++ entry.slots
          recvs := d.recvs + entry.isRecv.toNat }
  | recv {cqe : Cqe} {d' : Uring} (hrecv : cqe.userData = .recv) (hpos : 0 < d.recvs)
      (hselect : d.selectOf cqe = some d') :
      Moves d (.post cqe) (d'.queue cqe (cqe.terminal d.driver.multishot).toNat)
  | post {cqe : Cqe} (hrecv : cqe.userData ≠ .recv) : Moves d (.post cqe) (d.queue cqe 0)
  | teardown {returned : Option (Except Io Polled)} (hphase : d.phase = .idle returned) :
      Moves d .teardown { d with phase := .cancelling }
  | cancel (hphase : d.phase = .cancelling) {left : Bool} {room : Room} {waited : Submitted} :
      Moves d (.cancel left room waited)
        { d with
          driver := (Uring.cancel d.driver left room waited).1
          phase := (Uring.cancel d.driver left room waited).2 }
  | reap (hphase : d.phase = .reaping) :
      Moves d .reap { d with driver := d.driver.reap, phase := .cancelling }

theorem submit_eq (driver : UringDriver) (completed : Option (Except Io ℕ)) (cqOverflow : Bool)
    (submitted : Submitted) :
    ∃ r stats, submit driver completed cqOverflow submitted
      = (r, { driver with stats := stats }) := by
  cases completed with
  | none => exact driver.enter_eq submitted
  | some _ => exact driver.submitIfNeeded_eq cqOverflow submitted

theorem moves_of_next {d d' : Uring} {ev : Event} (h : d.next ev = some d') :
    d.Moves ev d' := by
  cases ev with
  | poll cap =>
      simp only [next] at h
      split at h
      · next hphase =>
          cases h
          exact .poll hphase cap
      · cases h
  | giveBack rooms =>
      simp only [next] at h
      split at h
      · next hphase =>
          cases h
          exact .giveBack hphase rooms
      · cases h
  | arm rooms =>
      simp only [next] at h
      split at h
      · next hphase =>
          cases h
          exact .arm hphase rooms
      · cases h
  | submit cqOverflow submitted =>
      simp only [next] at h
      split at h
      · next completed hphase =>
          obtain ⟨r, stats, hsubmit⟩ := submit_eq d.driver completed cqOverflow submitted
          rw [hsubmit] at h
          cases h
          exact .submit hphase cqOverflow submitted
      · cases h
  | drop i =>
      simp only [next] at h
      split at h
      · next hi =>
          cases h
          exact .drop hi
      · cases h
  | take =>
      simp only [next] at h
      split at h
      · cases h
      · next hsq =>
          cases h
          exact .take hsq
  | post cqe =>
      simp only [next, post] at h
      split_ifs at h with hrecv hzero
      · obtain ⟨d₁, hselect, rfl⟩ := Option.map_eq_some_iff.mp h
        exact .recv hrecv (Nat.pos_of_ne_zero hzero) hselect
      · cases h
        exact .post hrecv
  | teardown =>
      simp only [next] at h
      split at h
      · next hphase =>
          cases h
          exact .teardown hphase
      · cases h
  | cancel left room waited =>
      simp only [next] at h
      split at h
      · next hphase =>
          cases h
          exact .cancel hphase
      · cases h
  | reap =>
      simp only [next] at h
      split at h
      · next hphase =>
          cases h
          exact .reap hphase
      · cases h

/-- A step never changes where the buffers of the kernel come from. -/
theorem selectOf_eq {d d' : Uring} {cqe : Cqe} (h : d.selectOf cqe = some d') :
    ∃ group head, d' = { d with group := group, head := head } := by
  unfold selectOf select at h
  split at h
  · cases h
    exact ⟨_, _, rfl⟩
  · split at h
    · split at h
      · cases h
        exact ⟨_, _, rfl⟩
      · cases h
    · split at h
      · cases h
        exact ⟨_, _, rfl⟩
      · cases h

/-- A turn of `cancel_recvs` pushes one request at most, and not a receive. -/
theorem cancel_eq (driver : UringDriver) (left : Bool) (room : Room) (waited : Submitted) :
    ∃ entries stats, (cancel driver left room waited).1
      = { driver with sq := driver.sq ++ entries, stats := stats } ∧
    ∀ entry ∈ entries, entry = .cancel := by
  have hsame : driver = { driver with sq := driver.sq ++ [], stats := driver.stats } := by
    rw [List.append_nil]
  unfold cancel
  split_ifs
  · exact ⟨[], _, hsame, nofun⟩
  · exact ⟨[], _, hsame, nofun⟩
  · obtain ⟨stats, hpush⟩ | ⟨e, stats, hpush⟩ := driver.push_eq .cancel room
    · rw [hpush]
      refine ⟨[.cancel], stats, ?_, fun entry ↦ List.mem_singleton.mp⟩
      cases waited with
      | none => rfl
      | some errno =>
          dsimp only
          split_ifs
          · rfl
          · rfl
    · rw [hpush]
      exact ⟨[], stats, by rw [List.append_nil], nofun⟩

theorem isAlive_cancel (driver : UringDriver) (left : Bool) (room : Room) (waited : Submitted) :
    (cancel driver left room waited).2.isAlive = false := by
  unfold cancel
  split_ifs
  · rfl
  · rfl
  · rcases driver.push .cancel room with ⟨_ | _, driver'⟩
    · rfl
    · cases waited with
      | none => rfl
      | some errno =>
          dsimp only
          split_ifs
          · rfl
          · rfl

end Uring

end IoUring
