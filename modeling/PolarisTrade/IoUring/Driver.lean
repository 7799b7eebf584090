import PolarisTrade.IndexPool
import PolarisTrade.IoUring.Completion
import PolarisTrade.IoUring.RingMem

/-!
# Receive engine over `io_uring`

Buffer id `s` is pool slot `s`.  `pollFrames` drains the freed list, turns completions into
frames, hands `back` to the kernel, re-arms and enters the kernel when there is work for it.
Whether a push finds room and what an enter returns are answers of the environment; each call
takes them as arguments.
-/

namespace IoUring

open Transport

/-! ## Config -/

structure InvalidConfig where
  field : String
  reason : String
  deriving DecidableEq

def atMost (field : String) (value max : ℕ) : Except InvalidConfig Unit :=
  if max < value then .error ⟨field, "above backend limit"⟩ else .ok ()

def maxSlots : ℕ := 32768

def maxDepth : ℕ := 4096

def cIntMax : ℕ := 2147483647

structure IoUringConfig where
  slots : NonZeroU32
  slotSize : NonZeroU32
  depth : NonZeroU32
  recvBuf : Option NonZeroU32

def IoUringConfig.validate (cfg : IoUringConfig) : Except InvalidConfig Unit := do
  atMost "slots" cfg.slots maxSlots
  atMost "slot_size" cfg.slotSize cIntMax
  atMost "depth" cfg.depth maxDepth
  if cfg.slots.1 < cfg.depth.1 then
    .error ⟨"depth", "deeper than slots"⟩
  match cfg.recvBuf with
  | some bytes => atMost "recv_buf" bytes cIntMax
  | none => .ok ()

/-- A config that `validate` accepts. -/
def ValidConfig := { cfg : IoUringConfig // cfg.validate = .ok () }

theorem ValidConfig.slots_le (cfg : ValidConfig) : cfg.1.slots.1 ≤ maxSlots := by
  obtain ⟨cfg, hvalid⟩ := cfg
  by_contra hlt
  have herror : atMost "slots" cfg.slots maxSlots = .error ⟨"slots", "above backend limit"⟩ :=
    if_pos (not_le.mp hlt)
  rw [IoUringConfig.validate, herror] at hvalid
  cases hvalid

/-! ## Driver state -/

/-- `libc` error numbers an enter may return and try again later -/
def eagain : ℤ := 11

def ebusy : ℤ := 16

def eintr : ℤ := 4

inductive IoError where
  | raw (errno : ℤ)
  | wouldBlock
  deriving DecidableEq

/-- `TransportError::Io` -/
structure Io where
  stage : String
  error : IoError
  deriving DecidableEq

/-- Entries of the submission queue. -/
inductive Sqe where
  | provide (addr len nbufs bid : ℕ) (skipSuccess : Bool)
  | recv (multishot : Bool)
  | cancel
  deriving DecidableEq

/-- The buffer ids a request provides. -/
def Sqe.slots : Sqe → List ℕ
  | .provide _ _ nbufs bid _ => List.range' bid nbufs
  | _ => []

theorem Sqe.slots_replicate_recv (k : ℕ) (multishot : Bool) :
    (List.replicate k (Sqe.recv multishot)).flatMap Sqe.slots = [] := by
  rw [List.flatMap_eq_nil_iff]
  intro entry hentry
  rw [List.eq_of_mem_replicate hentry]
  rfl

def Sqe.isRecv : Sqe → Bool
  | .recv _ => true
  | _ => false

/-- What `submit` returned: `none` is success. -/
abbrev Submitted := Option ℤ

/-- What a push finds: room, or a full queue, then what the enter returns and whether the second
attempt finds room. -/
inductive Room where
  | fits
  | full (submitted : Submitted) (fits : Bool)
  deriving DecidableEq

structure DriverStats where
  noBuffer : UInt64
  truncated : UInt64
  syscalls : UInt64

structure UringDriver where
  /-- submission queue -/
  sq : List Sqe
  /-- completion queue -/
  cq : List Cqe
  pool : IndexPool
  /-- address of slot 0 -/
  base : ℕ
  bufRing : Option RingMem
  path : RecvPath
  slotSize : ℕ
  skipSuccess : Bool
  fleet : Fleet
  back : List ℕ
  stats : DriverStats

inductive Polled where
  | frames (n : ℕ)
  | idle
  | exhausted
  deriving DecidableEq

/-- `v as u16` -/
def id16 (v : ℕ) : ℕ := v % 2 ^ 16

namespace UringDriver

def multishot (d : UringDriver) : Bool := d.path = .multishot

/-! ## Submission -/

def enter (d : UringDriver) (submitted : Submitted) : Except Io Unit × UringDriver :=
  let d := { d with stats.syscalls := d.stats.syscalls + 1 }
  match submitted with
  | none => (.ok (), d)
  | some errno =>
      if errno = eagain ∨ errno = ebusy ∨ errno = eintr then (.ok (), d)
      else (.error ⟨"io_uring_enter", .raw errno⟩, d)

def push (d : UringDriver) (entry : Sqe) : Room → Except Io Unit × UringDriver
  | .fits => (.ok (), { d with sq := d.sq ++ [entry] })
  | .full submitted fits =>
      match d.enter submitted with
      | (.error e, d) => (.error e, d)
      | (.ok (), d) =>
          if fits then (.ok (), { d with sq := d.sq ++ [entry] })
          else (.error ⟨"io_uring submission queue", .wouldBlock⟩, d)

def submitIfNeeded (d : UringDriver) (cqOverflow : Bool) (submitted : Submitted) :
    Except Io Unit × UringDriver :=
  if d.sq.isEmpty && !cqOverflow then (.ok (), d) else d.enter submitted

/-! ## Handing slots to the kernel -/

/-- How many of the slots count up from `next`. -/
def run : ℕ → List ℕ → ℕ
  | _, [] => 0
  | next, slot :: slots => if slot = next then run (next + 1) slots + 1 else 0

/-- The request for `len` slots from `first` on. -/
def provide (d : UringDriver) (first len : ℕ) : Sqe :=
  .provide (d.base + first * d.pool.stride) d.slotSize (id16 len) (id16 first) d.skipSuccess

/-- The loop of `provide_runs` over the sorted slots not handed yet; `n` bounds the turns.
Returns the slots left. -/
def provideLoop (d : UringDriver) : ℕ → List ℕ → List Room →
    Except Io Unit × UringDriver × List ℕ
  | n + 1, first :: slots, rooms =>
      let len := run first (first :: slots)
      match d.push (d.provide first len) (rooms.headD .fits) with
      | (.error e, d) => (.error e, d, first :: slots)
      | (.ok (), d) => provideLoop d n ((first :: slots).drop len) rooms.tail
  | _, slots, _ => (.ok (), d, slots)

def provideRuns (d : UringDriver) (back : List ℕ) (rooms : List Room) :
    Except Io Unit × UringDriver × List ℕ :=
  d.provideLoop back.length (back.insertionSort (· ≤ ·)) rooms

/-- One entry for each slot. -/
def pushSlots (d : UringDriver) (ring : RingMem) (slots : List ℕ) : RingMem :=
  slots.foldl
    (fun ring slot ↦ ring.push (d.base + slot * d.pool.stride) d.slotSize (id16 slot)) ring

/-- Returns the slots left. -/
def handOver (d : UringDriver) (back : List ℕ) (rooms : List Room) :
    Except Io Unit × UringDriver × List ℕ :=
  match d.bufRing with
  | some ring => (.ok (), { d with bufRing := some (d.pushSlots ring back).publish }, [])
  | none => d.provideRuns back rooms

def giveBack (d : UringDriver) (rooms : List Room) : Except Io Unit × UringDriver :=
  if d.back.isEmpty then (.ok (), d)
  else
    let queued := d.back.length
    let (handed, d, back) := { d with back := [] }.handOver d.back rooms
    (handed, { d with fleet := d.fleet.refilled (queued - back.length), back := back })

/-! ## Arming -/

def armLoop (d : UringDriver) : ℕ → List Room → Except Io Unit × UringDriver
  | 0, _ => (.ok (), d)
  | n + 1, rooms =>
      match d.push (.recv d.multishot) (rooms.headD .fits) with
      | (.error e, d) => (.error e, d)
      | (.ok (), d) => armLoop { d with fleet.armed := d.fleet.armed + 1 } n rooms.tail

def arm (d : UringDriver) (rooms : List Room) : Except Io Unit × UringDriver :=
  d.armLoop d.fleet.wanted rooms

/-! ## Completions -/

/-- One completion taken off the queue; the count is that of the frames pushed. -/
def completeOne (d : UringDriver) (out : FrameBatch IndexFrame) (cqe : Cqe) :
    Except Io ℕ × UringDriver × FrameBatch IndexFrame :=
  match cqe.userData with
  | .recv =>
      let completion := classify cqe.result cqe.flags d.slotSize d.multishot
      let d := { d with fleet := d.fleet.complete completion }
      match completion with
      | .data slot len _ => (.ok 1, d, out.push (d.pool.frame slot 0 len))
      | .truncated slot _ =>
          (.ok 0, { d with stats.truncated := d.stats.truncated + 1, back := d.back ++ [slot] },
            out)
      | .empty _ => (.ok 0, d, out)
      | .noBuffers => (.ok 0, { d with stats.noBuffer := d.stats.noBuffer + 1 }, out)
      | .failed errno => (.error ⟨"io_uring recv", .raw errno⟩, d, out)
  | .provide =>
      if cqe.result < 0 then
        (.error ⟨"io_uring provide buffers", .raw (-cqe.result)⟩, d, out)
      else (.ok 0, d, out)
  | _ => (.ok 0, d, out)

/-- The loop of `complete` over the queue. -/
def completeLoop : List Cqe → UringDriver → FrameBatch IndexFrame → ℕ →
    Except Io ℕ × UringDriver × FrameBatch IndexFrame
  | [], d, out, pushed => (.ok pushed, d, out)
  | cqe :: cq, d, out, pushed =>
      if out.spare = 0 then (.ok pushed, d, out)
      else
        match completeOne { d with cq := cq } out cqe with
        | (.error e, d, out) => (.error e, d, out)
        | (.ok n, d, out) => completeLoop cq d out (pushed + n)

def complete (d : UringDriver) (out : FrameBatch IndexFrame) :
    Except Io ℕ × UringDriver × FrameBatch IndexFrame :=
  completeLoop d.cq d out 0

/-- `pool.drain_freed(&mut back)` -/
def drainFreed (d : UringDriver) : UringDriver :=
  { d with pool := (d.pool.drainFreed d.back).1, back := (d.pool.drainFreed d.back).2 }

/-! ## The call -/

/-- What `poll_frames` returns: a receive error wins. -/
def polled (d : UringDriver) (completed : Except Io ℕ) (refilled : Except Io Unit) :
    Except Io Polled := do
  let pushed ← completed
  refilled
  .ok (if 0 < pushed then .frames pushed else if d.fleet.starved then .exhausted else .idle)

/-- What the kernel answers during one call. -/
structure Answers where
  provides : List Room
  recvs : List Room
  cqOverflow : Bool
  submitted : Submitted

/-- `give_back`, then `arm`, then `submit_if_needed`, each if the one before succeeds -/
def refill (d : UringDriver) (answers : Answers) : Except Io Unit × UringDriver :=
  match d.giveBack answers.provides with
  | (.error e, d) => (.error e, d)
  | (.ok (), d) =>
      match d.arm answers.recvs with
      | (.error e, d) => (.error e, d)
      | (.ok (), d) => d.submitIfNeeded answers.cqOverflow answers.submitted

def pollFrames (d : UringDriver) (out : FrameBatch IndexFrame) (answers : Answers) :
    Except Io Polled × UringDriver × FrameBatch IndexFrame :=
  let (completed, d, out) := d.drainFreed.complete out
  let (refilled, d) := d.refill answers
  (d.polled completed refilled, d, out)

/-! ## Teardown -/

/-- The count after a completion. -/
def settled (d : UringDriver) (fleet : Fleet) (cqe : Cqe) : Fleet :=
  if cqe.userData = .recv then
    fleet.complete (classify cqe.result cqe.flags d.slotSize d.multishot)
  else fleet

/-- The completions read in one turn of `cancel_recvs`. -/
def reap (d : UringDriver) : UringDriver :=
  { d with cq := [], fleet := d.cq.foldl d.settled d.fleet }

/-! ## Bind -/

/-- The buffer ring of a path: the least power of two that has room for every slot. -/
def ringOf (cfg : ValidConfig) : RecvPath → Option RingMem
  | .legacy => none
  | .bufRing | .multishot =>
      some (.new (Nat.clog 2 cfg.1.slots) (Nat.clog_le_of_le_pow cfg.slots_le))

/-- The driver as `bind` builds it, every slot on its way to the kernel. -/
def new (cfg : ValidConfig) (path : RecvPath) (skipSuccess : Bool) (base : ℕ) : UringDriver where
  sq := []
  cq := []
  pool := .new cfg.1.slots cfg.1.slotSize
  base := base
  bufRing := ringOf cfg path
  path := path
  slotSize := cfg.1.slotSize
  skipSuccess := skipSuccess
  fleet := .new (if path = .multishot then 1 else cfg.1.depth)
  back := List.range cfg.1.slots
  stats := ⟨0, 0, 0⟩

/-! ## What the calls leave -/

variable {d : UringDriver}

theorem enter_eq (d : UringDriver) (submitted : Submitted) :
    ∃ r stats, d.enter submitted = (r, { d with stats := stats }) := by
  unfold enter
  cases submitted with
  | none => exact ⟨_, _, rfl⟩
  | some errno =>
      dsimp only
      split
      · exact ⟨_, _, rfl⟩
      · exact ⟨_, _, rfl⟩

/-- A push queues the entry or fails and leaves the queue alone. -/
theorem push_eq (d : UringDriver) (entry : Sqe) (room : Room) :
    (∃ stats, d.push entry room
      = (.ok (), { d with sq := d.sq ++ [entry], stats := stats })) ∨
    ∃ e stats, d.push entry room = (.error e, { d with stats := stats }) := by
  cases room with
  | fits => exact .inl ⟨_, rfl⟩
  | full submitted fits =>
      obtain ⟨r, stats, henter⟩ := d.enter_eq submitted
      unfold push
      dsimp only
      rw [henter]
      cases r with
      | error e => exact .inr ⟨e, stats, rfl⟩
      | ok _ =>
          cases fits with
          | true => exact .inl ⟨stats, rfl⟩
          | false => exact .inr ⟨_, stats, rfl⟩

theorem submitIfNeeded_eq (d : UringDriver) (cqOverflow : Bool) (submitted : Submitted) :
    ∃ r stats, d.submitIfNeeded cqOverflow submitted = (r, { d with stats := stats }) := by
  unfold submitIfNeeded
  split
  · exact ⟨_, _, rfl⟩
  · exact d.enter_eq submitted

theorem take_run : ∀ (slots : List ℕ) (next : ℕ),
    slots.take (run next slots) = List.range' next (run next slots)
  | [], _ => rfl
  | slot :: slots, next => by
      unfold run
      split
      · next h =>
          rw [List.take_succ_cons, take_run slots (next + 1), h, List.range'_succ]
      · rfl

theorem run_pos (first : ℕ) (slots : List ℕ) : 0 < run first (first :: slots) := by
  rw [run, if_pos rfl]
  exact Nat.succ_pos _

theorem run_le : ∀ (slots : List ℕ) (next : ℕ), run next slots ≤ slots.length
  | [], _ => le_rfl
  | slot :: slots, next => by
      unfold run
      split
      · exact Nat.succ_le_succ (run_le slots (next + 1))
      · exact Nat.zero_le _

/-- Requests that hand slots over from the front, and the slots left. -/
structure Provided (slots : List ℕ) (provided : List Sqe) (left : List ℕ) : Prop where
  isRecv : ∀ entry ∈ provided, entry.isRecv = false
  eq_nil : left.length = slots.length → provided = []
  length_le : left.length ≤ slots.length
  slots_eq : slots.length < 2 ^ 16 → (∀ slot ∈ slots, slot < 2 ^ 16) →
    provided.flatMap Sqe.slots ++ left = slots

theorem Provided.nil (slots : List ℕ) : Provided slots [] slots :=
  ⟨nofun, fun _ ↦ rfl, le_rfl, fun _ _ ↦ rfl⟩

/-- One request more, for the run at the front. -/
theorem Provided.cons {first : ℕ} {slots left : List ℕ} {provided : List Sqe}
    (h : Provided ((first :: slots).drop (run first (first :: slots))) provided left)
    (d : UringDriver) :
    Provided (first :: slots) (d.provide first (run first (first :: slots)) :: provided)
      left := by
  have hpos := run_pos first slots
  have hle := run_le (first :: slots) first
  have hdrop := h.length_le
  rw [List.length_drop] at hdrop
  refine ⟨?_, fun heq ↦ ?_, by omega, fun hlength hbound ↦ ?_⟩
  · exact List.forall_mem_cons.mpr ⟨rfl, h.isRecv⟩
  · omega
  · have hrest := h.slots_eq (by rw [List.length_drop]; omega)
      fun slot hslot ↦ hbound slot (List.mem_of_mem_drop hslot)
    have hfirst : id16 first = first := Nat.mod_eq_of_lt (hbound first List.mem_cons_self)
    have hrun : id16 (run first (first :: slots)) = run first (first :: slots) :=
      Nat.mod_eq_of_lt (by omega)
    rw [List.flatMap_cons, List.append_assoc, hrest, provide, Sqe.slots, hfirst, hrun, ← take_run,
      List.take_append_drop]

theorem provideLoop_eq (d : UringDriver) (n : ℕ) (slots : List ℕ) (rooms : List Room)
    (hn : slots.length ≤ n) : ∃ r stats provided left,
      d.provideLoop n slots rooms
        = (r, { d with sq := d.sq ++ provided, stats := stats }, left) ∧
      Provided slots provided left := by
  induction n generalizing d slots rooms with
  | zero =>
      obtain rfl := List.length_eq_zero_iff.mp (Nat.le_zero.mp hn)
      exact ⟨_, d.stats, [], [], by rw [List.append_nil]; rfl, .nil _⟩
  | succ n ih =>
      cases slots with
      | nil => exact ⟨_, d.stats, [], [], by rw [List.append_nil]; rfl, .nil _⟩
      | cons first slots =>
          unfold provideLoop
          dsimp only
          obtain ⟨stats, hpush⟩ | ⟨e, stats, hpush⟩ := d.push_eq
            (d.provide first (run first (first :: slots))) (rooms.headD .fits)
          · rw [hpush]
            have hpos := run_pos first slots
            obtain ⟨r, stats', provided, left, hloop, hprovided⟩ := ih
              { d with
                sq := d.sq ++ [d.provide first (run first (first :: slots))]
                stats := stats }
              ((first :: slots).drop (run first (first :: slots))) rooms.tail (by
                rw [List.length_drop]
                omega)
            refine ⟨r, stats', _, left, ?_, hprovided.cons d⟩
            dsimp only
            rw [hloop]
            dsimp only
            rw [List.append_assoc]
            rfl
          · rw [hpush]
            exact ⟨_, stats, [], first :: slots, by rw [List.append_nil], .nil _⟩

theorem handOver_ring {ring : RingMem} (hring : d.bufRing = some ring) (back : List ℕ)
    (rooms : List Room) : d.handOver back rooms
      = (.ok (), { d with bufRing := some (d.pushSlots ring back).publish }, []) := by
  unfold handOver
  rw [hring]

theorem handOver_none (hring : d.bufRing = none) (back : List ℕ) (rooms : List Room) :
    d.handOver back rooms = d.provideRuns back rooms := by
  unfold handOver
  rw [hring]

theorem handOver_legacy (hring : d.bufRing = none) (back : List ℕ) (rooms : List Room) :
    ∃ r stats provided left,
      d.handOver back rooms = (r, { d with sq := d.sq ++ provided, stats := stats }, left) ∧
      Provided (back.insertionSort (· ≤ ·)) provided left := by
  rw [handOver_none hring]
  exact d.provideLoop_eq _ _ rooms (List.length_insertionSort (· ≤ ·) back).le

/-- What `giveBack` can leave. -/
inductive GivesBack (d : UringDriver) : UringDriver → Prop
  | nothing (hback : d.back = []) : GivesBack d d
  | ring {ring : RingMem} (hring : d.bufRing = some ring) (hback : d.back ≠ []) :
      GivesBack d
        { d with
          bufRing := some (d.pushSlots ring d.back).publish
          fleet := d.fleet.refilled d.back.length
          back := [] }
  | legacy {stats : DriverStats} {provided : List Sqe} {left : List ℕ}
      (hring : d.bufRing = none) (hback : d.back ≠ [])
      (hprovided : Provided (d.back.insertionSort (· ≤ ·)) provided left) :
      GivesBack d
        { d with
          sq := d.sq ++ provided
          stats := stats
          fleet := d.fleet.refilled (d.back.length - left.length)
          back := left }

theorem givesBack_giveBack (d : UringDriver) (rooms : List Room) :
    d.GivesBack (d.giveBack rooms).2 := by
  unfold giveBack
  split
  · next h => exact .nothing (List.isEmpty_iff.mp h)
  · next h =>
      have hback : d.back ≠ [] := fun hnil ↦ h (List.isEmpty_iff.mpr hnil)
      obtain hring | ⟨ring, hring⟩ := Option.eq_none_or_eq_some d.bufRing
      · obtain ⟨r, stats, provided, left, hover, hprovided⟩ :=
          handOver_legacy (d := { d with back := [] }) hring d.back rooms
        rw [hover]
        exact .legacy hring hback hprovided
      · rw [handOver_ring (d := { d with back := [] }) hring]
        exact .ring hring hback

/-- Receives armed before a push fails. -/
theorem armLoop_eq (d : UringDriver) (n : ℕ) (rooms : List Room) : ∃ r stats k,
    d.armLoop n rooms =
      (r, { d with
            sq := d.sq ++ List.replicate k (.recv d.multishot)
            stats := stats
            fleet := { d.fleet with armed := d.fleet.armed + k } }) ∧
    k ≤ n ∧ (r = .ok () → k = n) := by
  induction n generalizing d rooms with
  | zero => exact ⟨_, d.stats, 0, by rw [List.replicate_zero, List.append_nil]; rfl, le_rfl,
      fun _ ↦ rfl⟩
  | succ n ih =>
      unfold armLoop
      obtain ⟨stats, hpush⟩ | ⟨e, stats, hpush⟩ :=
        d.push_eq (.recv d.multishot) (rooms.headD .fits)
      · rw [hpush]
        dsimp only
        obtain ⟨r, stats', k, hloop, hle, hok⟩ := ih
          { d with
            sq := d.sq ++ [.recv d.multishot]
            stats := stats
            fleet := { d.fleet with armed := d.fleet.armed + 1 } } rooms.tail
        refine ⟨r, stats', k + 1, ?_, Nat.succ_le_succ hle, fun hr ↦ by rw [hok hr]⟩
        rw [hloop]
        dsimp only [multishot]
        rw [List.append_assoc, List.replicate_succ, Nat.add_assoc, Nat.add_comm 1 k]
        rfl
      · rw [hpush]
        exact ⟨.error e, stats, 0, by rw [List.replicate_zero, List.append_nil]; rfl,
          Nat.zero_le _, nofun⟩

@[simp] theorem depth_settled (fleet : Fleet) (cqe : Cqe) :
    (d.settled fleet cqe).depth = fleet.depth := by
  unfold settled
  split
  · exact fleet.depth_complete _
  · rfl

/-- Only a receive that found no buffer closes the gate. -/
theorem starved_settled (fleet : Fleet) (cqe : Cqe) :
    (d.settled fleet cqe).starved = (fleet.starved || cqe.isNoBuffers) := by
  unfold settled Cqe.isNoBuffers
  split
  · next hrecv => simp [fleet.starved_complete, classify_eq_noBuffers_iff, hrecv]
  · next hrecv => simp [hrecv]

theorem completeOne_eq (d : UringDriver) (out : FrameBatch IndexFrame) (cqe : Cqe) :
    ∃ back stats, (d.completeOne out cqe).2.1
      = { d with fleet := d.settled d.fleet cqe, back := back, stats := stats } := by
  unfold completeOne settled
  cases cqe.userData with
  | recv =>
      rw [if_pos rfl]
      dsimp only
      split <;> exact ⟨_, _, rfl⟩
  | provide =>
      dsimp only
      split <;> exact ⟨_, _, rfl⟩
  | cancel => exact ⟨_, _, rfl⟩
  | probe => exact ⟨_, _, rfl⟩

theorem cq_completeOne (d : UringDriver) (out : FrameBatch IndexFrame) (cqe : Cqe) :
    (d.completeOne out cqe).2.1.cq = d.cq := by
  obtain ⟨back, stats, h⟩ := d.completeOne_eq out cqe
  rw [h]

/-- What every completion taken keeps, `complete` keeps. -/
theorem complete_invariant {I : UringDriver → FrameBatch IndexFrame → Prop}
    (hone : ∀ d out cqe cq, d.cq = cqe :: cq → I d out →
      I ({ d with cq := cq }.completeOne out cqe).2.1 ({ d with cq := cq }.completeOne out cqe).2.2)
    {out : FrameBatch IndexFrame} (hinit : I d out) :
    I (d.complete out).2.1 (d.complete out).2.2 := by
  suffices hloop : ∀ cq (d : UringDriver) out pushed, d.cq = cq → I d out →
      I (completeLoop cq d out pushed).2.1 (completeLoop cq d out pushed).2.2 from
    hloop d.cq d out 0 rfl hinit
  intro cq
  induction cq with
  | nil => exact fun d out pushed _ h ↦ h
  | cons cqe cq ih =>
      intro d out pushed hcq h
      unfold completeLoop
      split
      · exact h
      · have hcq' := cq_completeOne { d with cq := cq } out cqe
        have hI := hone d out cqe cq hcq h
        rcases hone : completeOne { d with cq := cq } out cqe with ⟨r, d', out'⟩
        rw [hone] at hcq' hI
        cases r with
        | error e => exact hI
        | ok n => exact ih d' out' (pushed + n) hcq' hI

end UringDriver

end IoUring
