import PolarisTrade.IoUring.Slots
import PolarisTrade.Lib.Memory

/-!
# Bytes behind the slots

The driver and the kernel over the memory of the pool.  The kernel knows a buffer by the address
and the length that the driver wrote into its entry or its request, and writes there at any time
while it holds the buffer.  A frame is read by the caller long after it was pushed, also after
the driver is gone.
-/

namespace IoUring

open Transport

/-- The buffers of a request as the kernel files them. -/
def Sqe.buffers : Sqe → List Entry
  | .provide addr len nbufs bid _ =>
      (List.range nbufs).map fun i ↦ ⟨addr + i * len, len, bid + i⟩
  | _ => []

theorem Sqe.map_bid_buffers (entry : Sqe) : entry.buffers.map Entry.bid = entry.slots := by
  cases entry with
  | provide addr len nbufs bid skipSuccess =>
      rw [buffers, slots, List.map_map, List.range'_eq_map_range]
      rfl
  | recv multishot => rfl
  | cancel => rfl

namespace UringDriver

/-- The frame a completion is turned into. -/
def frameOf (d : UringDriver) (cqe : Cqe) : Option IndexFrame :=
  if cqe.userData = .recv then
    match classify cqe.result cqe.flags d.slotSize d.multishot with
    | .data slot len _ => some ⟨slot, 0, len⟩
    | _ => none
  else none

/-- A datagram that did not fit its slot. -/
def isCut (d : UringDriver) (cqe : Cqe) : Bool :=
  if cqe.userData = .recv then
    match classify cqe.result cqe.flags d.slotSize d.multishot with
    | .truncated _ _ => true
    | _ => false
  else false

/-! ## What the driver keeps -/

/-- What no call changes. -/
structure Like (d d' : UringDriver) : Prop where
  base : d'.base = d.base
  stride : d'.pool.stride = d.pool.stride
  slotSize : d'.slotSize = d.slotSize
  path : d'.path = d.path

variable {d d' : UringDriver}

theorem Like.frameOf_eq (h : d.Like d') : d'.frameOf = d.frameOf := by
  funext cqe
  unfold frameOf multishot
  rw [h.slotSize, h.path]

theorem Like.isCut_eq (h : d.Like d') : d'.isCut = d.isCut := by
  funext cqe
  unfold isCut multishot
  rw [h.slotSize, h.path]

theorem frameOf_of_slot_none {cqe : Cqe} (h : cqe.slot = none) : d.frameOf cqe = none := by
  unfold frameOf
  split_ifs with hrecv
  · rw [Cqe.slot_of_recv hrecv] at h
    rcases lt_or_ge cqe.result 0 with hneg | hnonneg
    · rw [classify_of_neg hneg]
      split_ifs <;> rfl
    · rw [classify_of_none hnonneg h]
      split_ifs <;> rfl
  · rfl

theorem isCut_of_slot_none {cqe : Cqe} (h : cqe.slot = none) : d.isCut cqe = false := by
  unfold isCut
  split_ifs with hrecv
  · rw [Cqe.slot_of_recv hrecv] at h
    rcases lt_or_ge cqe.result 0 with hneg | hnonneg
    · rw [classify_of_neg hneg]
      split_ifs <;> rfl
    · rw [classify_of_none hnonneg h]
      split_ifs <;> rfl
  · rfl

/-- A datagram of `len` bytes that came in a buffer. -/
theorem frameOf_datagram {flags : BitVec 32} {slot : ℕ} (hslot : bufferSelect flags = some slot)
    (len : ℕ) :
    d.frameOf ⟨.recv, len, flags⟩ = if len ≤ d.slotSize then some ⟨slot, 0, len⟩ else none := by
  unfold frameOf
  rw [if_pos rfl, classify_of_some (Int.natCast_nonneg len) hslot, Int.natAbs_natCast]
  split_ifs with hlong hfits hfits
  · omega
  · rfl
  · rfl
  · omega

theorem isCut_datagram {flags : BitVec 32} {slot : ℕ} (hslot : bufferSelect flags = some slot)
    (len : ℕ) : d.isCut ⟨.recv, len, flags⟩ = decide (d.slotSize < len) := by
  unfold isCut
  rw [if_pos rfl, classify_of_some (Int.natCast_nonneg len) hslot, Int.natAbs_natCast]
  split_ifs with hlong
  · exact (decide_eq_true hlong).symm
  · exact (decide_eq_false hlong).symm

/-- The frame of a completion is the slot it hands back, from its start and within the slot. -/
theorem frameOf_eq_some {cqe : Cqe} {frame : IndexFrame} (h : d.frameOf cqe = some frame) :
    cqe.slot = some frame.slot ∧ frame.offset = 0 ∧ frame.len ≤ d.slotSize := by
  unfold frameOf at h
  split_ifs at h with hrecv
  rw [Cqe.slot_of_recv hrecv]
  rcases lt_or_ge cqe.result 0 with hneg | hnonneg
  · rw [classify_of_neg hneg] at h
    split_ifs at h
  · cases hselect : bufferSelect cqe.flags with
    | none =>
        rw [classify_of_none hnonneg hselect] at h
        split_ifs at h
    | some slot =>
        rw [classify_of_some hnonneg hselect] at h
        split_ifs at h with hlong
        cases h
        exact ⟨rfl, rfl, not_lt.mp hlong⟩

/-! ## Completions read -/

theorem completeOne_reads (d : UringDriver) (out : FrameBatch IndexFrame) (cqe : Cqe) :
    (d.completeOne out cqe).2.2 = { out with frames := out.frames ++ (d.frameOf cqe).toList } ∧
    (d.completeOne out cqe).2.1.stats.truncated =
      d.stats.truncated + UInt64.ofNat (d.isCut cqe).toNat := by
  unfold completeOne frameOf isCut
  cases cqe.userData with
  | recv =>
      rw [if_pos rfl, if_pos rfl]
      dsimp only
      generalize classify cqe.result cqe.flags d.slotSize d.multishot = completion
      cases completion with
      | data slot len rearm => exact ⟨rfl, (UInt64.add_zero _).symm⟩
      | truncated slot rearm => exact ⟨by simp, rfl⟩
      | empty rearm => exact ⟨by simp, (UInt64.add_zero _).symm⟩
      | noBuffers => exact ⟨by simp, (UInt64.add_zero _).symm⟩
      | failed errno => exact ⟨by simp, (UInt64.add_zero _).symm⟩
  | provide =>
      simp only [reduceCtorEq, if_false]
      split_ifs
      · exact ⟨by simp, (UInt64.add_zero _).symm⟩
      · exact ⟨by simp, (UInt64.add_zero _).symm⟩
  | cancel => exact ⟨by simp, (UInt64.add_zero _).symm⟩
  | probe => exact ⟨by simp, (UInt64.add_zero _).symm⟩

/-- What reading a front part of the queue leaves. -/
structure Reads (d : UringDriver) (out : FrameBatch IndexFrame) (taken : List Cqe)
    (d' : UringDriver) (out' : FrameBatch IndexFrame) : Prop where
  like : d.Like d'
  cq : d.cq = taken ++ d'.cq
  sq : d'.sq = d.sq
  bufRing : d'.bufRing = d.bufRing
  out_eq : out' = { out with frames := out.frames ++ taken.filterMap d.frameOf }
  truncated : d'.stats.truncated = d.stats.truncated + UInt64.ofNat (taken.countP d.isCut)

theorem complete_reads (d : UringDriver) (out : FrameBatch IndexFrame) :
    ∃ taken, d.Reads out taken (d.complete out).2.1 (d.complete out).2.2 := by
  refine complete_invariant (I := fun d' out' ↦ ∃ taken, d.Reads out taken d' out') ?_ ?_
  · rintro d' out' cqe cq hcq ⟨taken, h⟩
    have hlike : d.Like { d' with cq := cq } := ⟨h.like.base, h.like.stride, h.like.slotSize,
      h.like.path⟩
    obtain ⟨hout, htruncated⟩ := completeOne_reads { d' with cq := cq } out' cqe
    obtain ⟨back, stats, hone⟩ := completeOne_eq { d' with cq := cq } out' cqe
    rw [hlike.frameOf_eq] at hout
    rw [hlike.isCut_eq] at htruncated
    rw [hout]
    rw [hone] at htruncated ⊢
    refine ⟨taken ++ [cqe], ⟨h.like.base, h.like.stride, h.like.slotSize, h.like.path⟩, ?_, h.sq,
      h.bufRing, ?_, ?_⟩
    · rw [h.cq, hcq, List.append_assoc]
      rfl
    · rw [h.out_eq, List.filterMap_append, ← List.append_assoc]
      congr 2
    · rw [List.countP_append, UInt64.ofNat_add, ← UInt64.add_assoc, ← h.truncated]
      refine htruncated.trans (congrArg (d'.stats.truncated + UInt64.ofNat ·) ?_)
      cases hcut : d.isCut cqe <;> simp [hcut]
  · exact ⟨[], ⟨rfl, rfl, rfl, rfl⟩, rfl, rfl, rfl, by simp, (UInt64.add_zero _).symm⟩

/-- A call that succeeds and leaves room has emptied the queue. -/
theorem cq_complete_eq_nil {out : FrameBatch IndexFrame} {n : ℕ}
    (hok : (d.complete out).1 = .ok n) (hspare : (d.complete out).2.2.spare ≠ 0) :
    (d.complete out).2.1.cq = [] := by
  suffices hloop : ∀ cq (d : UringDriver) (out : FrameBatch IndexFrame) pushed, d.cq = cq →
      (completeLoop cq d out pushed).1 = .ok n → (completeLoop cq d out pushed).2.2.spare ≠ 0 →
      (completeLoop cq d out pushed).2.1.cq = [] from
    hloop d.cq d out 0 rfl hok hspare
  intro cq
  induction cq with
  | nil => exact fun d out pushed hcq _ _ ↦ hcq
  | cons cqe cq ih =>
      intro d out pushed hcq
      unfold completeLoop
      split
      · next hfull => exact fun _ hroom ↦ absurd hfull hroom
      · have hcq' := cq_completeOne { d with cq := cq } out cqe
        rcases hone : completeOne { d with cq := cq } out cqe with ⟨_ | k, d', out'⟩
        · intro hok
          cases hok
        · rw [hone] at hcq'
          exact ih d' out' (pushed + k) hcq'

/-! ## Calls that count no datagram -/

theorem truncated_enter (d : UringDriver) (submitted : Submitted) :
    (d.enter submitted).2.stats.truncated = d.stats.truncated := by
  unfold enter
  cases submitted with
  | none => rfl
  | some errno =>
      dsimp only
      split_ifs <;> rfl

theorem truncated_push (d : UringDriver) (entry : Sqe) (room : Room) :
    (d.push entry room).2.stats.truncated = d.stats.truncated := by
  cases room with
  | fits => rfl
  | full submitted fits =>
      have henter := d.truncated_enter submitted
      unfold push
      dsimp only
      rcases hresult : d.enter submitted with ⟨_ | _, d'⟩
      · rw [hresult] at henter
        exact henter
      · rw [hresult] at henter
        dsimp only
        split_ifs <;> exact henter

theorem truncated_submitIfNeeded (d : UringDriver) (cqOverflow : Bool) (submitted : Submitted) :
    (d.submitIfNeeded cqOverflow submitted).2.stats.truncated = d.stats.truncated := by
  unfold submitIfNeeded
  split_ifs
  · rfl
  · exact d.truncated_enter submitted

theorem truncated_armLoop (n : ℕ) (d : UringDriver) (rooms : List Room) :
    (d.armLoop n rooms).2.stats.truncated = d.stats.truncated := by
  induction n generalizing d rooms with
  | zero => rfl
  | succ n ih =>
      have hpush := d.truncated_push (.recv d.multishot) (rooms.headD .fits)
      unfold armLoop
      rcases hresult : d.push (.recv d.multishot) (rooms.headD .fits) with ⟨_ | _, d'⟩
      · rw [hresult] at hpush
        exact hpush
      · rw [hresult] at hpush
        exact (ih _ _).trans hpush

/-- The requests of `provide_runs` begin at slots that were waiting. -/
theorem provideLoop_requests (n : ℕ) (d : UringDriver) (slots : List ℕ) (rooms : List Room) :
    (d.provideLoop n slots rooms).2.1.stats.truncated = d.stats.truncated ∧
    ∀ entry ∈ (d.provideLoop n slots rooms).2.1.sq,
      entry ∈ d.sq ∨ ∃ first ∈ slots, ∃ len, entry = d.provide first len := by
  induction n generalizing d slots rooms with
  | zero => exact ⟨rfl, fun entry hentry ↦ .inl hentry⟩
  | succ n ih =>
      cases slots with
      | nil => exact ⟨rfl, fun entry hentry ↦ .inl hentry⟩
      | cons first slots =>
          unfold provideLoop
          dsimp only
          have htruncated := d.truncated_push (d.provide first (run first (first :: slots)))
            (rooms.headD .fits)
          obtain ⟨stats, hpush⟩ | ⟨e, stats, hpush⟩ := d.push_eq
            (d.provide first (run first (first :: slots))) (rooms.headD .fits)
          · rw [hpush] at htruncated ⊢
            obtain ⟨hstats, hsq⟩ := ih
              { d with
                sq := d.sq ++ [d.provide first (run first (first :: slots))]
                stats := stats }
              ((first :: slots).drop (run first (first :: slots))) rooms.tail
            refine ⟨hstats.trans htruncated, fun entry hentry ↦ ?_⟩
            obtain hold | ⟨first', hfirst', len, hentry⟩ := hsq entry hentry
            · rcases List.mem_append.mp hold with hold | hnew
              · exact .inl hold
              · exact .inr ⟨first, List.mem_cons_self, _, List.mem_singleton.mp hnew⟩
            · exact .inr ⟨first', List.mem_of_mem_drop hfirst', len, hentry⟩
          · rw [hpush] at htruncated ⊢
            exact ⟨htruncated, fun entry hentry ↦ .inl hentry⟩

theorem giveBack_requests (d : UringDriver) (rooms : List Room) :
    (d.giveBack rooms).2.stats.truncated = d.stats.truncated ∧
    ∀ entry ∈ (d.giveBack rooms).2.sq,
      entry ∈ d.sq ∨ ∃ first ∈ d.back, ∃ len, entry = d.provide first len := by
  unfold giveBack
  split
  · exact ⟨rfl, fun entry hentry ↦ .inl hentry⟩
  · unfold handOver provideRuns
    dsimp only
    split
    · exact ⟨rfl, fun entry hentry ↦ .inl hentry⟩
    · obtain ⟨hstats, hsq⟩ := provideLoop_requests d.back.length { d with back := [] }
        (d.back.insertionSort (· ≤ ·)) rooms
      refine ⟨hstats, fun entry hentry ↦ (hsq entry hentry).imp id ?_⟩
      rintro ⟨first, hfirst, len, rfl⟩
      exact ⟨first, (d.back.perm_insertionSort (· ≤ ·)).subset hfirst, len, rfl⟩

end UringDriver

structure Region where
  uring : Uring
  /-- the legacy group, with where its buffers are -/
  group : List Entry
  mem : Memory
  /-- datagrams that came in a buffer -/
  wire : List (List UInt8)
  /-- the caller's frames, each with the bytes it was pushed with -/
  shown : List (IndexFrame × List UInt8)
  /-- the bytes of every frame pushed -/
  handed : List (List UInt8)

namespace Region

def driver (d : Region) : UringDriver := d.uring.driver

/-- The bytes of a frame as the memory has them now. -/
def bytes (d : Region) (frame : IndexFrame) : List UInt8 :=
  d.mem.read (d.driver.base + frame.start d.driver.pool.stride) frame.len

/-- The buffers the kernel may write to. -/
def buffers (d : Region) : List Entry :=
  match d.driver.bufRing with
  | none => d.group
  | some ring => ring.unread d.uring.head

/-- The buffer the kernel takes for a datagram, and the group without it. -/
def choose (d : Region) (slot : ℕ) : Option (Entry × List Entry) :=
  match d.driver.bufRing with
  | none =>
      (d.group.find? (·.bid = slot)).map fun entry ↦ (entry, d.group.eraseP (·.bid = slot))
  | some ring => some (ring.read d.uring.head, d.group)

inductive Event where
  /-- a datagram in a buffer; the completion says how long it really is -/
  | receive (datagram : List UInt8) (flags : BitVec 32)
  /-- a receive that failed after it took a buffer -/
  | fail (result : ℤ) (flags : BitVec 32)
  /-- the kernel writes to a buffer it holds -/
  | scribble (entry : Entry) (offset : ℕ) (bytes : List UInt8)
  | poll (cap : ℕ)
  | drop (i : ℕ)
  | take
  /-- a step in which no buffer and no frame changes hands but by the driver -/
  | step (ev : Uring.Event)

/-- Steps that are not one of the others.  A completion with a buffer is `receive` or `fail`. -/
def plain : Uring.Event → Bool
  | .poll _ | .drop _ | .take => false
  | .post cqe => cqe.slot.isNone
  | _ => true

def next (d : Region) : Event → Option Region
  | .receive datagram flags => do
      let slot ← bufferSelect flags
      let (entry, group) ← d.choose slot
      let uring ← d.uring.next (.post ⟨.recv, datagram.length, flags⟩)
      some
        { d with
          uring := uring
          group := group
          mem := d.mem.write entry.addr (datagram.take entry.len)
          wire := d.wire ++ [datagram] }
  | .fail result flags =>
      if result < 0 then do
        let slot ← bufferSelect flags
        let (_, group) ← d.choose slot
        let uring ← d.uring.next (.post ⟨.recv, result, flags⟩)
        some { d with uring := uring, group := group }
      else none
  | .scribble entry offset bytes =>
      if entry ∈ d.buffers ∧ offset + bytes.length ≤ entry.len then
        some { d with mem := d.mem.write (entry.addr + offset) bytes }
      else none
  | .poll cap => do
      let uring ← d.uring.next (.poll cap)
      let frames := uring.live.drop d.uring.live.length
      some
        { d with
          uring := uring
          shown := d.shown ++ frames.map fun frame ↦ (frame, d.bytes frame)
          handed := d.handed ++ frames.map d.bytes }
  | .drop i => do
      let uring ← d.uring.next (.drop i)
      some { d with uring := uring, shown := d.shown.eraseIdx i }
  | .take => do
      let uring ← d.uring.next .take
      some { d with uring := uring, group := d.group ++ (d.driver.sq.take 1).flatMap Sqe.buffers }
  | .step ev =>
      if plain ev then (d.uring.next ev).map fun uring ↦ { d with uring := uring } else none

def machine : Machine Region Event := .ofNext next

def start (cfg : ValidConfig) (path : RecvPath) (skipSuccess : Bool) (base : ℕ) (mem : Memory) :
    Region where
  uring := .start cfg path skipSuccess base
  group := []
  mem := mem
  wire := []
  shown := []
  handed := []

/-- What lies in the completion queue, as the memory has it now. -/
def waiting (d : Region) : List (List UInt8) :=
  (d.driver.cq.filterMap d.driver.frameOf).map d.bytes

end Region

/-! ## What the other steps change -/

namespace Uring

variable {d d' : Uring} {n : ℕ} {lost : List ℕ}

/-- No slot the kernel has or is about to get is in a frame. -/
theorem Conserved.apart (h : d.Conserved n lost) {frame : IndexFrame} (hframe : frame ∈ d.live) :
    frame.slot ∉ d.holds ++ d.driver.sq.flatMap Sqe.slots := by
  intro hmem
  have hcount := h.count frame.slot
  have hone := List.nodup_iff_count_le_one.mp (@List.nodup_range n) frame.slot
  have hlive : 0 < (d.live.map IndexFrame.slot).count frame.slot :=
    List.count_pos_iff.mpr (List.mem_map_of_mem hframe)
  have hkernel := List.count_pos_iff.mpr hmem
  rw [List.count_append] at hkernel
  omega

/-- A slot in the completion queue is not with the kernel. -/
theorem Conserved.not_mem_holds (h : d.Conserved n lost) {slot : ℕ}
    (hslot : slot ∈ d.driver.cq.filterMap Cqe.slot) : slot ∉ d.holds := by
  intro hmem
  have hcount := h.count slot
  have hone := List.nodup_iff_count_le_one.mp (@List.nodup_range n) slot
  have hqueue := List.count_pos_iff.mpr hslot
  have hkernel := List.count_pos_iff.mpr hmem
  omega

/-- What a step leaves alone in which the kernel takes nothing and no frame changes hands. -/
structure Aside (d d' : Uring) : Prop where
  live : d'.live = d.live
  group : d'.group = d.group
  head : d'.head = d.head
  like : d.driver.Like d'.driver
  truncated : d'.driver.stats.truncated = d.driver.stats.truncated
  /-- teardown reads completions and drops what they carry -/
  cq : d'.phase.isAlive = true →
    ∃ added, d'.driver.cq = d.driver.cq ++ added ∧ ∀ cqe ∈ added, cqe.slot = none

theorem Aside.of_driver {driver : UringDriver} {phase : Phase} (hlike : d.driver.Like driver)
    (htruncated : driver.stats.truncated = d.driver.stats.truncated)
    (hcq : driver.cq = d.driver.cq) : d.Aside { d with driver := driver, phase := phase } :=
  ⟨rfl, rfl, rfl, hlike, htruncated, fun _ ↦ ⟨[], by rw [List.append_nil]; exact hcq,
    List.forall_mem_nil _⟩⟩

theorem like_giveBack (driver : UringDriver) (rooms : List Room) :
    driver.Like (driver.giveBack rooms).2 ∧ (driver.giveBack rooms).2.cq = driver.cq := by
  have hgives := driver.givesBack_giveBack rooms
  generalize (driver.giveBack rooms).2 = driver' at hgives ⊢
  cases hgives with
  | nothing hback => exact ⟨⟨rfl, rfl, rfl, rfl⟩, rfl⟩
  | ring hring hback => exact ⟨⟨rfl, rfl, rfl, rfl⟩, rfl⟩
  | legacy hring hback hprovided => exact ⟨⟨rfl, rfl, rfl, rfl⟩, rfl⟩

theorem truncated_cancel (driver : UringDriver) (left : Bool) (room : Room) (waited : Submitted) :
    (cancel driver left room waited).1.stats.truncated = driver.stats.truncated := by
  have hpush := driver.truncated_push .cancel room
  unfold cancel
  split_ifs
  · rfl
  · rfl
  · rcases hresult : driver.push .cancel room with ⟨_ | _, driver'⟩
    · rw [hresult] at hpush
      exact hpush
    · rw [hresult] at hpush
      cases waited with
      | none => exact hpush
      | some errno =>
          dsimp only
          split_ifs <;> exact hpush

theorem aside_of_next {ev : Event} (hplain : Region.plain ev = true)
    (hnext : d.next ev = some d') : d.Aside d' := by
  cases ev with
  | poll cap => cases hplain
  | drop i => cases hplain
  | take => cases hplain
  | giveBack rooms =>
      simp only [next] at hnext
      split at hnext
      · cases hnext
        obtain ⟨hlike, hcq⟩ := like_giveBack d.driver rooms
        exact .of_driver hlike (d.driver.giveBack_requests rooms).1 hcq
      · cases hnext
  | arm rooms =>
      simp only [next] at hnext
      split at hnext
      · cases hnext
        have htruncated := UringDriver.truncated_armLoop d.driver.fleet.wanted d.driver rooms
        obtain ⟨r, stats, k, harm, -⟩ := d.driver.armLoop_eq d.driver.fleet.wanted rooms
        rw [UringDriver.arm]
        rw [harm] at htruncated ⊢
        exact .of_driver ⟨rfl, rfl, rfl, rfl⟩ htruncated rfl
      · cases hnext
  | submit cqOverflow submitted =>
      simp only [next] at hnext
      split at hnext
      · next completed hphase =>
          cases hnext
          have htruncated : (Uring.submit d.driver completed cqOverflow submitted).2.stats.truncated
              = d.driver.stats.truncated := by
            cases completed with
            | none => exact d.driver.truncated_enter submitted
            | some _ => exact d.driver.truncated_submitIfNeeded cqOverflow submitted
          obtain ⟨r, stats, hsubmit⟩ := submit_eq d.driver completed cqOverflow submitted
          rw [hsubmit] at htruncated ⊢
          exact .of_driver ⟨rfl, rfl, rfl, rfl⟩ htruncated rfl
      · cases hnext
  | post cqe =>
      have hslot : cqe.slot = none := Option.isNone_iff_eq_none.mp hplain
      have hqueue : ∀ ended, d.Aside (d.queue cqe ended) := fun ended ↦
        ⟨rfl, rfl, rfl, ⟨rfl, rfl, rfl, rfl⟩, rfl, fun _ ↦ ⟨[cqe], rfl, by simpa using hslot⟩⟩
      cases moves_of_next hnext with
      | post hrecv => exact hqueue 0
      | recv hrecv hpos hselect =>
          rw [Cqe.slot_of_recv hrecv] at hslot
          rw [selectOf, hslot] at hselect
          cases hselect
          exact hqueue _
  | teardown =>
      simp only [next] at hnext
      split at hnext
      · cases hnext
        exact @Aside.of_driver d d.driver .cancelling ⟨rfl, rfl, rfl, rfl⟩ rfl rfl
      · cases hnext
  | cancel left room waited =>
      simp only [next] at hnext
      split at hnext
      · cases hnext
        have htruncated := truncated_cancel d.driver left room waited
        obtain ⟨entries, stats, hcancel, -⟩ := cancel_eq d.driver left room waited
        rw [hcancel] at htruncated ⊢
        exact .of_driver ⟨rfl, rfl, rfl, rfl⟩ htruncated rfl
      · cases hnext
  | reap =>
      simp only [next] at hnext
      split at hnext
      · cases hnext
        exact ⟨rfl, rfl, rfl, ⟨rfl, rfl, rfl, rfl⟩, rfl, fun halive ↦ by cases halive⟩
      · cases hnext

/-- Requests for buffers are made by `giveBack` only. -/
theorem requests_of_next {ev : Event} (hplain : Region.plain ev = true)
    (hother : ∀ rooms, ev ≠ .giveBack rooms) (hnext : d.next ev = some d') :
    d'.driver.bufRing = d.driver.bufRing ∧
      d'.driver.sq.flatMap Sqe.buffers = d.driver.sq.flatMap Sqe.buffers := by
  cases moves_of_next hnext with
  | poll hphase cap => cases hplain
  | drop hi => cases hplain
  | take hsq => cases hplain
  | giveBack hphase rooms => exact absurd rfl (hother rooms)
  | arm hphase rooms =>
      obtain ⟨r, stats, k, harm, -⟩ := d.driver.armLoop_eq d.driver.fleet.wanted rooms
      rw [UringDriver.arm, harm]
      refine ⟨rfl, ?_⟩
      have hnil : (List.replicate k (Sqe.recv d.driver.multishot)).flatMap Sqe.buffers = [] := by
        rw [List.flatMap_eq_nil_iff]
        intro entry hentry
        rw [List.eq_of_mem_replicate hentry]
        rfl
      rw [List.flatMap_append, hnil, List.append_nil]
  | submit hphase cqOverflow submitted => exact ⟨rfl, rfl⟩
  | recv hrecv hpos hselect =>
      obtain ⟨group, head, rfl⟩ := selectOf_eq hselect
      exact ⟨rfl, rfl⟩
  | post hrecv => exact ⟨rfl, rfl⟩
  | teardown hphase => exact ⟨rfl, rfl⟩
  | @cancel hphase left room waited =>
      obtain ⟨entries, stats, hcancel, hentries⟩ := cancel_eq d.driver left room waited
      rw [hcancel]
      refine ⟨rfl, ?_⟩
      have hnil : entries.flatMap Sqe.buffers = [] := by
        rw [List.flatMap_eq_nil_iff]
        intro entry hentry
        rw [hentries entry hentry]
        rfl
      rw [List.flatMap_append, hnil, List.append_nil]
  | reap hphase => exact ⟨rfl, rfl⟩

end Uring

/-- The first entry before the kernel, and the others. -/
theorem RingMem.unread_eq_cons {ring : RingMem} {head : BitVec 16} (h : ring.resv ≠ head) :
    ring.unread head = ring.read head :: ring.unread (head + 1) := by
  have hpos : (ring.resv - head).toNat = (ring.resv - (head + 1)).toNat + 1 := by
    bv_omega
  unfold unread
  rw [hpos, List.range_succ_eq_map, List.map_cons, List.map_map, BitVec.add_zero]
  refine congrArg (ring.read head :: ·) (List.map_congr_left fun i _ ↦ congrArg ring.read ?_)
  bv_omega

/-! ## Where the kernel writes -/

/-- The buffer of slot `bid` in slots of `size` bytes from `base` on. -/
def Entry.Placed (base size : ℕ) (entry : Entry) : Prop :=
  entry.addr = base + entry.bid * size ∧ entry.len = size

/-- Bytes from the start of a slot, within it. -/
def Within (size : ℕ) (frame : IndexFrame) : Prop := frame.offset = 0 ∧ frame.len ≤ size

/-- A write to one slot leaves the frames of the others alone. -/
theorem Entry.Placed.read_write {base size offset : ℕ} {entry : Entry} {mem : Memory}
    {bytes : List UInt8} {frame : IndexFrame} (h : entry.Placed base size)
    (hfits : offset + bytes.length ≤ size) (hwithin : Within size frame)
    (hne : frame.slot ≠ entry.bid) :
    (mem.write (entry.addr + offset) bytes).read (base + frame.start size) frame.len
      = mem.read (base + frame.start size) frame.len := by
  obtain ⟨hoffset, hlen⟩ := hwithin
  have haddr := h.1
  apply Memory.read_write_of_disjoint
  unfold IndexFrame.start
  rcases Nat.lt_or_gt_of_ne hne with hlt | hlt
  · left
    have hbelow : (frame.slot + 1) * size ≤ entry.bid * size := Nat.mul_le_mul_right _ hlt
    rw [Nat.add_mul, Nat.one_mul] at hbelow
    omega
  · right
    have habove : (entry.bid + 1) * size ≤ frame.slot * size := Nat.mul_le_mul_right _ hlt
    rw [Nat.add_mul, Nat.one_mul] at habove
    omega

namespace Region

variable {d d' : Region} {slots base size : ℕ}

/-- The buffers the kernel has or finds in the submission queue. -/
def reach (d : Region) : List Entry := d.buffers ++ d.driver.sq.flatMap Sqe.buffers

theorem map_bid_buffers (hgroup : d.group.map Entry.bid = d.uring.group) :
    d.buffers.map Entry.bid = d.uring.holds := by
  unfold buffers Uring.holds driver
  cases d.uring.driver.bufRing with
  | none => exact hgroup
  | some ring => rfl

theorem map_bid_reach (hgroup : d.group.map Entry.bid = d.uring.group) :
    d.reach.map Entry.bid = d.uring.holds ++ d.uring.driver.sq.flatMap Sqe.slots := by
  rw [reach, List.map_append, map_bid_buffers hgroup, List.map_flatMap]
  refine congrArg (d.uring.holds ++ ·) (List.flatMap_congr fun entry _ ↦ ?_)
  exact entry.map_bid_buffers

theorem isAlive_of_next {u u' : Uring} {ev : Uring.Event} (hnext : u.next ev = some u')
    (halive : u'.phase.isAlive = true) : u.phase.isAlive = true := by
  cases Uring.moves_of_next hnext with
  | poll hphase cap => rw [hphase]; rfl
  | giveBack hphase rooms => rw [hphase]; rfl
  | arm hphase rooms => rw [hphase]; rfl
  | submit hphase cqOverflow submitted => rw [hphase]; rfl
  | drop hi => exact halive
  | take hsq => exact halive
  | recv hrecv hpos hselect =>
      obtain ⟨group, head, rfl⟩ := Uring.selectOf_eq hselect
      exact halive
  | post hrecv => exact halive
  | teardown hphase => cases halive
  | cancel hphase =>
      rw [Uring.isAlive_cancel] at halive
      cases halive
  | reap hphase => cases halive

structure Intact (slots base size : ℕ) (d : Region) : Prop where
  conserved : d.uring.phase.isAlive = true → ∃ lost, d.uring.Conserved slots lost
  base_eq : d.driver.base = base
  stride_eq : d.driver.pool.stride = size
  slotSize_eq : d.driver.slotSize = size
  group : d.group.map Entry.bid = d.uring.group
  placed : ∀ entry ∈ d.reach, entry.Placed base size
  apart : ∀ frame ∈ d.uring.live, frame.slot ∉ d.reach.map Entry.bid
  shown : d.shown.map Prod.fst = d.uring.live
  kept : ∀ p ∈ d.shown, Within size p.1 ∧ d.bytes p.1 = p.2
  account : d.uring.phase.isAlive = true →
    d.wire.filter (·.length ≤ size) = d.handed ++ d.waiting
  cut : d.uring.phase.isAlive = true → UInt64.ofNat (d.wire.countP (size < ·.length)) =
    d.driver.stats.truncated + UInt64.ofNat (d.driver.cq.countP d.driver.isCut)

theorem Intact.conserved_next (h : d.Intact slots base size) {ev : Uring.Event} {u : Uring}
    (hnext : d.uring.next ev = some u) (halive : u.phase.isAlive = true) :
    ∃ lost, u.Conserved slots lost := by
  obtain ⟨lost, hconserved⟩ := h.conserved (isAlive_of_next hnext halive)
  obtain ⟨lost', hnext, -⟩ := Uring.Conserved.next (fun _ ↦ hconserved) hnext halive
  exact ⟨_, hnext⟩

theorem bytes_eq_read (hbase : d.driver.base = base) (hstride : d.driver.pool.stride = size)
    (frame : IndexFrame) : d.bytes frame = d.mem.read (base + frame.start size) frame.len := by
  rw [bytes, hbase, hstride]

/-- Bytes of frames and of the completion queue survive a write of the kernel. -/
theorem Intact.write (h : d.Intact slots base size) {entry : Entry} (hentry : entry ∈ d.buffers)
    {offset : ℕ} {bytes : List UInt8} (hfits : offset + bytes.length ≤ entry.len) :
    Intact slots base size { d with mem := d.mem.write (entry.addr + offset) bytes } := by
  have hreach : entry ∈ d.reach := List.mem_append_left _ hentry
  have hplaced := h.placed entry hreach
  rw [hplaced.2] at hfits
  have hread : ∀ {frame : IndexFrame}, Within size frame → frame.slot ≠ entry.bid →
      Region.bytes { d with mem := d.mem.write (entry.addr + offset) bytes } frame
        = d.bytes frame := by
    intro frame hwithin hne
    rw [bytes_eq_read h.base_eq h.stride_eq frame]
    refine (bytes_eq_read ?_ ?_ frame).trans (hplaced.read_write hfits hwithin hne)
    · exact h.base_eq
    · exact h.stride_eq
  refine ⟨h.conserved, h.base_eq, h.stride_eq, h.slotSize_eq, h.group, h.placed, h.apart, h.shown,
    fun p hp ↦ ?_, fun halive ↦ ?_, h.cut⟩
  · obtain ⟨hwithin, hbytes⟩ := h.kept p hp
    have hlive : p.1 ∈ d.uring.live := h.shown ▸ List.mem_map_of_mem hp
    refine ⟨hwithin, (hread hwithin fun heq ↦ ?_).trans hbytes⟩
    exact h.apart p.1 hlive (heq ▸ List.mem_map_of_mem hreach)
  · refine (h.account halive).trans (congrArg (d.handed ++ ·) ?_)
    refine List.map_congr_left fun frame hframe ↦ (hread ?_ fun heq ↦ ?_).symm
    · obtain ⟨cqe, -, hcqe⟩ := List.mem_filterMap.mp hframe
      obtain ⟨-, hoffset, hlen⟩ := UringDriver.frameOf_eq_some hcqe
      exact ⟨hoffset, h.slotSize_eq ▸ hlen⟩
    · obtain ⟨cqe, hmem, hcqe⟩ := List.mem_filterMap.mp hframe
      have hslot := (UringDriver.frameOf_eq_some hcqe).1
      obtain ⟨lost, hconserved⟩ := h.conserved halive
      refine hconserved.not_mem_holds (List.mem_filterMap.mpr ⟨cqe, hmem, hslot⟩) ?_
      rw [heq, ← map_bid_buffers h.group]
      exact List.mem_map_of_mem hentry

/-! ## Steps of the driver -/

/-- What `giveBack` hands over is where the slots are. -/
theorem Intact.placed_giveBack (h : d.Intact slots base size)
    {lost : List ℕ} (hconserved : d.uring.Conserved slots lost) (rooms : List Room)
    (phase : Phase) :
    ∀ entry ∈ reach { d with
      uring := { d.uring with driver := (d.uring.driver.giveBack rooms).2, phase := phase } },
      entry.Placed base size := by
  have hle := hconserved.le_maxSlots
  unfold maxSlots at hle
  have hid : ∀ slot ∈ d.uring.driver.back, id16 slot = slot := fun slot hslot ↦
    Nat.mod_eq_of_lt (by have := hconserved.back_lt hslot; omega)
  have hbase : d.uring.driver.base = base := h.base_eq
  have hstride : d.uring.driver.pool.stride = size := h.stride_eq
  have hsize : d.uring.driver.slotSize = size := h.slotSize_eq
  intro entry hentry
  rcases List.mem_append.mp hentry with hbuffer | hqueued
  · unfold buffers driver at hbuffer
    have hgives := d.uring.driver.givesBack_giveBack rooms
    generalize (d.uring.driver.giveBack rooms).2 = driver' at hgives hbuffer
    cases hgives with
    | nothing hback => exact h.placed entry (List.mem_append_left _ hbuffer)
    | @ring ring hring hback =>
        obtain ⟨hlength, -, queue, received, hfeeds⟩ := hconserved.ring ring hring
        have hholds := Uring.holds_ring hring
        rw [hfeeds.unread_eq] at hholds
        have hroom := hconserved.length
        rw [hholds, List.length_map] at hroom
        have hpush := (d.uring.driver.feeds_pushSlots d.uring.driver.back hfeeds (by
          rw [List.length_nil]
          omega)).publish
        dsimp only at hbuffer
        rw [hpush.unread_eq, List.nil_append] at hbuffer
        rcases List.mem_append.mp hbuffer with hold | hnew
        · refine h.placed entry (List.mem_append_left _ ?_)
          unfold buffers driver
          rw [hring]
          dsimp only
          rwa [hfeeds.unread_eq]
        · obtain ⟨slot, hslot, rfl⟩ := List.mem_map.mp hnew
          refine ⟨?_, hsize⟩
          change d.uring.driver.base + slot * d.uring.driver.pool.stride = base + id16 slot * size
          rw [hbase, hstride, hid slot hslot]
    | legacy hring hback hprovided =>
        dsimp only at hbuffer
        rw [hring] at hbuffer
        refine h.placed entry (List.mem_append_left _ ?_)
        unfold buffers driver
        rw [hring]
        exact hbuffer
  · obtain ⟨sqe, hsqe, hentry⟩ := List.mem_flatMap.mp hqueued
    rcases (d.uring.driver.giveBack_requests rooms).2 sqe hsqe with hold | ⟨first, hfirst, len, rfl⟩
    · exact h.placed entry (List.mem_append_right _ (List.mem_flatMap.mpr ⟨sqe, hold, hentry⟩))
    · obtain ⟨i, -, rfl⟩ := List.mem_map.mp hentry
      refine ⟨?_, hsize⟩
      dsimp only
      rw [hbase, hstride, hsize, hid first hfirst, Nat.add_mul, Nat.add_assoc]

/-- The reach of the kernel after a step of the driver: as it was, or what `giveBack` made it. -/
theorem Intact.reach_step (h : d.Intact slots base size) {ev : Uring.Event} {u : Uring}
    (hplain : plain ev = true) (hnext : d.uring.next ev = some u) :
    (∀ entry ∈ reach { d with uring := u }, entry.Placed base size) ∧
      ∀ frame ∈ u.live, frame.slot ∉ (reach { d with uring := u }).map Entry.bid := by
  have haside := Uring.aside_of_next hplain hnext
  by_cases hother : ∀ rooms, ev ≠ .giveBack rooms
  · obtain ⟨hring, hsq⟩ := Uring.requests_of_next hplain hother hnext
    have hreach : reach { d with uring := u } = d.reach := by
      unfold reach buffers driver
      dsimp only
      rw [hring, hsq, haside.head]
    rw [hreach, haside.live]
    exact ⟨h.placed, h.apart⟩
  · push Not at hother
    obtain ⟨rooms, rfl⟩ := hother
    have hgroup : d.group.map Entry.bid = u.group := h.group.trans haside.group.symm
    cases Uring.moves_of_next hnext with
    | giveBack hphase rooms =>
        obtain ⟨lost, hconserved⟩ := h.conserved (by rw [hphase]; rfl)
        refine ⟨h.placed_giveBack hconserved rooms _, fun frame hframe ↦ ?_⟩
        rw [map_bid_reach (by exact hgroup)]
        exact (hconserved.giveBack rooms _).apart hframe

/-- Frames are read where they were as long as the region stays in place. -/
theorem bytes_of_like (hlike : d.uring.driver.Like d'.uring.driver) (hmem : d'.mem = d.mem) :
    d'.bytes = d.bytes := by
  funext frame
  unfold Region.bytes Region.driver
  rw [hmem, hlike.base, hlike.stride]

theorem Intact.step (h : d.Intact slots base size) {ev : Uring.Event}
    (hnext : d.next (.step ev) = some d') : d'.Intact slots base size := by
  simp only [Region.next] at hnext
  split at hnext
  · next hplain =>
      obtain ⟨u, hu, rfl⟩ := Option.map_eq_some_iff.mp hnext
      have haside := Uring.aside_of_next hplain hu
      obtain ⟨hplaced, hapart⟩ := h.reach_step hplain hu
      have hbytes : Region.bytes { d with uring := u } = d.bytes := bytes_of_like haside.like rfl
      refine ⟨fun halive ↦ ?_, haside.like.base.trans h.base_eq,
        haside.like.stride.trans h.stride_eq, haside.like.slotSize.trans h.slotSize_eq,
        h.group.trans haside.group.symm, hplaced, hapart, h.shown.trans haside.live.symm,
        fun p hp ↦ ?_, fun halive ↦ ?_, fun halive ↦ ?_⟩
      · exact h.conserved_next hu halive
      · rw [hbytes]
        exact h.kept p hp
      · obtain ⟨added, hcq, hadded⟩ := haside.cq halive
        refine (h.account (isAlive_of_next hu halive)).trans (congrArg (d.handed ++ ·) ?_)
        have hnone : added.filterMap d.uring.driver.frameOf = [] :=
          List.filterMap_eq_nil_iff.mpr fun cqe hcqe ↦
            UringDriver.frameOf_of_slot_none (hadded cqe hcqe)
        unfold waiting
        rw [hbytes]
        unfold driver
        dsimp only
        rw [hcq, haside.like.frameOf_eq, List.filterMap_append, hnone, List.append_nil]
      · obtain ⟨added, hcq, hadded⟩ := haside.cq halive
        have hnone : added.countP d.uring.driver.isCut = 0 :=
          List.countP_eq_zero.mpr fun cqe hcqe ↦ by
            rw [UringDriver.isCut_of_slot_none (hadded cqe hcqe)]
            exact Bool.false_ne_true
        refine (h.cut (isAlive_of_next hu halive)).trans ?_
        unfold driver
        dsimp only
        rw [hcq, haside.like.isCut_eq, haside.truncated, List.countP_append, hnone, Nat.add_zero]
  · cases hnext

theorem Intact.take (h : d.Intact slots base size) (hnext : d.next .take = some d') :
    d'.Intact slots base size := by
  simp only [Region.next, Option.bind_eq_bind, Option.bind_eq_some_iff, Option.some.injEq] at hnext
  obtain ⟨u, hu, rfl⟩ := hnext
  have hconserved : u.phase.isAlive = true → ∃ lost, u.Conserved slots lost :=
    h.conserved_next hu
  cases Uring.moves_of_next hu with
  | @take entry sq hsq =>
      have hfirst : (d.driver.sq.take 1).flatMap Sqe.buffers = entry.buffers := by
        rw [show d.driver.sq = entry :: sq from hsq]
        exact List.flatMap_singleton _ _
      rw [hfirst]
      -- what the kernel takes it had in reach
      have hreach : ∀ b ∈ reach { d with
          uring := { d.uring with
            driver := { d.uring.driver with sq := sq }
            group := d.uring.group ++ entry.slots
            recvs := d.uring.recvs + entry.isRecv.toNat }
          group := d.group ++ entry.buffers }, b ∈ d.reach := by
        intro b hb
        unfold reach buffers driver at hb ⊢
        rw [hsq, List.flatMap_cons]
        dsimp only at hb
        cases hring : d.uring.driver.bufRing with
        | none =>
            rw [hring] at hb
            rwa [← List.append_assoc]
        | some ring =>
            rw [hring] at hb
            rcases List.mem_append.mp hb with hb | hb
            · exact List.mem_append_left _ hb
            · exact List.mem_append_right _ (List.mem_append_right _ hb)
      refine ⟨hconserved, h.base_eq, h.stride_eq, h.slotSize_eq, ?_,
        fun b hb ↦ h.placed b (hreach b hb), fun frame hframe hmem ↦ ?_, h.shown, h.kept, h.account,
        h.cut⟩
      · rw [List.map_append, h.group, entry.map_bid_buffers]
      · obtain ⟨b, hb, hslot⟩ := List.mem_map.mp hmem
        exact h.apart frame hframe (hslot ▸ List.mem_map_of_mem (hreach b hb))

theorem Intact.drop (h : d.Intact slots base size) {i : ℕ} (hnext : d.next (.drop i) = some d') :
    d'.Intact slots base size := by
  simp only [Region.next, Option.bind_eq_bind, Option.bind_eq_some_iff, Option.some.injEq] at hnext
  obtain ⟨u, hu, rfl⟩ := hnext
  have hconserved : u.phase.isAlive = true → ∃ lost, u.Conserved slots lost :=
    h.conserved_next hu
  cases Uring.moves_of_next hu with
  | drop hi =>
      refine ⟨hconserved, h.base_eq, h.stride_eq, h.slotSize_eq, h.group, h.placed,
        fun frame hframe ↦ ?_, ?_, fun p hp ↦ ?_, h.account, h.cut⟩
      · exact h.apart frame ((List.eraseIdx_sublist _ _).subset hframe)
      · dsimp only
        rw [← h.shown, List.eraseIdx_map]
      · exact h.kept p ((List.eraseIdx_sublist _ _).subset hp)

/-- `complete` makes frames of the front of the queue, which the caller then has. -/
theorem Intact.poll (h : d.Intact slots base size) {cap : ℕ}
    (hnext : d.next (.poll cap) = some d') : d'.Intact slots base size := by
  simp only [Region.next, Option.bind_eq_bind, Option.bind_eq_some_iff, Option.some.injEq] at hnext
  obtain ⟨u, hu, rfl⟩ := hnext
  cases Uring.moves_of_next hu with
  | poll hphase =>
      have halive : d.uring.phase.isAlive = true := by rw [hphase]; rfl
      obtain ⟨lost, hbefore⟩ := h.conserved halive
      obtain ⟨lost', hconserved, -⟩ := hbefore.poll cap
        (.refilling (some (d.uring.driver.drainFreed.complete ⟨[], cap⟩).1))
      obtain ⟨taken, hreads⟩ := d.uring.driver.drainFreed.complete_reads ⟨[], cap⟩
      have hdrained : d.uring.driver.Like d.uring.driver.drainFreed := ⟨rfl, rfl, rfl, rfl⟩
      generalize d.uring.driver.drainFreed.complete ⟨[], cap⟩ = result at hreads hconserved ⊢
      obtain ⟨completed, driver', out⟩ := result
      dsimp only at hreads hconserved ⊢
      have hlike : d.uring.driver.Like driver' := ⟨hreads.like.base, hreads.like.stride,
        hreads.like.slotSize, hreads.like.path⟩
      have hframes : out.frames = taken.filterMap d.uring.driver.frameOf := by
        rw [hreads.out_eq, hdrained.frameOf_eq]
        rfl
      have hcq : d.uring.driver.cq = taken ++ driver'.cq := hreads.cq
      rw [List.drop_left]
      set d' : Region :=
        { d with
          uring := { d.uring with
            driver := driver'
            live := d.uring.live ++ out.frames
            phase := .refilling (some completed) }
          shown := d.shown ++ out.frames.map fun frame ↦ (frame, d.bytes frame)
          handed := d.handed ++ out.frames.map d.bytes } with hd'
      have hbytes : d'.bytes = d.bytes := bytes_of_like hlike rfl
      have hreach : d'.reach = d.reach := by
        unfold reach buffers Region.driver
        rw [hd']
        dsimp only
        rw [hreads.bufRing, hreads.sq]
        rfl
      refine ⟨fun _ ↦ ⟨_, hconserved⟩, hlike.base.trans h.base_eq, hlike.stride.trans h.stride_eq,
        hlike.slotSize.trans h.slotSize_eq, h.group, ?_, fun frame hframe ↦ ?_, ?_, fun p hp ↦ ?_,
        fun _ ↦ ?_, fun _ ↦ ?_⟩
      · rw [hreach]
        exact h.placed
      · rw [map_bid_reach (by exact h.group)]
        exact hconserved.apart hframe
      · change (d.shown ++ _).map Prod.fst = d.uring.live ++ out.frames
        rw [List.map_append, h.shown, List.map_map]
        exact congrArg (d.uring.live ++ ·) (List.map_id _)
      · rw [hbytes]
        rcases List.mem_append.mp hp with hold | hnew
        · exact h.kept p hold
        · obtain ⟨frame, hframe, rfl⟩ := List.mem_map.mp hnew
          rw [hframes] at hframe
          obtain ⟨cqe, -, hcqe⟩ := List.mem_filterMap.mp hframe
          obtain ⟨-, hoffset, hlen⟩ := UringDriver.frameOf_eq_some hcqe
          exact ⟨⟨hoffset, hlen.trans h.slotSize_eq.le⟩, rfl⟩
      · have hwaiting : d.waiting = out.frames.map d.bytes ++ d'.waiting := by
          unfold waiting
          rw [hbytes, hframes, ← List.map_append]
          unfold Region.driver
          rw [hcq, List.filterMap_append, hd']
          dsimp only
          rw [hlike.frameOf_eq]
        rw [show d'.wire = d.wire from rfl, h.account halive, hwaiting, ← List.append_assoc]
      · refine (h.cut halive).trans ?_
        unfold Region.driver
        rw [hcq, List.countP_append, hd']
        dsimp only
        rw [hreads.truncated, hlike.isCut_eq, hdrained.isCut_eq, UInt64.ofNat_add,
          UInt64.add_assoc]
        rfl

/-! ## Datagrams -/

/-- The kernel puts a datagram in a buffer it holds and does not hold it any more. -/
theorem choose_spec {slot : ℕ} {result : ℤ} {flags : BitVec 32} {entry : Entry} {group : List Entry}
    {u : Uring} (hgroup : d.group.map Entry.bid = d.uring.group)
    (hslot : bufferSelect flags = some slot) (hchoose : d.choose slot = some (entry, group))
    (hu : d.uring.next (.post ⟨.recv, result, flags⟩) = some u) :
    entry ∈ d.buffers ∧ entry.bid = slot ∧ group.map Entry.bid = u.group ∧
    (∀ b ∈ reach { d with uring := u, group := group }, b ∈ d.reach) ∧
    u.live = d.uring.live ∧ u.phase = d.uring.phase ∧
    u.driver = { d.uring.driver with cq := d.uring.driver.cq ++ [⟨.recv, result, flags⟩] } := by
  cases Uring.moves_of_next hu with
  | post hrecv => exact absurd rfl hrecv
  | @recv _ u₁ hrecv hpos hselect =>
      rw [Uring.selectOf, hslot] at hselect
      dsimp only [Uring.select] at hselect
      unfold choose driver at hchoose
      unfold reach buffers driver
      cases hring : d.uring.driver.bufRing with
      | none =>
          rw [hring] at hselect hchoose
          obtain ⟨found, hfind, heq⟩ := Option.map_eq_some_iff.mp hchoose
          cases heq
          dsimp only at hselect
          split_ifs at hselect
          cases hselect
          have hbid : entry.bid = slot := by simpa using List.find?_some hfind
          refine ⟨List.mem_of_find?_eq_some hfind, hbid, ?_, ?_, rfl, rfl, rfl⟩
          · change _ = d.uring.group.erase slot
            rw [← hgroup, List.erase_eq_eraseP, List.eraseP_map]
            refine congrArg (fun p ↦ (d.group.eraseP p).map Entry.bid) (funext fun b ↦ ?_)
            simp [eq_comm, beq_eq_decide]
          · intro b hb
            simp only [Uring.queue, hring] at hb
            rcases List.mem_append.mp hb with hb | hb
            · exact List.mem_append_left _ (List.mem_of_mem_eraseP hb)
            · exact List.mem_append_right _ hb
      | some ring =>
          rw [hring] at hselect hchoose
          cases hchoose
          dsimp only at hselect
          split_ifs at hselect with hhead
          cases hselect
          refine ⟨?_, hhead.2, hgroup, ?_, rfl, rfl, rfl⟩
          · dsimp only
            rw [RingMem.unread_eq_cons hhead.1]
            exact List.mem_cons_self
          · intro b hb
            simp only [Uring.queue, hring] at hb
            dsimp only
            rw [RingMem.unread_eq_cons hhead.1]
            exact List.mem_cons_of_mem _ hb

/-- A completion with a buffer: the kernel does not hold the buffer any more, and the completion
waits in the queue. -/
theorem Intact.select (h : d.Intact slots base size) {slot : ℕ} {result : ℤ} {flags : BitVec 32}
    {entry : Entry} {group : List Entry} {u : Uring} (hslot : bufferSelect flags = some slot)
    (hchoose : d.choose slot = some (entry, group))
    (hu : d.uring.next (.post ⟨.recv, result, flags⟩) = some u) {wire : List (List UInt8)}
    (haccount : (d.wire ++ wire).filter (·.length ≤ size) = d.wire.filter (·.length ≤ size) ++
      (d.driver.frameOf ⟨.recv, result, flags⟩).toList.map d.bytes)
    (hcut : wire.countP (size < ·.length) =
      [(⟨.recv, result, flags⟩ : Cqe)].countP d.driver.isCut) :
    Intact slots base size { d with uring := u, group := group, wire := d.wire ++ wire } := by
  obtain ⟨-, -, hgroup, hreach, hlive, hphase, hdriver⟩ := choose_spec h.group hslot hchoose hu
  set d' : Region := { d with uring := u, group := group, wire := d.wire ++ wire } with hd'
  have hlike : d.uring.driver.Like u.driver := by
    rw [hdriver]
    exact ⟨rfl, rfl, rfl, rfl⟩
  have hbytes : d'.bytes = d.bytes := bytes_of_like hlike rfl
  refine ⟨h.conserved_next hu, hlike.base.trans h.base_eq, hlike.stride.trans h.stride_eq,
    hlike.slotSize.trans h.slotSize_eq, hgroup, fun b hb ↦ h.placed b (hreach b hb),
    fun frame hframe hmem ↦ ?_, h.shown.trans hlive.symm, fun p hp ↦ ?_, fun halive ↦ ?_,
    fun halive ↦ ?_⟩
  · obtain ⟨b, hb, hslot⟩ := List.mem_map.mp hmem
    exact h.apart frame (hlive ▸ hframe) (hslot ▸ List.mem_map_of_mem (hreach b hb))
  · rw [hbytes]
    exact h.kept p hp
  · have hwaiting : d'.waiting = d.waiting ++
        (d.uring.driver.frameOf ⟨.recv, result, flags⟩).toList.map d.bytes := by
      unfold waiting
      rw [hbytes]
      unfold driver
      rw [hd']
      dsimp only
      rw [hlike.frameOf_eq, hdriver]
      dsimp only
      rw [List.filterMap_append, List.map_append]
      cases hframe : d.uring.driver.frameOf ⟨.recv, result, flags⟩ with
      | none => rw [List.filterMap_cons_none hframe]; rfl
      | some frame => rw [List.filterMap_cons_some hframe]; rfl
    rw [hwaiting, ← List.append_assoc]
    refine haccount.trans (congrArg (· ++ _) (h.account ?_))
    exact isAlive_of_next hu halive
  · have hbefore := h.cut (isAlive_of_next hu halive)
    unfold driver at hbefore hcut ⊢
    rw [hd']
    dsimp only
    rw [hlike.isCut_eq, hdriver]
    dsimp only
    rw [List.countP_append, List.countP_append, UInt64.ofNat_add, hbefore, hcut, UInt64.add_assoc,
      ← UInt64.ofNat_add]

theorem Intact.receive (h : d.Intact slots base size) {datagram : List UInt8} {flags : BitVec 32}
    (hnext : d.next (.receive datagram flags) = some d') : d'.Intact slots base size := by
  simp only [Region.next, Option.bind_eq_bind, Option.bind_eq_some_iff, Option.some.injEq] at hnext
  obtain ⟨slot, hslot, ⟨entry, group⟩, hchoose, u, hu, rfl⟩ := hnext
  obtain ⟨hentry, hbid, -⟩ := choose_spec h.group hslot hchoose hu
  have hplaced := h.placed entry (List.mem_append_left _ hentry)
  have hlen : entry.len = size := hplaced.2
  have hslotSize : d.driver.slotSize = size := h.slotSize_eq
  -- what the write leaves, then the step
  have hwrite : Intact slots base size
      { d with mem := d.mem.write (entry.addr + 0) (datagram.take entry.len) } :=
    h.write hentry (by rw [List.length_take]; omega)
  rw [Nat.add_zero] at hwrite
  refine @Intact.select _ slots base size hwrite slot datagram.length flags entry group u hslot
    hchoose hu [datagram] ?_ ?_
  · rw [List.filter_append]
    refine congrArg (d.wire.filter _ ++ ·) ?_
    change _ = (d.driver.frameOf ⟨.recv, datagram.length, flags⟩).toList.map _
    rw [UringDriver.frameOf_datagram hslot, hslotSize]
    split_ifs with hfits
    · rw [List.filter_cons_of_pos (by simpa using hfits), List.filter_nil, Option.toList_some,
        List.map_singleton]
      refine congrArg (fun bytes ↦ [bytes]) ?_
      have hread := Memory.read_write d.mem entry.addr (datagram.take entry.len)
      rw [List.take_of_length_le (hfits.trans hlen.ge)] at hread
      refine hread.symm.trans ?_
      rw [bytes_eq_read hwrite.base_eq hwrite.stride_eq]
      dsimp only [IndexFrame.start]
      rw [Nat.add_zero, hplaced.1, hbid, List.take_of_length_le (hfits.trans hlen.ge)]
    · rw [List.filter_cons_of_neg (by simpa using hfits)]
      rfl
  · change _ = [(⟨.recv, datagram.length, flags⟩ : Cqe)].countP d.driver.isCut
    rw [List.countP_singleton, List.countP_singleton, UringDriver.isCut_datagram hslot, hslotSize]

/-- The slot of a failed receive is lost; no frame and no byte of another slot changes. -/
theorem Intact.fail (h : d.Intact slots base size) {result : ℤ} {flags : BitVec 32}
    (hnext : d.next (.fail result flags) = some d') : d'.Intact slots base size := by
  simp only [Region.next] at hnext
  split_ifs at hnext with hneg
  simp only [Option.bind_eq_bind, Option.bind_eq_some_iff, Option.some.injEq] at hnext
  obtain ⟨slot, hslot, ⟨entry, group⟩, hchoose, u, hu, rfl⟩ := hnext
  have hnone : d.driver.frameOf ⟨.recv, result, flags⟩ = none ∧
      d.driver.isCut ⟨.recv, result, flags⟩ = false := by
    unfold UringDriver.frameOf UringDriver.isCut
    rw [if_pos rfl, if_pos rfl, classify_of_neg hneg]
    split_ifs
    · exact ⟨rfl, rfl⟩
    · exact ⟨rfl, rfl⟩
  have hselect := @Intact.select _ slots base size h slot result flags entry group u hslot hchoose
    hu [] (by rw [hnone.1, List.append_nil]; exact (List.append_nil _).symm)
    (by rw [List.countP_singleton, hnone.2]; rfl)
  rwa [List.append_nil] at hselect

theorem Intact.next (h : d.Intact slots base size) {ev : Event} (hnext : d.next ev = some d') :
    d'.Intact slots base size := by
  cases ev with
  | receive datagram flags => exact h.receive hnext
  | fail result flags => exact h.fail hnext
  | scribble entry offset bytes =>
      simp only [Region.next] at hnext
      split_ifs at hnext with hwrite
      cases hnext
      exact h.write hwrite.1 hwrite.2
  | poll cap => exact h.poll hnext
  | drop i => exact h.drop hnext
  | take => exact h.take hnext
  | step ev => exact h.step hnext

theorem Intact.start (cfg : ValidConfig) (path : RecvPath) (skipSuccess : Bool) (base : ℕ)
    (mem : Memory) :
    Intact cfg.1.slots base cfg.1.slotSize (.start cfg path skipSuccess base mem) := by
  have hconserved := Uring.Conserved.start cfg path skipSuccess base
  have hholds : (Region.start cfg path skipSuccess base mem).buffers = [] := by
    cases path with
    | legacy => rfl
    | bufRing | multishot => exact RingMem.unread_eq_nil_iff.mpr rfl
  have hreach : (Region.start cfg path skipSuccess base mem).reach = [] := by
    rw [reach, hholds]
    rfl
  refine ⟨fun _ ↦ ⟨[], hconserved⟩, rfl, rfl, rfl, rfl, ?_, ?_, rfl, ?_, fun _ ↦ rfl, fun _ ↦ rfl⟩
  · rw [hreach]
    exact fun _ h ↦ absurd h List.not_mem_nil
  · exact fun _ h ↦ absurd h List.not_mem_nil
  · exact fun _ h ↦ absurd h List.not_mem_nil

/-! ## A whole call -/

/-- `refill` as steps with nothing in between. -/
theorem follow_refill (u : Uring) {completed : Except Io ℕ}
    (hphase : u.phase = .refilling (some completed)) (answers : UringDriver.Answers) :
    ∃ evs, (∀ ev ∈ evs, plain ev = true) ∧ Machine.follow Uring.next u evs =
      some
        { u with
          driver := (u.driver.refill answers).2
          phase := .idle (some ((u.driver.refill answers).2.polled completed
            (u.driver.refill answers).1)) } := by
  unfold UringDriver.refill
  rcases hgive : u.driver.giveBack answers.provides with ⟨_ | _, driver₁⟩
  · refine ⟨[.giveBack answers.provides], by simp [plain], ?_⟩
    simp only [Machine.follow, Uring.next, hphase, hgive, Uring.proceed, Uring.finish,
      Option.bind_some]
  · dsimp only
    rcases harm : driver₁.arm answers.recvs with ⟨_ | _, driver₂⟩
    · refine ⟨[.giveBack answers.provides, .arm answers.recvs], by simp [plain], ?_⟩
      simp only [Machine.follow, Uring.next, hphase, hgive, harm, Uring.proceed, Uring.finish,
        Option.bind_some]
    · refine ⟨[.giveBack answers.provides, .arm answers.recvs,
        .submit answers.cqOverflow answers.submitted], by simp [plain], ?_⟩
      simp only [Machine.follow, Uring.next, hphase, hgive, harm, Uring.proceed, Uring.finish,
        Uring.submit, Option.bind_some]

theorem follow_steps {evs : List Uring.Event} (hplain : ∀ ev ∈ evs, plain ev = true) :
    ∀ {d : Region} {u : Uring}, Machine.follow Uring.next d.uring evs = some u →
      Machine.follow next d (evs.map .step) = some { d with uring := u } := by
  induction evs with
  | nil =>
      rintro d u ⟨⟩
      rfl
  | cons ev evs ih =>
      intro d u hfollow
      obtain ⟨hev, hevs⟩ := List.forall_mem_cons.mp hplain
      obtain ⟨u₁, hu₁, hrest⟩ := Option.bind_eq_some_iff.mp hfollow
      refine Option.bind_eq_some_iff.mpr ⟨{ d with uring := u₁ }, ?_, ih hevs hrest⟩
      simp only [next, hev, if_true, hu₁, Option.map_some]

/-- One call with nothing in between. -/
theorem run_pollFrames (d : Region) {returned : Option (Except Io Polled)}
    (hphase : d.uring.phase = .idle returned) (cap : ℕ) (answers : UringDriver.Answers) :
    ∃ d', machine.Run (fun _ _ ↦ True) d d' ∧ d'.wire = d.wire ∧
      d'.driver = (d.driver.pollFrames ⟨[], cap⟩ answers).2.1 ∧
      d'.uring.phase = .idle (some (d.driver.pollFrames ⟨[], cap⟩ answers).1) ∧
      d'.handed = d.handed ++ (d.driver.pollFrames ⟨[], cap⟩ answers).2.2.frames.map d.bytes := by
  unfold UringDriver.pollFrames driver
  rcases hcomplete : d.uring.driver.drainFreed.complete ⟨[], cap⟩ with ⟨completed, driver₁, out⟩
  dsimp only
  obtain ⟨evs, hplain, hfollow⟩ := follow_refill
    { d.uring with
      driver := driver₁
      live := d.uring.live ++ out.frames
      phase := .refilling (some completed) } rfl answers
  have hfirst : d.next (.poll cap) = some
      { d with
        uring := { d.uring with
          driver := driver₁
          live := d.uring.live ++ out.frames
          phase := .refilling (some completed) }
        shown := d.shown ++ out.frames.map fun frame ↦ (frame, d.bytes frame)
        handed := d.handed ++ out.frames.map d.bytes } := by
    simp only [next, Uring.next, hphase, hcomplete, Option.bind_eq_bind, Option.bind_some,
      List.drop_left]
  have hrest := @follow_steps evs hplain
    { d with
      uring := { d.uring with
        driver := driver₁
        live := d.uring.live ++ out.frames
        phase := .refilling (some completed) }
      shown := d.shown ++ out.frames.map fun frame ↦ (frame, d.bytes frame)
      handed := d.handed ++ out.frames.map d.bytes } _ hfollow
  refine ⟨_, .trans (.single trivial hfirst) (.of_follow ?_ hrest), rfl, rfl, rfl, rfl⟩
  exact Machine.allowedAlong_of_forall (fun _ _ ↦ trivial) _ _

/-- A call that succeeds and leaves room has handed out everything in the queue. -/
theorem Intact.drained (h : d.Intact slots base size) (halive : d.uring.phase.isAlive = true)
    {cap : ℕ} {answers : UringDriver.Answers} {polled : Polled}
    (hok : (d.driver.pollFrames ⟨[], cap⟩ answers).1 = .ok polled)
    (hshort : (d.driver.pollFrames ⟨[], cap⟩ answers).2.2.frames.length < cap) :
    d.wire.filter (·.length ≤ size) =
      d.handed ++ (d.driver.pollFrames ⟨[], cap⟩ answers).2.2.frames.map d.bytes := by
  have hlike : d.driver.Like d.driver.drainFreed := ⟨rfl, rfl, rfl, rfl⟩
  obtain ⟨taken, hreads⟩ := d.driver.drainFreed.complete_reads ⟨[], cap⟩
  have hempty := @UringDriver.cq_complete_eq_nil d.driver.drainFreed ⟨[], cap⟩
  unfold UringDriver.pollFrames at hok hshort ⊢
  generalize d.driver.drainFreed.complete ⟨[], cap⟩ = result at hreads hempty hok hshort ⊢
  obtain ⟨completed, driver₁, out⟩ := result
  dsimp only at hreads hempty hok hshort ⊢
  have hcompleted : ∃ n, completed = .ok n := by
    cases completed with
    | error e => cases hok
    | ok n => exact ⟨n, rfl⟩
  obtain ⟨n, hcompleted⟩ := hcompleted
  have hcap : out.cap = cap := congrArg FrameBatch.cap hreads.out_eq
  have hcq := hreads.cq
  rw [hempty hcompleted (by unfold FrameBatch.spare; omega), List.append_nil] at hcq
  have hframes : out.frames = d.driver.cq.filterMap d.driver.frameOf := by
    rw [hreads.out_eq, hlike.frameOf_eq, ← hcq]
    rfl
  rw [h.account halive, waiting, hframes]

end Region

/-! ## Runs -/

namespace Region

variable {d : Region} {cfg : ValidConfig} {path : RecvPath} {skipSuccess : Bool} {base : ℕ}
  {mem : Memory}

theorem intact_of_run
    (hrun : machine.Run (fun _ _ ↦ True) (start cfg path skipSuccess base mem) d) :
    d.Intact cfg.1.slots base cfg.1.slotSize :=
  hrun.invariant (I := Intact cfg.1.slots base cfg.1.slotSize)
    (.start cfg path skipSuccess base mem) fun _ _ _ h _ hnext ↦ h.next hnext

/-- A frame reads as it did when it was pushed for as long as the caller has it, on every path,
whatever the kernel writes, also when a receive fails in a buffer of its own, and while the driver
is torn down and after it. -/
theorem shown_bytes_kept
    (hrun : machine.Run (fun _ _ ↦ True) (start cfg path skipSuccess base mem) d) :
    d.shown.map Prod.fst = d.uring.live ∧ ∀ p ∈ d.shown, d.bytes p.1 = p.2 :=
  ⟨(intact_of_run hrun).shown, fun p hp ↦ ((intact_of_run hrun).kept p hp).2⟩

/-- A frame on the multishot path while the kernel writes to the other slot, the receive fails
there and the driver goes away. -/
theorem shown_bytes_kept_torn_down : ∃ d,
    machine.Run (fun _ _ ↦ True) (start Uring.sampleConfig .multishot true 4096 ⟨fun _ ↦ 0⟩) d ∧
    d.uring.phase = .dropped true ∧ d.mem.read 4160 2 = [9, 8] ∧
    ∃ p ∈ d.shown, d.bytes p.1 = [1, 2, 3] := by
  have hend : ∃ d ∈ Machine.follow next (start Uring.sampleConfig .multishot true 4096 ⟨fun _ ↦ 0⟩)
      [.step (.giveBack []), .step (.arm []), .step (.submit false none), .take,
        .receive [1, 2, 3] 3, .poll 4, .step (.giveBack []), .step (.arm []),
        .step (.submit false none), .scribble ⟨4160, 64, 1⟩ 0 [9, 9], .step .teardown,
        .step (.cancel true .fits none), .scribble ⟨4160, 64, 1⟩ 1 [8],
        .fail (-125) 0x10001, .step .reap, .step (.cancel true .fits none)],
      d.uring.phase = .dropped true ∧ d.mem.read 4160 2 = [9, 8] ∧
      ∃ p ∈ d.shown, p.2 = [1, 2, 3] := by
    decide +kernel
  obtain ⟨d, hd, hphase, hscribbled, p, hp, hshown⟩ := hend
  have hrun : machine.Run (fun _ _ ↦ True) _ d :=
    .of_follow (Machine.allowedAlong_of_forall (fun _ _ ↦ trivial) _ _) hd
  exact ⟨d, hrun, hphase, hscribbled, p, hp, ((shown_bytes_kept hrun).2 p hp).trans hshown⟩

/-- While the driver lives: the datagrams that fit a slot are those handed out and those in the
completion queue, in the order they came and with their bytes; the others are counted modulo
`2 ^ 64`.  The driver's call hands out its frames with their bytes, and one that succeeds and
leaves room in its batch has handed out all that came before it. -/
theorem datagrams_accounted
    (hrun : machine.Run (fun _ _ ↦ True) (start cfg path skipSuccess base mem) d)
    (halive : d.uring.phase.isAlive = true) :
    d.wire.filter (·.length ≤ cfg.1.slotSize.1) = d.handed ++ d.waiting ∧
    UInt64.ofNat (d.wire.countP (cfg.1.slotSize.1 < ·.length)) =
      d.driver.stats.truncated + UInt64.ofNat (d.driver.cq.countP d.driver.isCut) ∧
    ∀ returned cap answers result driver out, d.uring.phase = .idle returned →
      d.driver.pollFrames ⟨[], cap⟩ answers = (result, driver, out) →
      ∃ d', machine.Run (fun _ _ ↦ True) d d' ∧ d'.wire = d.wire ∧ d'.driver = driver ∧
        d'.uring.phase = .idle (some result) ∧ d'.handed = d.handed ++ out.frames.map d.bytes ∧
        ∀ polled, result = .ok polled → out.frames.length < cap →
          d'.wire.filter (·.length ≤ cfg.1.slotSize.1) = d'.handed := by
  have h := intact_of_run hrun
  refine ⟨h.account halive, h.cut halive,
    fun returned cap answers result driver out hphase hpoll ↦ ?_⟩
  obtain ⟨d', hcall, hwire, hdriver, hphase', hhanded⟩ := d.run_pollFrames hphase cap answers
  have hdrained := @Intact.drained _ _ _ _ h halive cap answers
  rw [hpoll] at hdriver hphase' hhanded hdrained
  refine ⟨d', hcall, hwire, hdriver, hphase', hhanded, fun polled hok hshort ↦ ?_⟩
  rw [hwire, hhanded]
  exact hdrained hok hshort

/-- One datagram handed out and dropped, one too long for its slot, one in its place. -/
theorem datagrams_accounted_cut : ∃ d d',
    machine.Run (fun _ _ ↦ True) (start Uring.sampleConfig .legacy true 4096 ⟨fun _ ↦ 0⟩) d ∧
    d.handed = [[1, 2, 3]] ∧ d.waiting = [[7]] ∧
    UInt64.ofNat (d.wire.countP (64 < ·.length)) = 1 ∧
    machine.Run (fun _ _ ↦ True) d d' ∧ d'.handed = [[1, 2, 3], [7]] := by
  have hend : ∃ d ∈ Machine.follow next (start Uring.sampleConfig .legacy true 4096 ⟨fun _ ↦ 0⟩)
      [.step (.giveBack []), .step (.arm []), .step (.submit false none), .take, .take, .take,
        .receive [1, 2, 3] 0x10001, .receive (List.replicate 65 5) 1, .poll 4,
        .step (.giveBack []), .step (.arm []), .step (.submit false none), .drop 0, .take, .take,
        .take, .receive [7] 1],
      d.uring.phase = .idle (some (.ok (.frames 1))) ∧ d.handed = [[1, 2, 3]] ∧
      d.wire.filter (·.length ≤ 64) = [[1, 2, 3], [7]] ∧
      d.driver.stats.truncated = 1 ∧ d.driver.cq.countP d.driver.isCut = 0 ∧
      (d.driver.pollFrames ⟨[], 4⟩ ⟨[], [], false, none⟩).1 = .ok (.frames 1) ∧
      (d.driver.pollFrames ⟨[], 4⟩ ⟨[], [], false, none⟩).2.2.frames.length < 4 := by
    decide +kernel
  obtain ⟨d, hd, hphase, hhanded, hwire, htruncated, hcut, hok, hshort⟩ := hend
  have hrun : machine.Run (fun _ _ ↦ True) _ d :=
    .of_follow (Machine.allowedAlong_of_forall (fun _ _ ↦ trivial) _ _) hd
  have halive : d.uring.phase.isAlive = true := by
    rw [hphase]
    rfl
  obtain ⟨haccount, hcount, hcall⟩ := datagrams_accounted hrun halive
  obtain ⟨d', hrun', hwire', -, -, -, hall⟩ := hcall _ 4 _ _ _ _ hphase rfl
  refine ⟨d, d', hrun, hhanded, ?_, ?_, hrun', ?_⟩
  · have hfits := haccount.symm.trans hwire
    rw [hhanded] at hfits
    exact (List.cons.inj hfits).2
  · exact hcount.trans (by rw [htruncated, hcut]; rfl)
  · rw [← hall _ hok hshort, hwire']
    exact hwire

end Region

end IoUring
