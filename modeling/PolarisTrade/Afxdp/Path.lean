import PolarisTrade.Afxdp.Program
import PolarisTrade.Afxdp.Slots
import PolarisTrade.Decap.Queue
import PolarisTrade.Lib.Memory

/-!
# From the wire to the datagram

The redirect program, the kernel's half of the rings, the driver over its region and the
decapsulation in front of it as one system.  The kernel writes to chunks it holds and to no
others, at any time; decapsulation reads the region when it gets to a frame, which may be long
after the frame was pushed.  What is delivered is what came in.
-/

namespace Afxdp

open Transport

/-- The receive path with the region, the frames that came in while a chunk was there for them
and the payloads handed out. -/
structure Path where
  decap : UdpDecap Xsk IndexFrame
  mem : Memory
  wire : List (List UInt8)
  delivered : List (List UInt8 × Ipv4Addr × ℕ)

/-- The program of the socket's queue sends the frame to the socket. -/
def redirected (mapFd queue : BitVec 32) (frame : List UInt8) : Bool :=
  match Ebpf.runBytes (xdpEnv frame queue 4) (instructions mapFd) insns with
  | some (_, [(helper, _)]) => helper = fnRedirectMap
  | _ => false

/-- The slot goes to the freed list with the frame, wherever among the live ones it is. -/
def Xsk.release (xsk : Xsk) (frame : IndexFrame) : Xsk :=
  { xsk with
    pool := xsk.pool.dropFrame frame
    live := xsk.live.eraseP fun p ↦ p.2.slot = frame.slot }

/-- The bytes of a frame, in a region of chunks of `size` bytes. -/
def frameBytes (mem : Memory) (size : ℕ) (frame : IndexFrame) : List UInt8 :=
  mem.read (frame.start size) frame.len

def descBytes (mem : Memory) (desc : XdpDesc) : List UInt8 := mem.read desc.addr desc.len

namespace Path

def xsk (d : Path) : Xsk := d.decap.inner

def frameSize (d : Path) : ℕ := d.xsk.rings.frameSize

/-- The bytes of a frame as the region has them now. -/
def bytes (d : Path) : IndexFrame → List UInt8 := frameBytes d.mem d.frameSize

@[reducible] def asRef (d : Path) : AsRef IndexFrame := ⟨d.bytes⟩

inductive Event
  /-- a frame comes in; the kernel puts it where the descriptor says -/
  | receive (frame : List UInt8) (desc : XdpDesc)
  /-- a descriptor that runs over the end of its chunk -/
  | overrun (desc : XdpDesc)
  /-- the kernel writes to a chunk it holds -/
  | scribble (addr : ℕ) (bytes : List UInt8)
  | take
  | refill
  | poll
  | turn
  | deliver (cap : ℕ)
  /-- the caller drops a frame it was given -/
  | drop (i : ℕ)

/-- The range ends in the chunk it begins in, and the kernel holds that chunk. -/
def Writable (d : Path) (addr len : ℕ) : Prop :=
  addr / d.frameSize ∈ d.xsk.kernel ∧ addr % d.frameSize + len ≤ d.frameSize

instance (d : Path) (addr len : ℕ) : Decidable (d.Writable addr len) :=
  inferInstanceAs (Decidable (_ ∧ _))

/-- A step of the driver. -/
def step (d : Path) (ev : Xsk.Event) : Option Path :=
  (d.xsk.next ev).map fun xsk ↦ { d with decap.inner := xsk }

/-- `deliver`; a frame that is filtered is dropped there. -/
def deliver (d : Path) (cap : ℕ) : Path :=
  let _ := d.asRef
  let (_, decap, out) := d.decap.deliver ⟨[], cap⟩
  let taken := d.decap.pending.take (d.decap.pending.length - decap.pending.length)
  let filtered := taken.filter fun frame ↦ (d.decap.accept frame).isNone
  { d with
    decap := { decap with inner := filtered.foldl Xsk.release d.xsk }
    delivered := d.delivered ++ out.frames.map fun frame ↦ (AsRef.asRef frame, frame.peer) }

def next (mapFd queue : BitVec 32) (d : Path) : Event → Option Path
  | .receive frame desc =>
      if redirected mapFd queue frame then
        if d.Writable desc.addr frame.length ∧ desc.len = frame.length then
          ({ d with mem := d.mem.write desc.addr frame, wire := d.wire ++ [frame] } : Path).step
            (.publish desc)
        else none
      else some { d with wire := d.wire ++ [frame] }
  | .overrun desc => if desc.Inside d.frameSize then none else d.step (.publish desc)
  | .scribble addr bytes =>
      if d.Writable addr bytes.length then some { d with mem := d.mem.write addr bytes } else none
  | .take => d.step .take
  | .refill => d.step .refill
  -- the source is read only when nothing waits to be delivered
  | .poll => if d.decap.pending = [] then d.step (.poll d.decap.collected.cap) else none
  | .turn => do
      let d' ← d.step .turn
      let pushed := (d'.xsk.live.drop d.xsk.live.length).map Prod.snd
      some { d' with decap.pending := d.decap.pending ++ pushed }
  | .deliver cap => if d.xsk.polling.isNone then some (d.deliver cap) else none
  | .drop i =>
      if ∃ p ∈ d.xsk.live[i]?, p.2.slot ∉ d.decap.pending.map IndexFrame.slot then
        d.step (.drop i)
      else none

def machine (mapFd queue : BitVec 32) : Machine Path Event := .ofNext (next mapFd queue)

def start (fill : Ring ℕ) (rx : Ring XdpDesc) (frames frameSize : NonZeroU32) (mem : Memory)
    (dstPort : ℕ) (dstIp : Option Ipv4Addr) (burst : ℕ) : Path where
  decap := .new (.start fill rx frames frameSize) dstPort dstIp burst
  mem := mem
  wire := []
  delivered := []

/-! ## Where the kernel writes -/

variable {frames size : NonZeroU32} {d d' : Path} {fillQ : List ℕ} {rxQ : List XdpDesc}
  {mapFd queue : BitVec 32} {dstPort : ℕ} {dstIp : Option Ipv4Addr}

theorem redirected_iff {frame : List UInt8} :
    redirected mapFd queue frame = true ↔ Redirects frame := by
  unfold redirected
  rw [runBytes_instructions, verdict]
  split_ifs with h
  · simp [h]
  · simp [h]

/-- A write to one chunk leaves the ranges of the others alone. -/
theorem Writable.read_eq {addr slot start len : ℕ} {bytes : List UInt8}
    (h : d.Writable addr bytes.length) (hne : slot ≠ addr / d.frameSize)
    (hstart : slot * d.frameSize ≤ start) (hend : start + len ≤ (slot + 1) * d.frameSize) :
    (d.mem.write addr bytes).read start len = d.mem.read start len := by
  have haddr : addr / d.frameSize * d.frameSize + addr % d.frameSize = addr :=
    Nat.div_add_mod' _ _
  have hinside := h.2
  apply Memory.read_write_of_disjoint
  rcases Nat.lt_or_gt_of_ne hne with hlt | hlt
  · left
    have hbelow : (slot + 1) * d.frameSize ≤ addr / d.frameSize * d.frameSize :=
      Nat.mul_le_mul_right _ hlt
    omega
  · right
    have habove : (addr / d.frameSize + 1) * d.frameSize ≤ slot * d.frameSize :=
      Nat.mul_le_mul_right _ hlt
    rw [Nat.add_mul, Nat.one_mul] at habove
    omega

/-- A chunk the kernel holds is in no other place. -/
theorem conserved_apart {xsk : Xsk} {slot : ℕ} (h : Xsk.Conserved frames size xsk fillQ rxQ)
    (hslot : slot ∈ xsk.kernel) :
    (∀ p ∈ xsk.live, p.2.slot ≠ slot) ∧ ∀ desc ∈ rxQ, desc.slot size ≠ slot := by
  have hcount := h.count slot
  have hone := List.nodup_iff_count_le_one.mp (List.nodup_range (n := frames.1)) slot
  have hkernel := List.count_pos_iff.mpr hslot
  constructor
  · rintro p hp rfl
    have hframes : 0 < xsk.inFrames.count p.2.slot :=
      List.count_pos_iff.mpr (List.mem_map_of_mem hp)
    omega
  · rintro desc hdesc rfl
    have hring : 0 < (rxQ.map (·.slot size)).count (desc.slot size) :=
      List.count_pos_iff.mpr (List.mem_map_of_mem hdesc)
    omega

/-- What a datagram's frame carries to the caller. -/
def payload (dstPort : ℕ) (dstIp : Option Ipv4Addr) (frame : List UInt8) :
    Option (List UInt8 × Ipv4Addr × ℕ) :=
  match parseUdp frame dstPort dstIp with
  | .ok (range, peer) => some ((getRange frame range).getD [], peer)
  | .error _ => none

/-- What came in is what was consumed, what waits and what is in the ring, in this order and as
the region has it now; the datagrams in what was consumed are what was delivered. -/
def Accounted (mapFd queue : BitVec 32) (size dstPort : ℕ) (dstIp : Option Ipv4Addr)
    (wire : List (List UInt8)) (mem : Memory) (waiting : List IndexFrame) (ring : List XdpDesc)
    (delivered : List (List UInt8 × Ipv4Addr × ℕ)) : Prop :=
  ∃ consumed, wire.filter (redirected mapFd queue) =
    consumed ++ waiting.map (frameBytes mem size) ++
      (ring.filter (·.Inside size)).map (descBytes mem) ∧
    delivered = consumed.filterMap (payload dstPort dstIp)

structure Intact (mapFd queue : BitVec 32) (frames size : NonZeroU32) (dstPort : ℕ)
    (dstIp : Option Ipv4Addr) (d : Path) (fillQ : List ℕ) (rxQ : List XdpDesc) : Prop where
  conserved : Xsk.Conserved frames size d.xsk fillQ rxQ
  port : d.decap.dstPort = dstPort
  ip : d.decap.dstIp = dstIp
  /-- frames that wait are live -/
  waiting : ∀ frame ∈ d.decap.pending, frame ∈ d.xsk.live.map Prod.snd
  distinct : (d.decap.pending.map IndexFrame.slot).Nodup
  account : Accounted mapFd queue size dstPort dstIp d.wire d.mem d.decap.pending rxQ d.delivered

theorem Intact.frameSize_eq (h : d.Intact mapFd queue frames size dstPort dstIp fillQ rxQ) :
    d.frameSize = size.1 := congrArg Subtype.val h.conserved.frameSize_eq

/-- A step of the driver that leaves the live frames alone. -/
theorem Intact.inner (h : d.Intact mapFd queue frames size dstPort dstIp fillQ rxQ) {xsk : Xsk}
    {fillQ' : List ℕ} {rxQ' : List XdpDesc}
    (hconserved : Xsk.Conserved frames size xsk fillQ' rxQ') (hlive : xsk.live = d.xsk.live)
    (hring : rxQ'.filter (·.Inside size) = rxQ.filter (·.Inside size)) :
    Intact mapFd queue frames size dstPort dstIp { d with decap.inner := xsk } fillQ' rxQ' := by
  refine ⟨hconserved, h.port, h.ip, ?_, h.distinct, ?_⟩
  · intro frame hframe
    change frame ∈ xsk.live.map Prod.snd
    rw [hlive]
    exact h.waiting frame hframe
  · obtain ⟨consumed, hwire, hdelivered⟩ := h.account
    refine ⟨consumed, ?_, hdelivered⟩
    rw [hring]
    exact hwire

/-- Bytes of frames and of the ring survive a write of the kernel. -/
theorem Intact.reads (h : d.Intact mapFd queue frames size dstPort dstIp fillQ rxQ) {addr : ℕ}
    {bytes : List UInt8} (hwrite : d.Writable addr bytes.length) :
    (∀ p ∈ d.xsk.live,
      frameBytes (d.mem.write addr bytes) size p.2 = frameBytes d.mem size p.2) ∧
    ∀ desc ∈ rxQ.filter (·.Inside size),
      descBytes (d.mem.write addr bytes) desc = descBytes d.mem desc := by
  obtain ⟨hlive, hring⟩ := conserved_apart h.conserved hwrite.1
  -- a range inside a chunk the kernel does not hold
  have hread : ∀ {frame : IndexFrame} {desc : XdpDesc}, Xsk.Covers frames size desc frame →
      frame.slot ≠ addr / d.frameSize →
      (d.mem.write addr bytes).read desc.addr desc.len = d.mem.read desc.addr desc.len := by
    intro frame desc hcovers hne
    refine hwrite.read_eq hne ?_ ?_
    · rw [h.frameSize_eq]
      exact hcovers.le_start
    · rw [h.frameSize_eq]
      exact hcovers.end_le
  constructor
  · intro p hp
    have hcovers := h.conserved.covers p hp
    unfold frameBytes
    rw [hcovers.start_eq, hcovers.len_eq]
    exact hread hcovers (hlive p hp)
  · intro desc hdesc
    obtain ⟨hdesc, hinside⟩ := List.mem_filter.mp hdesc
    have hcovers := Xsk.covers_toFrame (h.conserved.slot_lt hdesc) (of_decide_eq_true hinside)
    exact hread hcovers (hring desc hdesc)

theorem Intact.write (h : d.Intact mapFd queue frames size dstPort dstIp fillQ rxQ) {addr : ℕ}
    {bytes : List UInt8} (hwrite : d.Writable addr bytes.length) :
    Intact mapFd queue frames size dstPort dstIp { d with mem := d.mem.write addr bytes }
      fillQ rxQ := by
  obtain ⟨hlive, hring⟩ := h.reads hwrite
  obtain ⟨consumed, hwire, hdelivered⟩ := h.account
  refine ⟨h.conserved, h.port, h.ip, h.waiting, h.distinct, consumed, ?_, hdelivered⟩
  rw [List.map_congr_left hring]
  refine hwire.trans (congrArg (consumed ++ · ++ _) (List.map_congr_left fun frame hframe ↦ ?_))
  obtain ⟨p, hp, rfl⟩ := List.mem_map.mp (h.waiting frame hframe)
  exact (hlive p hp).symm

/-! ## One step -/

theorem publish_conserved {xsk xsk' : Xsk} (h : Xsk.Conserved frames size xsk fillQ rxQ)
    {desc : XdpDesc} (hnext : xsk.next (.publish desc) = some xsk') :
    Xsk.Conserved frames size xsk' fillQ (rxQ ++ [desc]) ∧ xsk'.live = xsk.live := by
  simp only [Xsk.next] at hnext
  split at hnext
  · next hslot =>
      cases hnext
      exact ⟨h.publish hslot, rfl⟩
  · cases hnext

/-- The kernel publishes a descriptor for what it wrote. -/
theorem Intact.receive (h : d.Intact mapFd queue frames size dstPort dstIp fillQ rxQ)
    {frame : List UInt8} {desc : XdpDesc} (hredirected : redirected mapFd queue frame = true)
    (hwrite : d.Writable desc.addr frame.length) (hlen : desc.len = frame.length)
    (hstep : ({ d with mem := d.mem.write desc.addr frame, wire := d.wire ++ [frame] } : Path).step
      (.publish desc) = some d') :
    ∃ rxQ, d'.Intact mapFd queue frames size dstPort dstIp fillQ rxQ := by
  obtain ⟨xsk, hnext, rfl⟩ := Option.map_eq_some_iff.mp hstep
  obtain ⟨hconserved, hlive⟩ := publish_conserved h.conserved hnext
  have hinside : desc.Inside size := by
    have hfits := hwrite.2
    rw [h.frameSize_eq] at hfits
    rw [XdpDesc.Inside, hlen]
    exact hfits
  have hread : descBytes (d.mem.write desc.addr frame) desc = frame := by
    rw [descBytes, hlen]
    exact Memory.read_write _ _ _
  obtain ⟨consumed, hwire, hdelivered⟩ := (h.write hwrite).account
  refine ⟨rxQ ++ [desc], hconserved, h.port, h.ip, ?_, h.distinct, consumed, ?_, hdelivered⟩
  · intro frame' hframe'
    change frame' ∈ xsk.live.map Prod.snd
    rw [hlive]
    exact h.waiting frame' hframe'
  · change (d.wire ++ [frame]).filter _ = consumed ++ d.decap.pending.map _ ++ _
    rw [List.filter_append, List.filter_cons_of_pos hredirected, List.filter_nil,
      List.filter_append, List.filter_cons_of_pos (by simpa using hinside), List.filter_nil,
      List.map_append, ← List.append_assoc]
    exact congrArg₂ (· ++ ·) hwire (congrArg (fun bytes ↦ [bytes]) hread.symm)

/-- A frame the program passes goes to the kernel's stack. -/
theorem Intact.pass (h : d.Intact mapFd queue frames size dstPort dstIp fillQ rxQ)
    {frame : List UInt8} (hpassed : ¬ redirected mapFd queue frame = true) :
    Intact mapFd queue frames size dstPort dstIp { d with wire := d.wire ++ [frame] }
      fillQ rxQ := by
  obtain ⟨consumed, hwire, hdelivered⟩ := h.account
  refine ⟨h.conserved, h.port, h.ip, h.waiting, h.distinct, consumed, ?_, hdelivered⟩
  rw [List.filter_append, List.filter_cons_of_neg hpassed, List.filter_nil, List.append_nil]
  exact hwire

theorem Intact.overrun (h : d.Intact mapFd queue frames size dstPort dstIp fillQ rxQ)
    {desc : XdpDesc} (hover : ¬ desc.Inside d.frameSize)
    (hstep : d.step (.publish desc) = some d') :
    ∃ rxQ, d'.Intact mapFd queue frames size dstPort dstIp fillQ rxQ := by
  obtain ⟨xsk, hnext, rfl⟩ := Option.map_eq_some_iff.mp hstep
  obtain ⟨hconserved, hlive⟩ := publish_conserved h.conserved hnext
  rw [h.frameSize_eq] at hover
  refine ⟨_, h.inner hconserved hlive ?_⟩
  rw [List.filter_append, List.filter_cons_of_neg (by simpa using hover), List.filter_nil,
    List.append_nil]

theorem Intact.take (h : d.Intact mapFd queue frames size dstPort dstIp fillQ rxQ)
    (hstep : d.step .take = some d') :
    ∃ fillQ, d'.Intact mapFd queue frames size dstPort dstIp fillQ rxQ := by
  obtain ⟨xsk, hnext, rfl⟩ := Option.map_eq_some_iff.mp hstep
  simp only [Xsk.next] at hnext
  split at hnext
  · cases hnext
  · next hne =>
      cases hnext
      cases fillQ with
      | nil => exact (hne h.conserved.fill_holds.consumer_eq_of_nil).elim
      | cons addr fillQ => exact ⟨fillQ, h.inner h.conserved.take rfl rfl⟩

theorem Intact.refill (h : d.Intact mapFd queue frames size dstPort dstIp fillQ rxQ)
    (hstep : d.step .refill = some d') :
    ∃ fillQ, d'.Intact mapFd queue frames size dstPort dstIp fillQ rxQ := by
  obtain ⟨xsk, hnext, rfl⟩ := Option.map_eq_some_iff.mp hstep
  simp only [Xsk.next] at hnext
  split at hnext
  · cases hnext
    exact ⟨_, h.inner h.conserved.refill rfl rfl⟩
  · cases hnext

theorem Intact.poll (h : d.Intact mapFd queue frames size dstPort dstIp fillQ rxQ) {cap : ℕ}
    (hstep : d.step (.poll cap) = some d') :
    d'.Intact mapFd queue frames size dstPort dstIp fillQ rxQ := by
  obtain ⟨xsk, hnext, rfl⟩ := Option.map_eq_some_iff.mp hstep
  simp only [Xsk.next] at hnext
  split at hnext
  · cases hnext
    exact h.inner (h.conserved.poll _) rfl rfl
  · cases hnext

/-- A turn of `pollFrames`: the first entries of the ring, those inside their chunks pushed. -/
theorem turn_conserved {xsk xsk' : Xsk} (h : Xsk.Conserved frames size xsk fillQ rxQ)
    (hnext : xsk.next .turn = some xsk') : ∃ k, Xsk.Conserved frames size xsk' fillQ (rxQ.drop k) ∧
      xsk'.live = xsk.live ++ ((rxQ.take k).filter (·.Inside size)).map
        fun desc ↦ (desc, desc.toFrame size) := by
  simp only [Xsk.next] at hnext
  split at hnext
  · next out pushed _ =>
      cases hnext
      refine ⟨(Rings.room out).toNat, h.turn out pushed, ?_⟩
      have htaken := (Consumer.consume_holds h.rx_holds h.rx_cons (Rings.room out)).1
      obtain ⟨-, hlive⟩ := @Xsk.turn_eq xsk out _ _ (Prod.ext htaken rfl) (fun desc hdesc ↦ by
        rw [h.frameSize_eq, h.frames_eq]
        exact h.slot_lt (List.mem_of_mem_take hdesc)) pushed
      rw [h.frameSize_eq] at hlive
      exact hlive
  · cases hnext

/-- Slots of live frames and of the ring are all different. -/
theorem conserved_distinct {xsk : Xsk} (h : Xsk.Conserved frames size xsk fillQ rxQ) :
    (xsk.live.map (·.2.slot) ++ rxQ.map (·.slot size)).Nodup := by
  refine List.nodup_iff_count_le_one.mpr fun slot ↦ ?_
  have hcount := h.count slot
  have hone := List.nodup_iff_count_le_one.mp (@List.nodup_range frames.1) slot
  simp only [List.count_append, Xsk.inFrames] at hcount ⊢
  omega

/-- What waits and what comes from the ring has slots of its own. -/
theorem Intact.distinct_append (h : d.Intact mapFd queue frames size dstPort dstIp fillQ rxQ)
    {descs : List XdpDesc} (hsub : descs.Sublist rxQ) :
    ((d.decap.pending ++ descs.map (·.toFrame size)).map IndexFrame.slot).Nodup := by
  have hall := List.nodup_append'.mp (conserved_distinct h.conserved)
  rw [List.map_append, List.map_map]
  refine List.nodup_append'.mpr ⟨h.distinct, hall.2.1.sublist (hsub.map _), ?_⟩
  intro slot hold hnew
  obtain ⟨frame, hframe, rfl⟩ := List.mem_map.mp hold
  obtain ⟨desc, hdesc, hslot⟩ := List.mem_map.mp hnew
  obtain ⟨p, hp, rfl⟩ := List.mem_map.mp (h.waiting frame hframe)
  refine hall.2.2 (List.mem_map_of_mem hp) ?_
  rw [← hslot]
  exact List.mem_map_of_mem (hsub.subset hdesc)

/-- A frame of the ring reads as its descriptor does. -/
theorem frameBytes_toFrame {mem : Memory} {desc : XdpDesc} :
    frameBytes mem size (desc.toFrame size) = descBytes mem desc := by
  have haddr : desc.addr / size.1 * size.1 + desc.addr % size.1 = desc.addr :=
    Nat.div_add_mod' _ _
  exact congrArg (mem.read · desc.len) haddr

theorem Intact.turn (h : d.Intact mapFd queue frames size dstPort dstIp fillQ rxQ)
    (hnext : d.next mapFd queue .turn = some d') :
    ∃ rxQ, d'.Intact mapFd queue frames size dstPort dstIp fillQ rxQ := by
  simp only [Path.next, Option.bind_eq_bind, Option.bind_eq_some_iff, Option.some.injEq] at hnext
  obtain ⟨d₁, hstep, rfl⟩ := hnext
  obtain ⟨xsk, hnext, rfl⟩ := Option.map_eq_some_iff.mp hstep
  obtain ⟨k, hconserved, hlive⟩ := turn_conserved h.conserved hnext
  obtain ⟨consumed, hwire, hdelivered⟩ := h.account
  set taken := (rxQ.take k).filter (·.Inside size) with htaken
  have hpushed : (xsk.live.drop d.xsk.live.length).map Prod.snd = taken.map (·.toFrame size) := by
    rw [hlive, List.drop_left, List.map_map]
    rfl
  refine ⟨rxQ.drop k, hconserved, h.port, h.ip, ?_, ?_, consumed, ?_, hdelivered⟩
  · change ∀ frame ∈ d.decap.pending ++ (xsk.live.drop d.xsk.live.length).map Prod.snd,
      frame ∈ xsk.live.map Prod.snd
    intro frame hframe
    rcases List.mem_append.mp hframe with hold | hnew
    · rw [hlive, List.map_append]
      exact List.mem_append_left _ (h.waiting frame hold)
    · exact ((List.drop_sublist _ _).map _).subset hnew
  · change ((d.decap.pending ++ (xsk.live.drop d.xsk.live.length).map Prod.snd).map _).Nodup
    rw [hpushed]
    exact h.distinct_append (List.filter_sublist.trans (List.take_sublist _ _))
  · change d.wire.filter _ = consumed ++
      (d.decap.pending ++ (xsk.live.drop d.xsk.live.length).map Prod.snd).map _ ++ _
    have hring : rxQ.filter (·.Inside size) = taken ++ (rxQ.drop k).filter (·.Inside size) := by
      rw [htaken, ← List.filter_append, List.take_append_drop]
    have hread : (taken.map (·.toFrame size.1)).map (frameBytes d.mem size) =
        taken.map (descBytes d.mem) := by
      rw [List.map_map]
      exact List.map_congr_left fun desc _ ↦ frameBytes_toFrame
    rw [hwire, hring, hpushed, List.map_append, List.map_append, hread]
    simp only [List.append_assoc]

/-! ## Giving frames back -/

theorem mem_eraseIdx_of_ne {live : List (XdpDesc × IndexFrame)} {i : ℕ}
    {p q : XdpDesc × IndexFrame} (hi : live[i]? = some p) (hq : q ∈ live) (hne : q ≠ p) :
    q ∈ live.eraseIdx i := by
  obtain ⟨hlt, rfl⟩ := List.getElem?_eq_some_iff.mp hi
  exact (List.mem_cons.mp ((List.getElem_cons_eraseIdx_perm hlt).mem_iff.mpr hq)).resolve_left hne

theorem Intact.drop (h : d.Intact mapFd queue frames size dstPort dstIp fillQ rxQ) {i : ℕ}
    (hnext : d.next mapFd queue (.drop i) = some d') :
    d'.Intact mapFd queue frames size dstPort dstIp fillQ rxQ := by
  simp only [Path.next] at hnext
  split at hnext
  · next hguard =>
      obtain ⟨⟨desc, frame⟩, hi, hfree⟩ := hguard
      obtain ⟨xsk, hdrop, rfl⟩ := Option.map_eq_some_iff.mp hnext
      have hi : d.xsk.live[i]? = some (desc, frame) := hi
      simp only [Xsk.next, hi] at hdrop
      cases hdrop
      refine ⟨h.conserved.drop hi, h.port, h.ip, fun frame' hframe' ↦ ?_, h.distinct, h.account⟩
      obtain ⟨q, hq, rfl⟩ := List.mem_map.mp (h.waiting frame' hframe')
      refine List.mem_map_of_mem (mem_eraseIdx_of_ne hi hq ?_)
      rintro rfl
      exact hfree (List.mem_map_of_mem hframe')
  · cases hnext

/-- One frame given back: its slot is freed, the frames of other slots stay live. -/
theorem release_conserved {xsk : Xsk} {frame : IndexFrame}
    (h : Xsk.Conserved frames size xsk fillQ rxQ) (hframe : frame ∈ xsk.live.map Prod.snd) :
    Xsk.Conserved frames size (xsk.release frame) fillQ rxQ ∧
      ∀ p ∈ xsk.live, p.2.slot ≠ frame.slot → p ∈ (xsk.release frame).live := by
  obtain ⟨p, hp, rfl⟩ := List.mem_map.mp hframe
  have hfound : (xsk.live.findIdx? fun q ↦ decide (q.2.slot = p.2.slot)).isSome := by
    rw [List.findIdx?_isSome]
    exact List.any_eq_true.mpr ⟨p, hp, decide_eq_true rfl⟩
  obtain ⟨i, hi⟩ := Option.isSome_iff_exists.mp hfound
  have herase : (xsk.release p.2).live = xsk.live.eraseIdx i := by
    rw [Xsk.release, List.eraseP_eq_eraseIdx, hi]
  obtain ⟨hlt, hslot, -⟩ := List.findIdx?_eq_some_iff_getElem.mp hi
  have hslot : (xsk.live[i]).2.slot = p.2.slot := of_decide_eq_true hslot
  have hget : xsk.live[i]? = some ((xsk.live[i]).1, (xsk.live[i]).2) := List.getElem?_eq_getElem hlt
  constructor
  · have hdrop := h.drop hget
    have heq : xsk.release p.2 = { xsk with
        pool := xsk.pool.dropFrame (xsk.live[i]).2, live := xsk.live.eraseIdx i } := by
      rw [← herase, Xsk.release, IndexPool.dropFrame, IndexPool.dropFrame, hslot]
    rw [heq]
    exact hdrop
  · intro q hq hne
    rw [herase]
    refine mem_eraseIdx_of_ne hget hq ?_
    rintro rfl
    exact hne hslot

theorem releases_conserved {filtered : List IndexFrame} : ∀ {xsk : Xsk},
    Xsk.Conserved frames size xsk fillQ rxQ →
    (∀ frame ∈ filtered, frame ∈ xsk.live.map Prod.snd) →
    (filtered.map IndexFrame.slot).Nodup →
    Xsk.Conserved frames size (filtered.foldl Xsk.release xsk) fillQ rxQ ∧
      ∀ p ∈ xsk.live, p.2.slot ∉ filtered.map IndexFrame.slot →
        p ∈ (filtered.foldl Xsk.release xsk).live := by
  induction filtered with
  | nil => exact fun h _ _ ↦ ⟨h, fun p hp _ ↦ hp⟩
  | cons frame filtered ih =>
      intro xsk h hlive hnodup
      obtain ⟨hfirst, hlive⟩ := List.forall_mem_cons.mp hlive
      rw [List.map_cons, List.nodup_cons] at hnodup
      obtain ⟨h₁, hkept⟩ := release_conserved h hfirst
      have hlive₁ : ∀ frame' ∈ filtered, frame' ∈ (xsk.release frame).live.map Prod.snd := by
        intro frame' hframe'
        obtain ⟨p, hp, rfl⟩ := List.mem_map.mp (hlive frame' hframe')
        refine List.mem_map_of_mem (hkept p hp fun hslot ↦ hnodup.1 ?_)
        rw [← hslot]
        exact List.mem_map_of_mem hframe'
      obtain ⟨h₂, hrest⟩ := ih h₁ hlive₁ hnodup.2
      refine ⟨h₂, fun p hp hslot ↦ ?_⟩
      rw [List.map_cons, List.mem_cons, not_or] at hslot
      exact hrest p (hkept p hp hslot.1) hslot.2

/-- What the caller gets for a frame. -/
theorem map_accept (d : Path) (frame : IndexFrame) :
    (@UdpDecap.accept Xsk IndexFrame d.asRef d.decap frame).map
        (fun out ↦ ((getRange (d.bytes out.frame) out.payload).getD [], out.peer)) =
      payload d.decap.dstPort d.decap.dstIp (d.bytes frame) := by
  have hread : @AsRef.asRef IndexFrame d.asRef frame = d.bytes frame := rfl
  unfold UdpDecap.accept Transport.accept payload
  rw [hread]
  cases parseUdp (d.bytes frame) d.decap.dstPort d.decap.dstIp with
  | ok result => rfl
  | error reason => rfl

theorem map_filterMap_accept (d : Path) (taken : List IndexFrame) :
    (taken.filterMap (@UdpDecap.accept Xsk IndexFrame d.asRef d.decap)).map
        (fun out ↦ ((getRange (d.bytes out.frame) out.payload).getD [], out.peer)) =
      (taken.map d.bytes).filterMap (payload d.decap.dstPort d.decap.dstIp) := by
  rw [List.map_filterMap, List.filterMap_map]
  exact List.filterMap_congr fun frame _ ↦ d.map_accept frame

/-- `deliver` with the frames it takes named. -/
theorem deliver_eq (d : Path) (cap : ℕ) :
    ∃ (taken rest filtered : List IndexFrame) (stats : DecapStats),
      d.decap.pending = taken ++ rest ∧ filtered.Sublist taken ∧
      d.deliver cap = { d with
        decap := { d.decap with
          inner := filtered.foldl Xsk.release d.xsk, pending := rest, stats := stats }
        delivered := d.delivered ++
          (taken.map d.bytes).filterMap (payload d.decap.dstPort d.decap.dstIp) } ∧
      (rest = [] ∨
        cap ≤ ((taken.map d.bytes).filterMap (payload d.decap.dstPort d.decap.dstIp)).length) := by
  obtain ⟨taken, rest, hqueue, hdeliver, hrest⟩ :=
    @UdpDecap.deliver_eq Xsk IndexFrame d.asRef d.decap ⟨[], cap⟩
  have htaken : d.decap.pending.take (d.decap.pending.length - rest.length) = taken := by
    rw [hqueue, List.length_append, Nat.add_sub_cancel, List.take_left]
  refine ⟨taken, rest, taken.filter fun frame ↦
    (@UdpDecap.accept Xsk IndexFrame d.asRef d.decap frame).isNone,
    d.decap.stats.countAll (taken.filterMap (@UdpDecap.dropOf Xsk IndexFrame d.asRef d.decap)),
    hqueue, List.filter_sublist, ?_, ?_⟩
  · unfold Path.deliver
    simp only [hdeliver, htaken, List.nil_append]
    rw [← map_filterMap_accept]
    rfl
  · rw [List.length_nil, Nat.zero_add] at hrest
    rw [← map_filterMap_accept, List.length_map]
    exact hrest

theorem Intact.deliver (h : d.Intact mapFd queue frames size dstPort dstIp fillQ rxQ) (cap : ℕ) :
    (d.deliver cap).Intact mapFd queue frames size dstPort dstIp fillQ rxQ := by
  obtain ⟨taken, rest, filtered, stats, hqueue, hsub, hdeliver, -⟩ := d.deliver_eq cap
  have hwaiting := h.waiting
  have hdistinct := h.distinct
  obtain ⟨consumed, hwire, hdelivered⟩ := h.account
  rw [hqueue] at hwaiting hdistinct hwire
  rw [List.map_append] at hdistinct hwire
  obtain ⟨htaken, hrest, hdisjoint⟩ := List.nodup_append'.mp hdistinct
  obtain ⟨hconserved, hkept⟩ := releases_conserved h.conserved
    (fun frame hframe ↦ hwaiting frame (List.mem_append_left _ (hsub.subset hframe)))
    (htaken.sublist (hsub.map _))
  rw [hdeliver]
  refine ⟨hconserved, h.port, h.ip, fun frame hframe ↦ ?_, hrest, consumed ++ taken.map d.bytes,
    ?_, ?_⟩
  · obtain ⟨p, hp, rfl⟩ := List.mem_map.mp (hwaiting frame (List.mem_append_right _ hframe))
    refine List.mem_map_of_mem (hkept p hp fun hslot ↦ ?_)
    exact hdisjoint ((hsub.map _).subset hslot) (List.mem_map_of_mem hframe)
  · rw [Path.bytes, h.frameSize_eq, hwire]
    simp only [List.append_assoc]
  · rw [List.filterMap_append, ← hdelivered, h.port, h.ip]

/-! ## Whole runs -/

theorem Intact.next {ev : Event} (h : d.Intact mapFd queue frames size dstPort dstIp fillQ rxQ)
    (hnext : d.next mapFd queue ev = some d') :
    ∃ fillQ rxQ, d'.Intact mapFd queue frames size dstPort dstIp fillQ rxQ := by
  cases ev with
  | receive frame desc =>
      simp only [Path.next] at hnext
      split at hnext
      · next hredirected =>
          split at hnext
          · next hput => exact ⟨_, h.receive hredirected hput.1 hput.2 hnext⟩
          · cases hnext
      · next hpassed =>
          cases hnext
          exact ⟨_, _, h.pass hpassed⟩
  | overrun desc =>
      simp only [Path.next] at hnext
      split at hnext
      · cases hnext
      · next hover => exact ⟨_, h.overrun hover hnext⟩
  | scribble addr bytes =>
      simp only [Path.next] at hnext
      split at hnext
      · next hwrite =>
          cases hnext
          exact ⟨_, _, h.write hwrite⟩
      · cases hnext
  | take =>
      obtain ⟨fillQ, h'⟩ := h.take hnext
      exact ⟨_, _, h'⟩
  | refill =>
      obtain ⟨fillQ, h'⟩ := h.refill hnext
      exact ⟨_, _, h'⟩
  | poll =>
      simp only [Path.next] at hnext
      split at hnext
      · exact ⟨_, _, h.poll hnext⟩
      · cases hnext
  | turn => exact ⟨_, h.turn hnext⟩
  | deliver cap =>
      simp only [Path.next] at hnext
      split at hnext
      · cases hnext
        exact ⟨_, _, h.deliver cap⟩
      · cases hnext
  | drop i => exact ⟨_, _, h.drop hnext⟩

theorem Intact.start {fill : Ring ℕ} {rx : Ring XdpDesc} {mem : Memory} {burst : ℕ}
    (hfill : fill.producer = fill.consumer) (hrx : rx.producer = rx.consumer)
    (hfillSize : fill.desc.length = frames.1) (hrxSize : rx.desc.length = frames.1) :
    (start fill rx frames size mem dstPort dstIp burst).Intact mapFd queue frames size dstPort
      dstIp [] [] where
  conserved := .start hfill hrx hfillSize hrxSize
  port := rfl
  ip := rfl
  waiting _ hframe := absurd hframe List.not_mem_nil
  distinct := List.nodup_nil
  account := ⟨[], rfl, rfl⟩

theorem intact_of_run {allowed : Path → Event → Prop} {fill : Ring ℕ} {rx : Ring XdpDesc}
    {mem : Memory} {burst : ℕ} (hfill : fill.producer = fill.consumer)
    (hrx : rx.producer = rx.consumer) (hfillSize : fill.desc.length = frames.1)
    (hrxSize : rx.desc.length = frames.1)
    (hrun : (machine mapFd queue).Run allowed
      (start fill rx frames size mem dstPort dstIp burst) d) :
    ∃ fillQ rxQ, d.Intact mapFd queue frames size dstPort dstIp fillQ rxQ :=
  hrun.invariant
    (I := fun d ↦ ∃ fillQ rxQ, d.Intact mapFd queue frames size dstPort dstIp fillQ rxQ)
    ⟨_, _, .start hfill hrx hfillSize hrxSize⟩ fun _ _ _ ⟨_, _, h⟩ _ hnext ↦ h.next hnext

theorem step_frame {ev : Xsk.Event} (hstep : d.step ev = some d') :
    d'.decap.collected = d.decap.collected ∧ d'.mem = d.mem := by
  obtain ⟨xsk, -, rfl⟩ := Option.map_eq_some_iff.mp hstep
  exact ⟨rfl, rfl⟩

/-- The region changes in ranges the kernel may write to and nowhere else; the batch for the
driver stays as it is. -/
theorem next_frame {ev : Event} (hnext : d.next mapFd queue ev = some d') :
    d'.decap.collected = d.decap.collected ∧ (d'.mem = d.mem ∨
      ∃ addr bytes, d.Writable addr bytes.length ∧ d'.mem = d.mem.write addr bytes) := by
  cases ev with
  | receive frame desc =>
      simp only [Path.next] at hnext
      split at hnext
      · split at hnext
        · next hput =>
            have hframe := step_frame hnext
            exact ⟨hframe.1, .inr ⟨_, _, hput.1, hframe.2⟩⟩
        · cases hnext
      · cases hnext
        exact ⟨rfl, .inl rfl⟩
  | overrun desc =>
      simp only [Path.next] at hnext
      split at hnext
      · cases hnext
      · exact (step_frame hnext).imp_right .inl
  | scribble addr bytes =>
      simp only [Path.next] at hnext
      split at hnext
      · next hwrite =>
          cases hnext
          exact ⟨rfl, .inr ⟨_, _, hwrite, rfl⟩⟩
      · cases hnext
  | take => exact (step_frame hnext).imp_right .inl
  | refill => exact (step_frame hnext).imp_right .inl
  | poll =>
      simp only [Path.next] at hnext
      split at hnext
      · exact (step_frame hnext).imp_right .inl
      · cases hnext
  | turn =>
      simp only [Path.next, Option.bind_eq_bind, Option.bind_eq_some_iff,
        Option.some.injEq] at hnext
      obtain ⟨d₁, hturn, rfl⟩ := hnext
      have hframe := step_frame hturn
      exact ⟨hframe.1, .inl hframe.2⟩
  | deliver cap =>
      simp only [Path.next] at hnext
      split at hnext
      · cases hnext
        obtain ⟨_, _, _, _, -, -, hdeliver, -⟩ := d.deliver_eq cap
        rw [hdeliver]
        exact ⟨rfl, .inl rfl⟩
      · cases hnext
  | drop i =>
      simp only [Path.next] at hnext
      split at hnext
      · exact (step_frame hnext).imp_right .inl
      · cases hnext

/-- A step writes to no frame that is live before it. -/
theorem Intact.bytes_next {ev : Event}
    (h : d.Intact mapFd queue frames size dstPort dstIp fillQ rxQ)
    (hnext : d.next mapFd queue ev = some d') {p : XdpDesc × IndexFrame} (hp : p ∈ d.xsk.live) :
    d'.bytes p.2 = d.bytes p.2 := by
  obtain ⟨_, _, h'⟩ := h.next hnext
  unfold Path.bytes
  rw [h'.frameSize_eq, h.frameSize_eq]
  rcases (next_frame hnext).2 with hmem | ⟨addr, bytes, hwrite, hmem⟩
  · rw [hmem]
  · rw [hmem]
    exact (h.reads hwrite).1 p hp

/-- No write under a live frame.  From any state the system gets to, and for as long as a frame
is live, its bytes stay as they are, whatever the kernel writes and whatever else is received,
delivered and dropped.  No chunk the kernel holds, where it may write at any time, is one of a live
frame or of an entry in the receive ring. -/
theorem live_bytes_kept {fill : Ring ℕ} {rx : Ring XdpDesc} {mem : Memory} {burst : ℕ}
    (hfill : fill.producer = fill.consumer) (hrx : rx.producer = rx.consumer)
    (hfillSize : fill.desc.length = frames.1) (hrxSize : rx.desc.length = frames.1)
    (hrun : (machine mapFd queue).Run (fun _ _ ↦ True)
      (start fill rx frames size mem dstPort dstIp burst) d)
    {p : XdpDesc × IndexFrame} (hlive : (machine mapFd queue).Run (fun u _ ↦ p ∈ u.xsk.live) d d') :
    d'.bytes p.2 = d.bytes p.2 ∧
    ∀ slot ∈ d'.xsk.kernel, (∀ q ∈ d'.xsk.live, q.2.slot ≠ slot) ∧
      ∀ desc ∈ d'.xsk.rings.rx.ring.unread d'.xsk.rings.rx.ring.consumer,
        desc.slot size ≠ slot := by
  have hreached : ∀ u, (machine mapFd queue).Run (fun u _ ↦ p ∈ u.xsk.live) d u →
      ∃ fillQ rxQ, u.Intact mapFd queue frames size dstPort dstIp fillQ rxQ := fun u hu ↦
    intact_of_run hfill hrx hfillSize hrxSize (hrun.trans (hu.mono fun _ _ _ ↦ trivial))
  constructor
  · refine Machine.Run.invariant_of (I := fun u ↦ u.bytes p.2 = d.bytes p.2) hreached rfl ?_ hlive
    rintro u ev v ⟨_, _, h⟩ hbytes hp hnext
    exact (h.bytes_next hnext hp).trans hbytes
  · intro slot hslot
    obtain ⟨fillQ, rxQ, h⟩ := hreached d' hlive
    rw [h.conserved.rx_holds.unread_eq]
    exact conserved_apart h.conserved hslot

deriving instance DecidableEq for XdpDesc, IndexFrame

/-- Two frames are received and pushed. -/
def sampleFilled : List Event :=
  [.refill, .take, .take, .take, .receive sampleFrame ⟨3 * 2048 + 256, 48⟩,
    .receive sampleFrame ⟨2 * 2048 + 256, 48⟩, .poll, .turn]

def sampleStart : Path :=
  start (sampleRing 0) (sampleRing ⟨0, 0⟩) Xsk.sampleFrames Xsk.sampleFrameSize ⟨fun _ ↦ 0⟩ 30001
    none 8

/-- The other frame is delivered, dropped and handed out again, and the kernel writes to its
chunk. -/
theorem live_bytes_kept_rewritten :
    ∃ d ∈ Machine.follow (next 7 0) sampleStart sampleFilled,
      ∃ d' ∈ Machine.follow (next 7 0) d [.deliver 8, .drop 0, .refill, .take, .take,
          .scribble (3 * 2048) (List.replicate 2048 9)],
        d'.mem.byte (3 * 2048 + 256) = 9 ∧ d'.bytes ⟨2, 256, 48⟩ = d.bytes ⟨2, 256, 48⟩ := by
  have hend : ∃ d ∈ Machine.follow (next 7 0) sampleStart sampleFilled,
      Machine.AllowedAlong (next 7 0)
        (fun u _ ↦ ((⟨2 * 2048 + 256, 48⟩, ⟨2, 256, 48⟩) : XdpDesc × IndexFrame) ∈ u.xsk.live) d
        [.deliver 8, .drop 0, .refill, .take, .take,
          .scribble (3 * 2048) (List.replicate 2048 9)] ∧
      ∃ d' ∈ Machine.follow (next 7 0) d [.deliver 8, .drop 0, .refill, .take, .take,
          .scribble (3 * 2048) (List.replicate 2048 9)],
        d'.mem.byte (3 * 2048 + 256) = 9 := by decide +kernel
  obtain ⟨d, hd, hallowed, d', hd', hbyte⟩ := hend
  exact ⟨d, hd, d', hd', hbyte, (live_bytes_kept rfl rfl rfl rfl
    (.of_follow (Machine.allowedAlong_of_forall (fun _ _ ↦ trivial) _ _) hd)
    (.of_follow hallowed hd')).1⟩

/-- The frames in the receive ring, as the region has them now. -/
def inRing (d : Path) : List (List UInt8) :=
  ((d.xsk.rings.rx.ring.unread d.xsk.rings.rx.ring.consumer).filter (·.Inside d.frameSize)).map
    (descBytes d.mem)

/-- What the program does not send to the socket holds no datagram for it. -/
theorem filterMap_payload_filter (wire : List (List UInt8)) :
    (wire.filter (redirected mapFd queue)).filterMap (payload dstPort dstIp) =
      wire.filterMap (payload dstPort dstIp) := by
  rw [List.filterMap_filter]
  refine List.filterMap_congr fun frame _ ↦ ?_
  split_ifs with hredirected
  · rfl
  · symm
    unfold payload
    split
    · next hparse => exact (hredirected (redirected_iff.mpr (redirects_of_parseUdp hparse))).elim
    · rfl

/-- The account, as the caller sees it. -/
theorem Intact.datagrams (h : d.Intact mapFd queue frames size dstPort dstIp fillQ rxQ) :
    d.delivered ++ (d.decap.pending.map (frameBytes d.mem size) ++
        (rxQ.filter (·.Inside size)).map (descBytes d.mem)).filterMap (payload dstPort dstIp) =
      d.wire.filterMap (payload dstPort dstIp) := by
  obtain ⟨consumed, hwire, hdelivered⟩ := h.account
  calc _ = (d.wire.filter (redirected mapFd queue)).filterMap (payload dstPort dstIp) := by
        rw [hwire, hdelivered, List.append_assoc, ← List.filterMap_append]
    _ = d.wire.filterMap (payload dstPort dstIp) := filterMap_payload_filter d.wire

/-- From the wire to the caller.  The datagrams delivered, then those in frames that wait, then
those in the receive ring are the datagrams for this port among the frames that came in, each of
them once, in order and with the bytes it came in with.  A frame for the socket that finds no
chunk with the kernel, or no room in the receive ring, is dropped by the kernel before it comes
in. -/
theorem datagrams_in_order {fill : Ring ℕ} {rx : Ring XdpDesc} {mem : Memory} {burst : ℕ}
    (hfill : fill.producer = fill.consumer) (hrx : rx.producer = rx.consumer)
    (hfillSize : fill.desc.length = frames.1) (hrxSize : rx.desc.length = frames.1)
    (hrun : (machine mapFd queue).Run (fun _ _ ↦ True)
      (start fill rx frames size mem dstPort dstIp burst) d) :
    d.delivered ++ (d.decap.pending.map d.bytes ++ d.inRing).filterMap (payload dstPort dstIp) =
      d.wire.filterMap (payload dstPort dstIp) := by
  obtain ⟨fillQ, rxQ, h⟩ := intact_of_run hfill hrx hfillSize hrxSize hrun
  have hring : d.inRing = (rxQ.filter (·.Inside size)).map (descBytes d.mem) := by
    rw [inRing, h.conserved.rx_holds.unread_eq, h.frameSize_eq]
  have hbytes : d.bytes = frameBytes d.mem size.1 := by
    unfold Path.bytes
    rw [h.frameSize_eq]
  rw [hring, hbytes]
  exact h.datagrams

/-- A frame that is no datagram, then two datagrams: one is delivered, one waits. -/
theorem datagrams_in_order_waiting :
    ∃ d ∈ Machine.follow (next 7 0) sampleStart
        (.receive [0, 0] ⟨0, 2⟩ :: sampleFilled ++ [.deliver 1]),
      d.delivered = [([1, 2], ⟨10, 0, 0, 1⟩, 40000)] ∧ d.decap.pending.length = 1 ∧
      d.delivered ++ (d.decap.pending.map d.bytes ++ d.inRing).filterMap (payload 30001 none) =
        d.wire.filterMap (payload 30001 none) := by
  have hend : ∃ d ∈ Machine.follow (next 7 0) sampleStart
        (.receive [0, 0] ⟨0, 2⟩ :: sampleFilled ++ [.deliver 1]),
      d.delivered = [([1, 2], ⟨10, 0, 0, 1⟩, 40000)] ∧ d.decap.pending.length = 1 := by
    decide +kernel
  obtain ⟨d, hd, hdelivered, hpending⟩ := hend
  exact ⟨d, hd, hdelivered, hpending, datagrams_in_order rfl rfl rfl rfl
    (.of_follow (Machine.allowedAlong_of_forall (fun _ _ ↦ trivial) _ _) hd)⟩

end Path

end Afxdp
