import PolarisTrade.Afxdp.Path
import PolarisTrade.MoldUdp.InPlace

/-!
# MoldUDP64 over AF_XDP sockets

An AF_XDP receive path lends its chunks: a datagram is a range in a frame of the region until
the frame is dropped.  The receiver over several such paths hands out the messages of the
datagrams on the wire, in order and without a copy.
-/

namespace Afxdp

open Transport

/-- A socket as it is bound: empty rings with a place for every frame of the region. -/
structure Bound where
  mapFd : BitVec 32
  queue : BitVec 32
  fill : Ring ℕ
  rx : Ring XdpDesc
  frames : NonZeroU32
  size : NonZeroU32
  mem : Memory
  dstPort : ℕ
  dstIp : Option Ipv4Addr
  burst : ℕ
  fill_empty : fill.producer = fill.consumer
  rx_empty : rx.producer = rx.consumer
  fill_size : fill.desc.length = frames.1
  rx_size : rx.desc.length = frames.1

namespace Path

def ofBound (b : Bound) : Path := start b.fill b.rx b.frames b.size b.mem b.dstPort b.dstIp b.burst

/-- What `deliver` pushes. -/
def out (d : Path) (cap : ℕ) : List (DecapFrame IndexFrame) :=
  let _ := d.asRef
  (d.decap.deliver ⟨[], cap⟩).2.2.frames

/-- The payload of a datagram, as the region has it now. -/
def content (d : Path) (datagram : DecapFrame IndexFrame) : List UInt8 :=
  (getRange (d.bytes datagram.frame) datagram.payload).getD []

/-- What a step hands to the caller. -/
def lent (d : Path) : Event → List (DecapFrame IndexFrame)
  | .deliver cap => d.out cap
  | _ => []

/-- The path as one that lends its frames.  A chunk goes back with the frame in it. -/
def lender (b : Bound) : Lender Path Event (DecapFrame IndexFrame) where
  next := next b.mapFd b.queue
  lent := lent
  takes d ev datagram :=
    match ev with
    | .drop i => (d.xsk.live[i]?).any fun p ↦ p.2.slot = datagram.frame.slot
    | _ => false
  read := content
  handed d := d.delivered.map Prod.fst
  offered d := (d.wire.filterMap (payload b.dstPort b.dstIp)).map Prod.fst

def Good (b : Bound) (d : Path) : Prop :=
  ∃ fillQ rxQ, d.Intact b.mapFd b.queue b.frames b.size b.dstPort b.dstIp fillQ rxQ

/-- The frame is live, and out of the queue of the decapsulation. -/
def Out (d : Path) (datagram : DecapFrame IndexFrame) : Prop :=
  datagram.frame ∈ d.xsk.live.map Prod.snd ∧
    datagram.frame.slot ∉ d.decap.pending.map IndexFrame.slot

variable {b : Bound} {d d' : Path} {mapFd queue : BitVec 32} {frames size : NonZeroU32}
  {dstPort : ℕ} {dstIp : Option Ipv4Addr} {fillQ : List ℕ} {rxQ : List XdpDesc}

/-! ## One step -/

theorem live_step {ev : Xsk.Event} (hother : ev ≠ .turn ∧ ∀ i, ev ≠ .drop i)
    (hstep : d.step ev = some d') : d'.xsk.live = d.xsk.live ∧
      d'.decap.pending = d.decap.pending ∧ d'.delivered = d.delivered := by
  obtain ⟨xsk, hnext, rfl⟩ := Option.map_eq_some_iff.mp hstep
  refine ⟨?_, rfl, rfl⟩
  change xsk.live = d.xsk.live
  cases ev with
  | turn => exact absurd rfl hother.1
  | drop i => exact absurd rfl (hother.2 i)
  | take =>
      simp only [Xsk.next] at hnext
      split at hnext
      · cases hnext
      · cases hnext
        rfl
  | refill | poll | publish =>
      simp only [Xsk.next] at hnext
      split at hnext
      · cases hnext
        rfl
      · cases hnext

/-- Steps in which no frame changes hands. -/
theorem live_next {ev : Event} (hother : ev ≠ .turn ∧ (∀ cap, ev ≠ .deliver cap) ∧
    ∀ i, ev ≠ .drop i) (hnext : d.next mapFd queue ev = some d') :
    d'.xsk.live = d.xsk.live ∧ d'.decap.pending = d.decap.pending ∧
      d'.delivered = d.delivered := by
  cases ev with
  | turn => exact absurd rfl hother.1
  | deliver cap => exact absurd rfl (hother.2.1 cap)
  | drop i => exact absurd rfl (hother.2.2 i)
  | receive frame desc =>
      simp only [Path.next] at hnext
      split at hnext
      · split at hnext
        · have hkept := live_step (by simp) hnext
          exact hkept
        · cases hnext
      · cases hnext
        exact ⟨rfl, rfl, rfl⟩
  | overrun desc =>
      simp only [Path.next] at hnext
      split at hnext
      · cases hnext
      · exact live_step (by simp) hnext
  | scribble addr bytes =>
      simp only [Path.next] at hnext
      split at hnext
      · cases hnext
        exact ⟨rfl, rfl, rfl⟩
      · cases hnext
  | take => exact live_step (by simp) hnext
  | refill => exact live_step (by simp) hnext
  | poll =>
      simp only [Path.next] at hnext
      split at hnext
      · exact live_step (by simp) hnext
      · cases hnext

/-- `deliver` with what it pushes, and what it drops, named. -/
theorem deliver_out (d : Path) (cap : ℕ) :
    ∃ (taken rest : List IndexFrame) (stats : DecapStats), d.decap.pending = taken ++ rest ∧
      d.out cap = taken.filterMap (@UdpDecap.accept Xsk IndexFrame d.asRef d.decap) ∧
      d.deliver cap = { d with
        decap := { d.decap with
          inner := (taken.filter fun frame ↦
            (@UdpDecap.accept Xsk IndexFrame d.asRef d.decap frame).isNone).foldl
              Xsk.release d.xsk
          pending := rest
          stats := stats }
        delivered := d.delivered ++ (d.out cap).map fun datagram ↦
          (d.content datagram, datagram.peer) } := by
  obtain ⟨taken, rest, hqueue, hdeliver, -⟩ :=
    @UdpDecap.deliver_eq Xsk IndexFrame d.asRef d.decap ⟨[], cap⟩
  have htaken : d.decap.pending.take (d.decap.pending.length - rest.length) = taken := by
    rw [hqueue, List.length_append, Nat.add_sub_cancel, List.take_left]
  have hout : d.out cap = taken.filterMap (@UdpDecap.accept Xsk IndexFrame d.asRef d.decap) := by
    unfold out
    simp only [hdeliver, List.nil_append]
  refine ⟨taken, rest,
    d.decap.stats.countAll (taken.filterMap (@UdpDecap.dropOf Xsk IndexFrame d.asRef d.decap)),
    hqueue, hout, ?_⟩
  rw [hout]
  unfold Path.deliver
  simp only [hdeliver, htaken, List.nil_append]
  rfl

theorem frame_of_accept {frame : IndexFrame} {datagram : DecapFrame IndexFrame}
    (h : @UdpDecap.accept Xsk IndexFrame d.asRef d.decap frame = some datagram) :
    datagram.frame = frame := by
  unfold UdpDecap.accept Transport.accept at h
  split at h
  · cases h
    rfl
  · cases h

theorem deliver_of_next {cap : ℕ} (hnext : d.next mapFd queue (.deliver cap) = some d') :
    d' = d.deliver cap := by
  simp only [Path.next] at hnext
  split at hnext
  · exact (Option.some.inj hnext).symm
  · cases hnext

/-- A live frame that is not among the filtered ones stays live. -/
theorem Intact.live_deliver
    (h : d.Intact mapFd queue frames size dstPort dstIp fillQ rxQ) {taken rest : List IndexFrame}
    (hqueue : d.decap.pending = taken ++ rest) {keep : IndexFrame → Bool} {frame : IndexFrame}
    (hframe : frame ∈ d.xsk.live.map Prod.snd)
    (hfree : frame.slot ∉ (taken.filter keep).map IndexFrame.slot) :
    frame ∈ ((taken.filter keep).foldl Xsk.release d.xsk).live.map Prod.snd := by
  have hsub : (taken.filter keep).Sublist d.decap.pending := by
    rw [hqueue]
    exact List.filter_sublist.trans (List.sublist_append_left _ _)
  obtain ⟨-, hkept⟩ := releases_conserved h.conserved
    (fun frame hframe ↦ h.waiting frame (hsub.subset hframe)) (h.distinct.sublist (hsub.map _))
  obtain ⟨p, hp, rfl⟩ := List.mem_map.mp hframe
  exact List.mem_map_of_mem (hkept p hp hfree)

/-! ## The laws -/

theorem Intact.out_deliver
    (h : d.Intact mapFd queue frames size dstPort dstIp fillQ rxQ) {cap : ℕ}
    {datagram : DecapFrame IndexFrame} (hmem : datagram ∈ d.out cap) :
    (d.deliver cap).Out datagram := by
  obtain ⟨taken, rest, stats, hqueue, hout, hdeliver⟩ := d.deliver_out cap
  rw [hout] at hmem
  obtain ⟨frame, hframe, haccept⟩ := List.mem_filterMap.mp hmem
  have hdistinct := h.distinct
  rw [hqueue, List.map_append] at hdistinct
  obtain ⟨htaken, -, hdisjoint⟩ := List.nodup_append'.mp hdistinct
  unfold Out
  rw [frame_of_accept haccept, hdeliver]
  constructor
  · apply h.live_deliver hqueue (h.waiting frame (hqueue ▸ List.mem_append_left _ hframe))
    -- the frame was accepted, and no other that was taken has its slot
    intro hslot
    obtain ⟨other, hother, heq⟩ := List.mem_map.mp hslot
    obtain ⟨hother, hnone⟩ := List.mem_filter.mp hother
    obtain rfl := List.inj_on_of_nodup_map htaken hother hframe heq
    rw [haccept] at hnone
    cases hnone
  · exact fun hslot ↦ hdisjoint (List.mem_map_of_mem hframe) hslot

theorem Intact.out_next (h : d.Intact mapFd queue frames size dstPort dstIp fillQ rxQ)
    {ev : Event} {datagram : DecapFrame IndexFrame} (hout : d.Out datagram)
    (hkept : ∀ i, ev = .drop i → ∀ p ∈ d.xsk.live[i]?, p.2.slot ≠ datagram.frame.slot)
    (hnext : d.next mapFd queue ev = some d') : d'.Out datagram := by
  obtain ⟨hlive, hfree⟩ := hout
  by_cases hother : ev ≠ .turn ∧ (∀ cap, ev ≠ .deliver cap) ∧ ∀ i, ev ≠ .drop i
  · obtain ⟨hlive', hpending, -⟩ := live_next hother hnext
    unfold Out
    rw [hlive', hpending]
    exact ⟨hlive, hfree⟩
  cases ev with
  | turn =>
      obtain ⟨_, _, h'⟩ := h.next hnext
      simp only [Path.next, Option.bind_eq_bind, Option.bind_eq_some_iff,
        Option.some.injEq] at hnext
      obtain ⟨d₁, hstep, rfl⟩ := hnext
      obtain ⟨xsk, hturn, rfl⟩ := Option.map_eq_some_iff.mp hstep
      obtain ⟨k, -, happend⟩ := turn_conserved h.conserved hturn
      have hnodup := (List.nodup_append'.mp (conserved_distinct h'.conserved)).1
      change (xsk.live.map fun p ↦ p.2.slot).Nodup at hnodup
      unfold Out
      change datagram.frame ∈ xsk.live.map Prod.snd ∧ datagram.frame.slot ∉
        (d.decap.pending ++ (xsk.live.drop d.xsk.live.length).map Prod.snd).map IndexFrame.slot
      rw [happend, List.drop_left]
      rw [happend, List.map_append] at hnodup
      constructor
      · rw [List.map_append]
        exact List.mem_append_left _ hlive
      · rw [List.map_append, List.mem_append, not_or, List.map_map]
        refine ⟨hfree, fun hnew ↦ ?_⟩
        obtain ⟨p, hp, heq⟩ := List.mem_map.mp hlive
        refine (List.nodup_append'.mp hnodup).2.2 (List.mem_map_of_mem hp) ?_
        rw [heq]
        exact hnew
  | deliver cap =>
      obtain rfl := deliver_of_next hnext
      obtain ⟨taken, rest, stats, hqueue, -, hdeliver⟩ := d.deliver_out cap
      rw [hqueue, List.map_append, List.mem_append, not_or] at hfree
      unfold Out
      rw [hdeliver]
      refine ⟨h.live_deliver hqueue hlive fun hslot ↦ hfree.1 ?_, hfree.2⟩
      exact (List.filter_sublist.map _).subset hslot
  | drop i =>
      have hkept := hkept i rfl
      simp only [Path.next] at hnext
      split at hnext
      · next hguard =>
          obtain ⟨⟨desc, frame⟩, hi, -⟩ := hguard
          obtain ⟨xsk, hdrop, rfl⟩ := Option.map_eq_some_iff.mp hnext
          have hi : d.xsk.live[i]? = some (desc, frame) := hi
          simp only [Xsk.next, hi] at hdrop
          cases hdrop
          obtain ⟨q, hq, heq⟩ := List.mem_map.mp hlive
          refine ⟨?_, hfree⟩
          rw [← heq] at hkept ⊢
          refine List.mem_map_of_mem (mem_eraseIdx_of_ne hi hq ?_)
          rintro rfl
          exact hkept _ hi rfl
      · cases hnext
  | receive | overrun | scribble | take | refill | poll => simp at hother

theorem Intact.handed_next (h : d.Intact mapFd queue frames size dstPort dstIp fillQ rxQ)
    {ev : Event} (hnext : d.next mapFd queue ev = some d') :
    d'.delivered.map Prod.fst = d.delivered.map Prod.fst ++ (d.lent ev).map d'.content := by
  cases ev with
  | deliver cap =>
      obtain rfl := deliver_of_next hnext
      obtain ⟨taken, rest, stats, hqueue, hout, hdeliver⟩ := d.deliver_out cap
      have hread : ∀ datagram ∈ d.out cap,
          (d.deliver cap).content datagram = d.content datagram := by
        intro datagram hmem
        rw [hout] at hmem
        obtain ⟨frame, hframe, haccept⟩ := List.mem_filterMap.mp hmem
        obtain ⟨p, hp, heq⟩ := List.mem_map.mp
          (h.waiting frame (hqueue ▸ List.mem_append_left _ hframe))
        unfold content
        rw [frame_of_accept haccept, ← heq, h.bytes_next hnext hp]
      change _ = _ ++ (d.out cap).map (d.deliver cap).content
      rw [List.map_congr_left hread, hdeliver, List.map_append, List.map_map]
      rfl
  | turn =>
      simp only [Path.next, Option.bind_eq_bind, Option.bind_eq_some_iff,
        Option.some.injEq] at hnext
      obtain ⟨d₁, hstep, rfl⟩ := hnext
      obtain ⟨xsk, -, rfl⟩ := Option.map_eq_some_iff.mp hstep
      exact (List.append_nil _).symm
  | drop i =>
      simp only [Path.next] at hnext
      split at hnext
      · obtain ⟨xsk, -, rfl⟩ := Option.map_eq_some_iff.mp hnext
        exact (List.append_nil _).symm
      · cases hnext
  | receive | overrun | scribble | take | refill | poll =>
      rw [(live_next (by simp) hnext).2.2]
      exact (List.append_nil _).symm

theorem lawful (b : Bound) : (lender b).Lawful (Good b) Out where
  good := by
    rintro d ev d' ⟨fillQ, rxQ, h⟩ hnext
    exact h.next hnext
  lent := by
    rintro d ev d' datagram ⟨fillQ, rxQ, h⟩ hnext hlent
    cases ev with
    | deliver cap =>
        have hnext : d.next b.mapFd b.queue (.deliver cap) = some d' := hnext
        obtain rfl := deliver_of_next hnext
        exact h.out_deliver hlent
    | receive | overrun | scribble | take | refill | poll | turn | drop => cases hlent
  live := by
    rintro d ev d' datagram ⟨fillQ, rxQ, h⟩ hnext hout htakes
    refine h.out_next hout ?_ hnext
    rintro i rfl p hp heq
    have hp : d.xsk.live[i]? = some p := hp
    simp [lender, hp, heq] at htakes
  read := by
    rintro d ev d' datagram ⟨fillQ, rxQ, h⟩ hnext hout -
    obtain ⟨p, hp, heq⟩ := List.mem_map.mp hout.1
    change d'.content datagram = d.content datagram
    unfold content
    rw [← heq, h.bytes_next hnext hp]
  handed := by
    rintro d ev d' ⟨fillQ, rxQ, h⟩ hnext
    exact h.handed_next hnext
  offered := by
    rintro d ⟨fillQ, rxQ, h⟩
    exact List.IsPrefix.map Prod.fst ⟨_, h.datagrams⟩

theorem good_ofBound (b : Bound) : (ofBound b).Good b :=
  ⟨_, _, .start b.fill_empty b.rx_empty b.fill_size b.rx_size⟩

end Path

end Afxdp

namespace MoldUdp

open Transport

/-- Messages from the wire, over any number of AF_XDP sockets and whatever the kernel writes to
the chunks it holds: what the caller gets is in order, is in a datagram for the leg's port among
the frames that came in to that leg (or in one from the requester), and is read in place. -/
theorem messages_from_frames {bounds : ℕ → Afxdp.Bound} {cfg : MoldUdpReceiverConfig}
    {pools : List Leg} {inner : Inner (Loan ℕ (DecapFrame IndexFrame))}
    (hnew : fromLegs cfg pools = .ok inner) {d : InPlace Afxdp.Path (DecapFrame IndexFrame)}
    (hrun : (InPlace.machine fun k ↦ Afxdp.Path.lender (bounds k)).Run InPlace.Orderly
      (.start (fun k ↦ .ofBound (bounds k)) inner) d) :
    d.Delivers (fun k ↦ Afxdp.Path.lender (bounds k)) cfg.startSequence fun datagram ↦
      (∃ k, ∃ frame ∈ (d.legs k).wire, ∃ peer,
        Afxdp.Path.payload (bounds k).dstPort (bounds k).dstIp frame = some (datagram, peer)) ∨
      datagram ∈ d.recovered := by
  refine InPlace.delivers_of_run (fun k ↦ Afxdp.Path.lawful (bounds k))
    (fun k ↦ Afxdp.Path.good_ofBound (bounds k)) hnew hrun (fun k datagram hmem ↦ .inl ?_)
    fun datagram hmem ↦ .inr hmem
  obtain ⟨⟨bytes, peer⟩, hpayload, rfl⟩ := List.mem_map.mp hmem
  obtain ⟨frame, hframe, hpayload⟩ := List.mem_filterMap.mp hpayload
  exact ⟨k, frame, hframe, peer, hpayload⟩

def sampleBound : Afxdp.Bound where
  mapFd := 7
  queue := 0
  fill := Afxdp.sampleRing 0
  rx := Afxdp.sampleRing ⟨0, 0⟩
  frames := Afxdp.Xsk.sampleFrames
  size := Afxdp.Xsk.sampleFrameSize
  mem := ⟨fun _ ↦ 0⟩
  dstPort := 30001
  dstIp := none
  burst := 8
  fill_empty := rfl
  rx_empty := rfl
  fill_size := rfl
  rx_size := rfl

/-- A message in its datagram, the datagram in its frame. -/
def sampleWire (sequence : ℕ) (message : UInt8) : List UInt8 :=
  List.replicate 12 2 ++ [0x08, 0] ++
    [0x45, 0, 0, 51, 0, 0, 0x40, 0, 64, 17, 0, 0, 10, 0, 0, 1, 239, 1, 1, 1] ++
    [0x9c, 0x40, 0x75, 0x31, 0, 31, 0, 0] ++ moldPacket sampleSession sequence [message]

def sampleSocket : InPlace Afxdp.Path (DecapFrame IndexFrame) :=
  .start (fun _ ↦ .ofBound sampleBound)
    (.fresh { startSequence := some 1 } [⟨minLegPoolCapacity⟩])

/-- 2 comes before 1.  1 is borrowed and its frame dropped, 2 is owned; then the kernel gets the
chunk 1 was in and writes to it. -/
def sampleInPlace : List (InPlace.Step Afxdp.Path.Event (DecapFrame IndexFrame)) :=
  [.leg 0 .refill, .leg 0 .take, .leg 0 .take, .leg 0 (.receive (sampleWire 2 8) ⟨3 * 2048, 65⟩),
    .leg 0 (.receive (sampleWire 1 7) ⟨2 * 2048, 65⟩), .leg 0 .poll, .leg 0 .turn,
    .leg 0 (.deliver 8), .drain 0, .client (.decode 0), .client .yieldItem, .client .retire,
    .client (.decode 0), .client .yieldItem, .client .retire, .client .yieldOwned,
    .leg 0 (.drop 1), .leg 0 .refill, .leg 0 .take, .leg 0 .take, .leg 0 .take,
    .leg 0 (.scribble (2 * 2048) (List.replicate 65 9))]

theorem messages_from_frames_scribbled :
    ∃ d, (InPlace.machine fun _ ↦ Afxdp.Path.lender sampleBound).Run InPlace.Orderly
        sampleSocket d ∧
      (d.legs 0).mem.byte (2 * 2048) = 9 ∧ handedNumbers d.session.handed = [1, 2] ∧
      ∃ view ∈ d.kept,
        @MessageView.asRef _ (d.reading fun _ ↦ Afxdp.Path.lender sampleBound) view = some [8] := by
  have hend : ∃ d ∈ Machine.follow (InPlace.next fun _ ↦ Afxdp.Path.lender sampleBound)
      sampleSocket sampleInPlace,
      (d.legs 0).mem.byte (2 * 2048) = 9 ∧ handedNumbers d.session.handed = [1, 2] ∧
      ∃ view ∈ d.kept, view.asRef = some [8] := by
    decide +kernel
  have hallowed : Machine.AllowedAlong (InPlace.next fun _ ↦ Afxdp.Path.lender sampleBound)
      InPlace.Orderly sampleSocket sampleInPlace := by
    decide +kernel
  obtain ⟨d, hd, hbyte, hnumbers, view, hview, hread⟩ := hend
  have hrun := Machine.Run.of_follow hallowed hd
  have hdelivers := @messages_from_frames (fun _ ↦ sampleBound) { startSequence := some 1 }
    [⟨minLegPoolCapacity⟩] _ rfl d hrun
  exact ⟨d, hrun, hbyte, hnumbers, view, hview, (hdelivers.kept view hview).1.trans hread⟩

end MoldUdp
