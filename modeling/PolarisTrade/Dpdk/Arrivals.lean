import PolarisTrade.Dpdk.Mbufs
import PolarisTrade.Lib.Memory

/-!
# What the port delivers

The port with the memory of the mbufs.  The port writes to mbufs of the pool at any time; a frame
is read through the pointer and the length that the shim took from its mbuf.  Frames that came in
one mbuf are handed out in the order they came, packets of several mbufs are counted.
-/

namespace Dpdk

open Transport

/-- Where the data room of each mbuf is. -/
structure Rooms where
  home : ℕ → ℕ
  size : ℕ
  apart : ∀ m m', m ≠ m' → home m + size ≤ home m' ∨ home m' + size ≤ home m

/-- The range lies in the data room of the mbuf. -/
def Rooms.Holds (rooms : Rooms) (mbuf addr len : ℕ) : Prop :=
  rooms.home mbuf ≤ addr ∧ addr + len ≤ rooms.home mbuf + rooms.size

instance (rooms : Rooms) (mbuf addr len : ℕ) : Decidable (rooms.Holds mbuf addr len) :=
  inferInstanceAs (Decidable (_ ∧ _))

theorem Rooms.read_write {rooms : Rooms} {mem : Memory} {mbuf mbuf' addr addr' len : ℕ}
    {bytes : List UInt8} (h : rooms.Holds mbuf addr len)
    (h' : rooms.Holds mbuf' addr' bytes.length) (hne : mbuf ≠ mbuf') :
    (mem.write addr' bytes).read addr len = mem.read addr len := by
  apply Memory.read_write_of_disjoint
  obtain ⟨hlo, hhi⟩ := h
  obtain ⟨hlo', hhi'⟩ := h'
  rcases rooms.apart mbuf mbuf' hne with hbelow | habove
  · left
    omega
  · right
    omega

structure Arrivals where
  port : Port
  mem : Memory
  /-- frames that came in one mbuf -/
  wire : List (List UInt8)
  /-- how many packets came in several -/
  chained : ℕ
  /-- the caller's frames, each with the bytes it was pushed with -/
  shown : List (MbufFrame × List UInt8)
  /-- the bytes of every frame pushed -/
  handed : List (List UInt8)

namespace Arrivals

/-- `MbufFrame::as_ref` -/
def bytes (d : Arrivals) (frame : MbufFrame) : List UInt8 :=
  d.mem.read frame.data frame.len.toNat

inductive Event where
  /-- a packet comes in; `bytes` is what its first mbuf has of it -/
  | receive (mbuf : ℕ) (rest : List ℕ) (data : ℕ) (bytes : List UInt8)
  /-- the port writes to an mbuf of the pool -/
  | scribble (mbuf addr : ℕ) (bytes : List UInt8)
  | poll (spare : ℕ)
  | turn (ready : ℕ)
  | drop (i : ℕ)

def next (rooms : Rooms) (d : Arrivals) : Event → Option Arrivals
  | .receive mbuf rest data bytes =>
      if rooms.Holds mbuf data bytes.length ∧ bytes.length < 2 ^ 16 then
        (d.port.next (.arrive mbuf rest data (UInt16.ofNat bytes.length))).map fun port ↦
          { d with
            port := port
            mem := d.mem.write data bytes
            wire := if rest = [] then d.wire ++ [bytes] else d.wire
            chained := if rest = [] then d.chained else d.chained + 1 }
      else none
  | .scribble mbuf addr bytes =>
      if mbuf ∈ d.port.pool ∧ rooms.Holds mbuf addr bytes.length then
        some { d with mem := d.mem.write addr bytes }
      else none
  | .poll spare => (d.port.next (.poll spare)).map fun port ↦ { d with port := port }
  | .turn ready =>
      (d.port.next (.turn ready)).map fun port ↦
        let frames := port.live.drop d.port.live.length
        { d with
          port := port
          shown := d.shown ++ frames.map fun frame ↦ (frame, d.bytes frame)
          handed := d.handed ++ frames.map d.bytes }
  | .drop i =>
      (d.port.next (.drop i)).map fun port ↦ { d with port := port, shown := d.shown.eraseIdx i }

def machine (rooms : Rooms) : Machine Arrivals Event := .ofNext (next rooms)

def start (burst : NonZeroU16) (mbufs : List ℕ) (mem : Memory) : Arrivals where
  port := .start burst mbufs
  mem := mem
  wire := []
  chained := 0
  shown := []
  handed := []

/-- What lies in the receive queue, as the memory has it now. -/
def waiting (d : Arrivals) : List (List UInt8) := (framesOf d.port.queue).map d.bytes

variable {rooms : Rooms} {mbufs : List ℕ} {d d' : Arrivals}

structure Intact (rooms : Rooms) (mbufs : List ℕ) (d : Arrivals) : Prop where
  owned : d.port.Owned mbufs
  /-- the shim's pointer and length of a packet lie in its first mbuf -/
  queued : ∀ rx ∈ d.port.queue, rooms.Holds rx.mbuf rx.data rx.len.toNat
  shown : d.shown.map Prod.fst = d.port.live
  kept : ∀ p ∈ d.shown, rooms.Holds p.1.mbuf p.1.data p.1.len.toNat ∧ d.bytes p.1 = p.2
  account : d.wire = d.handed ++ d.waiting
  counted : UInt64.ofNat d.chained =
    d.port.driver.truncated + UInt64.ofNat (chainedOf d.port.queue).length

theorem Intact.start (burst : NonZeroU16) (mbufs : List ℕ) (mem : Memory) :
    Intact rooms mbufs (.start burst mbufs mem) := by
  refine ⟨Port.owned_start burst mbufs, ?_, rfl, ?_, rfl, rfl⟩
  · exact fun rx hrx ↦ absurd hrx List.not_mem_nil
  · exact fun p hp ↦ absurd hp List.not_mem_nil

/-- A write to an mbuf of the pool is seen in no frame and in nothing on the queue. -/
theorem Intact.write (hnodup : mbufs.Nodup) (h : d.Intact rooms mbufs) {mbuf addr : ℕ}
    {bytes : List UInt8} (hmbuf : mbuf ∈ d.port.pool)
    (hholds : rooms.Holds mbuf addr bytes.length) :
    Intact rooms mbufs { d with mem := d.mem.write addr bytes } := by
  obtain ⟨hqueue, hframes⟩ := h.owned.notMem_of_mem_pool hnodup hmbuf
  refine ⟨h.owned, h.queued, h.shown, fun p hp ↦ ?_, ?_, h.counted⟩
  · obtain ⟨hroom, hbytes⟩ := h.kept p hp
    refine ⟨hroom, (Rooms.read_write hroom hholds ?_).trans hbytes⟩
    rintro rfl
    have hlive : p.1 ∈ d.port.live := h.shown ▸ List.mem_map_of_mem hp
    exact hframes (List.mem_flatMap.mpr ⟨p.1.mbuf, List.mem_map_of_mem hlive, List.mem_cons_self⟩)
  · refine h.account.trans (congrArg (d.handed ++ ·) (List.map_congr_left fun frame hframe ↦ ?_))
    obtain ⟨rx, hrx, -, rfl⟩ := mem_framesOf hframe
    refine (Rooms.read_write (h.queued rx hrx) hholds ?_).symm
    rintro rfl
    exact hqueue (List.mem_flatMap.mpr ⟨rx.mbuf, List.mem_map_of_mem hrx, List.mem_cons_self⟩)

/-- A packet of one mbuf is a frame, one of several is chained. -/
theorem settle_singleton {mbuf data : ℕ} {len : UInt16} {rest : List ℕ}
    (hlength : rest.length + 1 < 2 ^ 16) :
    framesOf [⟨mbuf, data, len, UInt16.ofNat (rest.length + 1)⟩] =
        (if rest = [] then [⟨mbuf, data, len⟩] else []) ∧
      (chainedOf [⟨mbuf, data, len, UInt16.ofNat (rest.length + 1)⟩]).length =
        if rest = [] then 0 else 1 := by
  have hsegs : (UInt16.ofNat (rest.length + 1)).toNat = rest.length + 1 :=
    UInt16.toNat_ofNat_of_lt' hlength
  by_cases hrest : rest = []
  · subst hrest
    exact ⟨rfl, rfl⟩
  · have hpos := List.length_pos_iff.mpr hrest
    have hmany : 1 < UInt16.ofNat (rest.length + 1) := by
      rw [UInt16.lt_iff_toNat_lt, hsegs]
      exact Nat.succ_lt_succ hpos
    have hnot : ¬ UInt16.ofNat (rest.length + 1) ≤ 1 := UInt16.not_le.mpr hmany
    constructor
    · rw [if_neg hrest, framesOf, List.filter_cons_of_neg (by simpa using hnot)]
      rfl
    · rw [if_neg hrest, chainedOf, List.filter_cons_of_pos (by simpa using hmany)]
      rfl

theorem Intact.receive (hnodup : mbufs.Nodup) (h : d.Intact rooms mbufs) {mbuf data : ℕ}
    {rest : List ℕ} {bytes : List UInt8}
    (hnext : d.next rooms (.receive mbuf rest data bytes) = some d') : d'.Intact rooms mbufs := by
  obtain ⟨⟨hholds, hlen⟩, hmap⟩ := (Option.ite_none_right_eq_some).mp hnext
  obtain ⟨port, hport, rfl⟩ := Option.map_eq_some_iff.mp hmap
  have howned := h.owned.step hnodup hport
  simp only [Port.next] at hport
  split_ifs at hport with harrive
  obtain ⟨hpool, hlength⟩ := harrive
  cases hport
  have hwrite := h.write hnodup (hpool.subset List.mem_cons_self) hholds
  have hnat : (UInt16.ofNat bytes.length).toNat = bytes.length := UInt16.toNat_ofNat_of_lt' hlen
  obtain ⟨hframe, hchained⟩ :=
    @settle_singleton mbuf data (UInt16.ofNat bytes.length) rest hlength
  refine ⟨howned, fun rx hrx ↦ ?_, h.shown, hwrite.kept, ?_, ?_⟩
  · rcases List.mem_append.mp hrx with hold | hnew
    · exact h.queued rx hold
    · rw [List.mem_singleton.mp hnew]
      dsimp only
      rwa [hnat]
  · change (if rest = [] then d.wire ++ [bytes] else d.wire) =
      d.handed ++ (framesOf (d.port.queue ++ [_])).map _
    rw [framesOf_append, List.map_append, ← List.append_assoc]
    have hold : d.handed ++ (framesOf d.port.queue).map
        (Arrivals.bytes { d with mem := d.mem.write data bytes }) = d.wire := hwrite.account.symm
    refine Eq.trans ?_ (congrArg (· ++ _) hold.symm)
    rw [hframe]
    split_ifs
    · refine congrArg (fun b ↦ d.wire ++ [b]) ?_
      refine (Memory.read_write d.mem data bytes).symm.trans ?_
      exact congrArg ((d.mem.write data bytes).read data) hnat.symm
    · rw [List.map_nil, List.append_nil]
  · change UInt64.ofNat (if rest = [] then d.chained else d.chained + 1) =
      d.port.driver.truncated + UInt64.ofNat (chainedOf (d.port.queue ++ [_])).length
    rw [chainedOf_append, List.length_append, hchained, UInt64.ofNat_add, ← UInt64.add_assoc,
      ← h.counted]
    split_ifs
    · exact (UInt64.add_zero _).symm
    · exact UInt64.ofNat_add _ _

/-- A turn pushes the frames among the packets it takes, in their order. -/
theorem Intact.turn (hnodup : mbufs.Nodup) (h : d.Intact rooms mbufs) {ready : ℕ}
    (hnext : d.next rooms (.turn ready) = some d') : d'.Intact rooms mbufs := by
  obtain ⟨port, hport, rfl⟩ := Option.map_eq_some_iff.mp hnext
  have howned := h.owned.step hnodup hport
  cases hpolling : d.port.polling with
  | none =>
      rw [Port.next, hpolling] at hport
      cases hport
  | some poll =>
      obtain ⟨out, want⟩ := poll
      rw [Port.next_turn hpolling h.owned.sized (h.owned.want_le out want hpolling)] at hport
      cases hport
      have hsplit : d.port.queue =
          d.port.queue.take (min want ready) ++ d.port.queue.drop (min want ready) :=
        (List.take_append_drop _ _).symm
      generalize d.port.queue.take (min want ready) = taken at hsplit howned ⊢
      generalize d.port.queue.drop (min want ready) = queue at hsplit howned ⊢
      have hlive : (d.port.moved out want taken queue).live.drop d.port.live.length =
          framesOf taken := List.drop_left
      refine ⟨howned, fun rx hrx ↦ ?_, ?_, fun p hp ↦ ?_, ?_, ?_⟩
      · exact h.queued rx (hsplit ▸ List.mem_append_right _ hrx)
      · dsimp only
        rw [hlive, List.map_append, h.shown, List.map_map]
        exact congrArg (d.port.live ++ ·) (List.map_id _)
      · dsimp only at hp
        rw [hlive] at hp
        rcases List.mem_append.mp hp with hold | hnew
        · exact h.kept p hold
        · obtain ⟨frame, hframe, rfl⟩ := List.mem_map.mp hnew
          obtain ⟨rx, hrx, -, rfl⟩ := mem_framesOf hframe
          exact ⟨h.queued rx (hsplit ▸ List.mem_append_left _ hrx), rfl⟩
      · dsimp only
        rw [hlive, h.account, waiting, hsplit, framesOf_append, List.map_append,
          ← List.append_assoc]
        rfl
      · refine h.counted.trans ?_
        rw [hsplit, chainedOf_append, List.length_append, UInt64.ofNat_add, ← UInt64.add_assoc]
        rfl

theorem Intact.next (hnodup : mbufs.Nodup) (h : d.Intact rooms mbufs) {ev : Event}
    (hnext : d.next rooms ev = some d') : d'.Intact rooms mbufs := by
  cases ev with
  | receive mbuf rest data bytes => exact h.receive hnodup hnext
  | scribble mbuf addr bytes =>
      simp only [Arrivals.next] at hnext
      split_ifs at hnext with hwrite
      cases hnext
      exact h.write hnodup hwrite.1 hwrite.2
  | poll spare =>
      obtain ⟨port, hport, rfl⟩ := Option.map_eq_some_iff.mp hnext
      have howned := h.owned.step hnodup hport
      simp only [Port.next] at hport
      split at hport
      · cases hport
        exact ⟨howned, h.queued, h.shown, h.kept, h.account, h.counted⟩
      · cases hport
  | turn ready => exact h.turn hnodup hnext
  | drop i =>
      obtain ⟨port, hport, rfl⟩ := Option.map_eq_some_iff.mp hnext
      have howned := h.owned.step hnodup hport
      simp only [Port.next] at hport
      split at hport
      · cases hport
        refine ⟨howned, h.queued, ?_, fun p hp ↦ ?_, h.account, h.counted⟩
        · dsimp only
          rw [← h.shown, List.eraseIdx_map]
        · exact h.kept p ((List.eraseIdx_sublist _ _).subset hp)
      · cases hport

/-- For every interleaving of the port, the polls and the drops: each mbuf is in one place; a frame
keeps its bytes for as long as the caller has it; what came in one mbuf is what was handed out and
what is on the queue, in order, and what came in several is counted, up to the wrap of the counter.
A poll in progress can always go on. -/
theorem frames_in_order {burst : NonZeroU16} {mem : Memory} (hnodup : mbufs.Nodup)
    (hrun : (machine rooms).Run (fun _ _ ↦ True) (start burst mbufs mem) d) :
    (d.port.pool ++ d.port.inQueue ++ d.port.inFrames).Perm mbufs ∧
    d.shown.map Prod.fst = d.port.live ∧ (∀ p ∈ d.shown, d.bytes p.1 = p.2) ∧
    d.wire = d.handed ++ d.waiting ∧
    UInt64.ofNat d.chained =
      d.port.driver.truncated + UInt64.ofNat (chainedOf d.port.queue).length ∧
    (d.port.polling ≠ none → ∀ ready, (d.next rooms (.turn ready)).isSome) := by
  have h : d.Intact rooms mbufs := hrun.invariant (I := Intact rooms mbufs)
    (.start burst mbufs mem) fun _ _ _ h _ hnext ↦ h.next hnodup hnext
  refine ⟨h.owned.perm, h.shown, fun p hp ↦ (h.kept p hp).2, h.account, h.counted, ?_⟩
  intro hpolling ready
  obtain ⟨⟨out, want⟩, hsome⟩ := Option.ne_none_iff_exists'.mp hpolling
  have hturn := Port.next_turn hsome h.owned.sized (h.owned.want_le out want hsome) ready
  rw [next, hturn]
  rfl

/-- Data rooms of 128 bytes, one after the other. -/
def sampleRooms : Rooms where
  home m := 128 * m
  size := 128
  apart m m' hne := by omega

/-- A frame is handed out and read again after the port has used the other mbufs, one of two
chained. -/
theorem frames_in_order_chained : ∃ d,
    (machine sampleRooms).Run (fun _ _ ↦ True) (start ⟨2, by decide⟩ [1, 2, 3] ⟨fun _ ↦ 0⟩) d ∧
    (∃ p ∈ d.shown, d.bytes p.1 = [7, 8]) ∧ d.wire = [[7, 8]] ++ d.waiting ∧
    UInt64.ofNat d.chained = 1 := by
  have hend : ∃ d ∈ Machine.follow (next sampleRooms)
      (start ⟨2, by decide⟩ [1, 2, 3] ⟨fun _ ↦ 0⟩)
      [.scribble 3 400 [5, 5], .receive 3 [] 400 [7, 8], .receive 1 [2] 130 [9], .poll 4, .turn 2,
        .scribble 1 130 [4, 4]],
      (∃ p ∈ d.shown, p.2 = [7, 8]) ∧ d.handed = [[7, 8]] ∧ d.port.queue.length = 0 ∧
      d.port.driver.truncated = 1 := by
    decide +kernel
  obtain ⟨d, hd, ⟨p, hp, hshown⟩, hhanded, hqueue, htruncated⟩ := hend
  have hrun : (machine sampleRooms).Run (fun _ _ ↦ True) _ d :=
    .of_follow (Machine.allowedAlong_of_forall (fun _ _ ↦ trivial) _ _) hd
  obtain ⟨-, -, hkept, haccount, hcounted, -⟩ := frames_in_order (by decide) hrun
  refine ⟨d, hrun, ⟨p, hp, (hkept p hp).trans hshown⟩, by rw [← hhanded]; exact haccount, ?_⟩
  rw [hcounted, htruncated, List.length_eq_zero_iff.mp hqueue]
  rfl

end Arrivals

end Dpdk
