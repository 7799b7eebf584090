import PolarisTrade.Bypass
import PolarisTrade.Dpdk.Settle

/-!
# The poll-mode driver

`poll_frames` takes bursts off the receive queue into its scratch arrays and settles them, until a
burst has a frame in it or the queue gives nothing.  The queue is the environment: the mbufs
waiting in it, and how many of them it is ready to give in each call.
-/

namespace Dpdk

open Transport Compact

/-- `NonZeroU16` -/
def NonZeroU16 := { n : ℕ // 0 < n ∧ n < 2 ^ 16 }

/-- A received mbuf as the shim describes it; pointers are names. -/
structure Rx where
  mbuf : ℕ
  data : ℕ
  len : UInt16
  nbSegs : UInt16

structure MbufFrame where
  mbuf : ℕ
  data : ℕ
  len : UInt16

/-- The driver, with its scratch arrays of `burst` entries each. -/
structure PmdDriver where
  burst : NonZeroU16
  mbufs : List ℕ
  data : List ℕ
  lens : List UInt16
  segs : List UInt16
  truncated : UInt64

/-- Where the mbufs of a call go. -/
structure Outlet where
  out : FrameBatch MbufFrame
  /-- given to `rte_pktmbuf_free_bulk` -/
  freed : List ℕ

/-- `rte_pktmbuf_free_bulk` of a slice, whose length is cast to a `c_uint`. -/
def freeBulk : OnSlice ℕ Outlet where
  call chained s :=
    some (chained, { s with freed := s.freed ++ chained.take (chained.length % 2 ^ 32) })
  length_eq h := by cases h; rfl

namespace PmdDriver

def new (burst : NonZeroU16) : PmdDriver where
  burst := burst
  mbufs := List.replicate burst.1 0
  data := List.replicate burst.1 0
  lens := List.replicate burst.1 0
  segs := List.replicate burst.1 0
  truncated := 0

/-- How many mbufs one call may take. -/
def want (d : PmdDriver) (out : FrameBatch MbufFrame) : ℕ :=
  if out.spare < 2 ^ 16 then min out.spare d.burst.1 else d.burst.1

/-- `polaris_dpdk_rx_burst` has written these to the scratch arrays. -/
def rxBurst (d : PmdDriver) (taken : List Rx) : PmdDriver :=
  { d with
    mbufs := onto (taken.map (·.mbuf)) d.mbufs
    data := onto (taken.map (·.data)) d.data
    lens := onto (taken.map (·.len)) d.lens
    segs := onto (taken.map (·.nbSegs)) d.segs }

/-- Push the frame of the mbuf at index `i`. -/
def deliver (d : PmdDriver) (i mbuf : ℕ) (s : Outlet) : Option Outlet :=
  match d.data[i]?, d.lens[i]? with
  | some data, some len => some { s with out := s.out.push ⟨mbuf, data, len⟩ }
  | _, _ => none

/-- Settle the first `n` mbufs of the scratch arrays; the number delivered. -/
def settleBurst (d : PmdDriver) (n : ℕ) (s : Outlet) : Option (ℕ × PmdDriver × Outlet) :=
  if n ≤ d.mbufs.length ∧ n ≤ d.segs.length then
    match settle d.deliver freeBulk (d.mbufs.take n) (d.segs.take n) d.truncated s with
    | none => none
    | some r =>
        some
          (r.delivered, { d with mbufs := onto r.mbufs d.mbufs, truncated := r.truncated },
            r.state)
  else none

/-- One turn of the loop of `poll_frames`, in which the queue gives at most `ready` mbufs.  The
loop goes on when there is no outcome. -/
def turn (d : PmdDriver) (want ready : ℕ) (queue : List Rx) (s : Outlet) :
    Option (Option Polled × PmdDriver × List Rx × Outlet) :=
  let taken := queue.take (min want ready)
  let queue := queue.drop (min want ready)
  let d := d.rxBurst taken
  if taken.length = 0 then some (some .idle, d, queue, s)
  else
    match d.settleBurst taken.length s with
    | none => none
    | some (delivered, d, s) =>
        -- a burst of only chained mbufs: the queue may hold more
        some (if 0 < delivered then some (.frames delivered) else none, d, queue, s)

/-- The loop of `poll_frames`; the queue gives nothing after the last of `readies`. -/
def pollLoop (want : ℕ) : List ℕ → PmdDriver → List Rx → Outlet →
    Option (Polled × PmdDriver × List Rx × Outlet)
  | [], d, queue, s => some (.idle, d.rxBurst [], queue, s)
  | ready :: readies, d, queue, s =>
      match d.turn want ready queue s with
      | none => none
      | some (some polled, d, queue, s) => some (polled, d, queue, s)
      | some (none, d, queue, s) => pollLoop want readies d queue s

def pollFrames (d : PmdDriver) (readies : List ℕ) (queue : List Rx)
    (out : FrameBatch MbufFrame) : Option (Polled × PmdDriver × List Rx × Outlet) :=
  pollLoop (d.want out) readies d queue { out := out, freed := [] }

theorem want_eq (d : PmdDriver) (out : FrameBatch MbufFrame) :
    d.want out = min out.spare d.burst.1 := by
  have hburst := d.burst.2.2
  unfold want
  split
  · rfl
  · omega

end PmdDriver

/-! ## One burst -/

/-- The frames of the single-segment mbufs of a burst. -/
def framesOf (taken : List Rx) : List MbufFrame :=
  (taken.filter fun rx ↦ decide (rx.nbSegs ≤ 1)).map fun rx ↦ ⟨rx.mbuf, rx.data, rx.len⟩

/-- The chained mbufs of a burst. -/
def chainedOf (taken : List Rx) : List ℕ :=
  (taken.filter fun rx ↦ decide (1 < rx.nbSegs)).map (·.mbuf)

/-- The outlet after the mbufs of a burst have gone through it. -/
def Outlet.pass (s : Outlet) (frames : List MbufFrame) (chained : List ℕ) : Outlet where
  out := { s.out with frames := s.out.frames ++ frames }
  freed := s.freed ++ chained

@[simp] theorem Outlet.pass_nil (s : Outlet) : s.pass [] [] = s := by
  rw [pass, List.append_nil, List.append_nil]

theorem Outlet.pass_pass (s : Outlet) (frames frames' : List MbufFrame)
    (chained chained' : List ℕ) : (s.pass frames chained).pass frames' chained' =
      s.pass (frames ++ frames') (chained ++ chained') := by
  simp only [pass, List.append_assoc]

theorem framesOf_cons_of_le {rx : Rx} (hsegs : rx.nbSegs ≤ 1) (taken : List Rx) :
    framesOf (rx :: taken) = ⟨rx.mbuf, rx.data, rx.len⟩ :: framesOf taken := by
  simp [framesOf, hsegs]

theorem framesOf_cons_of_not_le {rx : Rx} (hsegs : ¬rx.nbSegs ≤ 1) (taken : List Rx) :
    framesOf (rx :: taken) = framesOf taken := by
  simp [framesOf, hsegs]

theorem map_snd_chained (taken : List Rx) (i : ℕ) :
    (chained (taken.map (·.mbuf)) (taken.map (·.nbSegs)) i).map Prod.snd = chainedOf taken :=
  map_snd_pick_map _ _ taken i

theorem framesOf_append (taken rest : List Rx) :
    framesOf (taken ++ rest) = framesOf taken ++ framesOf rest := by
  rw [framesOf, List.filter_append, List.map_append, framesOf, framesOf]

theorem chainedOf_append (taken rest : List Rx) :
    chainedOf (taken ++ rest) = chainedOf taken ++ chainedOf rest := by
  rw [chainedOf, List.filter_append, List.map_append, chainedOf, chainedOf]

theorem map_snd_plain (taken : List Rx) (i : ℕ) :
    (plain (taken.map (·.mbuf)) (taken.map (·.nbSegs)) i).map Prod.snd =
      (framesOf taken).map (·.mbuf) := by
  rw [plain, map_snd_pick_map, framesOf, List.map_map]
  rfl

/-- Each mbuf of a burst is in a frame or is freed. -/
theorem framesOf_append_chainedOf_perm (taken : List Rx) :
    ((framesOf taken).map (·.mbuf) ++ chainedOf taken).Perm (taken.map (·.mbuf)) := by
  have hperm := @plain_append_chained_perm ℕ (taken.map (·.mbuf)) (taken.map (·.nbSegs))
    (by rw [List.length_map, List.length_map]) 0
  rwa [map_snd_plain, map_snd_chained] at hperm

theorem length_plain_eq (taken : List Rx) (i : ℕ) :
    (plain (taken.map (·.mbuf)) (taken.map (·.nbSegs)) i).length = (framesOf taken).length := by
  rw [← List.length_map Prod.snd, map_snd_plain, List.length_map]

theorem length_framesOf_add (taken : List Rx) :
    (framesOf taken).length + (chainedOf taken).length = taken.length := by
  simpa only [List.length_append, List.length_map] using
    (framesOf_append_chainedOf_perm taken).length_eq

theorem mem_framesOf {taken : List Rx} {frame : MbufFrame} (hframe : frame ∈ framesOf taken) :
    ∃ rx ∈ taken, rx.nbSegs ≤ 1 ∧ frame = ⟨rx.mbuf, rx.data, rx.len⟩ := by
  obtain ⟨rx, hrx, rfl⟩ := List.mem_map.mp hframe
  obtain ⟨hmem, hsegs⟩ := List.mem_filter.mp hrx
  exact ⟨rx, hmem, of_decide_eq_true hsegs, rfl⟩

namespace PmdDriver

variable {d d' : PmdDriver} {taken : List Rx} {s s' : Outlet}

/-- The scratch arrays have `burst` entries. -/
structure Sized (d : PmdDriver) : Prop where
  mbufs : d.mbufs.length = d.burst.1
  data : d.data.length = d.burst.1
  lens : d.lens.length = d.burst.1
  segs : d.segs.length = d.burst.1

theorem sized_new (burst : NonZeroU16) : (new burst).Sized :=
  ⟨List.length_replicate, List.length_replicate, List.length_replicate, List.length_replicate⟩

theorem Sized.rxBurst (h : d.Sized) (hfits : taken.length ≤ d.burst.1) :
    (d.rxBurst taken).Sized := by
  have hlength : ∀ {α : Type} (f : Rx → α) {xs : List α}, xs.length = d.burst.1 →
      (onto (taken.map f) xs).length = d.burst.1 := by
    intro α f xs hxs
    rw [length_onto, hxs]
    rw [List.length_map, hxs]
    exact hfits
  exact ⟨hlength _ h.mbufs, hlength _ h.data, hlength _ h.lens, hlength _ h.segs⟩

/-- Every frame is made of what the shim wrote for its mbuf. -/
theorem foldlM_deliver {i : ℕ} (hdata : ∀ j rx, taken[j]? = some rx →
      d.data[i + j]? = some rx.data ∧ d.lens[i + j]? = some rx.len) (s : Outlet) :
    (plain (taken.map (·.mbuf)) (taken.map (·.nbSegs)) i).foldlM
        (fun s e ↦ d.deliver e.1 e.2 s) s =
      some (s.pass (framesOf taken) []) := by
  induction taken generalizing i s with
  | nil => exact congrArg some s.pass_nil.symm
  | cons rx taken ih =>
      have hrest : ∀ j rx', taken[j]? = some rx' →
          d.data[i + 1 + j]? = some rx'.data ∧ d.lens[i + 1 + j]? = some rx'.len := by
        intro j rx' hrx'
        rw [Nat.add_assoc, Nat.add_comm 1 j]
        exact hdata (j + 1) rx' hrx'
      rw [List.map_cons, List.map_cons]
      by_cases hsegs : rx.nbSegs ≤ 1
      · obtain ⟨hread, hlen⟩ := hdata 0 rx rfl
        rw [Nat.add_zero] at hread hlen
        have hpush : d.deliver i rx.mbuf s = some (s.pass [⟨rx.mbuf, rx.data, rx.len⟩] []) := by
          rw [deliver, hread, hlen, Outlet.pass, List.append_nil]
          rfl
        rw [(plain_cons_of_le hsegs).1, List.foldlM_cons, hpush, Option.bind_eq_bind,
          Option.bind_some, ih hrest, Outlet.pass_pass, framesOf_cons_of_le hsegs]
        rfl
      · rw [(plain_cons_of_lt (UInt16.not_le.mp hsegs)).1, ih hrest, framesOf_cons_of_not_le hsegs]

/-- A burst is no longer than a `u16` count, so the cast of its length loses nothing. -/
theorem freeBulk_call {chained : List ℕ} (hchained : chained.length < 2 ^ 16) (s : Outlet) :
    freeBulk.call chained s = some (chained, s.pass [] chained) := by
  have hcast : chained.length % 2 ^ 32 = chained.length := Nat.mod_eq_of_lt (by omega)
  dsimp only [freeBulk]
  rw [hcast, List.take_length, Outlet.pass, List.append_nil]

theorem settle_rxBurst (hfits : taken.length < 2 ^ 16) (d : PmdDriver) (s : Outlet) :
    settle (d.rxBurst taken).deliver freeBulk (taken.map (·.mbuf)) (taken.map (·.nbSegs))
        d.truncated s =
      some ⟨(framesOf taken).length, onto (chainedOf taken) (taken.map (·.mbuf)),
        d.truncated + UInt64.ofNat (chainedOf taken).length,
        s.pass (framesOf taken) (chainedOf taken)⟩ := by
  have hcount := length_framesOf_add taken
  have hdata : ∀ j rx, taken[j]? = some rx →
      (d.rxBurst taken).data[0 + j]? = some rx.data ∧
        (d.rxBurst taken).lens[0 + j]? = some rx.len := by
    intro j rx hrx
    rw [Nat.zero_add]
    exact ⟨getElem?_onto_map _ hrx d.data, getElem?_onto_map _ hrx d.lens⟩
  have hlength : (taken.map (·.nbSegs)).length = (taken.map (·.mbuf)).length := by
    rw [List.length_map, List.length_map]
  rw [← length_plain_eq taken 0]
  apply settle_of_some hlength (map_snd_chained taken 0) (foldlM_deliver hdata s)
  · intro hnil
    rw [hnil]
  · intro _
    rw [freeBulk_call (by omega), Outlet.pass_pass, List.append_nil, List.nil_append]

/-- The driver after a turn that took these. -/
def after (d : PmdDriver) (taken : List Rx) : PmdDriver :=
  { d.rxBurst taken with
    mbufs := onto (onto (chainedOf taken) (taken.map (·.mbuf))) (d.rxBurst taken).mbufs
    truncated := d.truncated + UInt64.ofNat (chainedOf taken).length }

theorem after_nil (d : PmdDriver) : d.after [] = d.rxBurst [] :=
  congrArg (fun t ↦ { d.rxBurst [] with truncated := t }) (UInt64.add_zero d.truncated)

theorem Sized.after (h : d.Sized) (hfits : taken.length ≤ d.burst.1) : (d.after taken).Sized := by
  have hsized := h.rxBurst hfits
  have hcount := length_framesOf_add taken
  have hkept : (onto (chainedOf taken) (taken.map (·.mbuf))).length = taken.length := by
    rw [length_onto (by rw [List.length_map]; omega), List.length_map]
  refine ⟨?_, hsized.data, hsized.lens, hsized.segs⟩
  refine Eq.trans (length_onto ?_) hsized.mbufs
  rw [hkept, hsized.mbufs]
  exact hfits

/-- A burst leaves as frames and as freed mbufs. -/
theorem settleBurst_rxBurst (h : d.Sized) (hfits : taken.length ≤ d.burst.1) (s : Outlet) :
    (d.rxBurst taken).settleBurst taken.length s =
      some ((framesOf taken).length, d.after taken,
        s.pass (framesOf taken) (chainedOf taken)) := by
  have hsized := h.rxBurst hfits
  have hmbufs : (d.rxBurst taken).mbufs.take taken.length = taken.map (·.mbuf) :=
    take_onto_map _ taken d.mbufs
  have hsegs : (d.rxBurst taken).segs.take taken.length = taken.map (·.nbSegs) :=
    take_onto_map _ taken d.segs
  have hbounds : taken.length ≤ (d.rxBurst taken).mbufs.length ∧
      taken.length ≤ (d.rxBurst taken).segs.length := by
    rw [hsized.mbufs, hsized.segs]
    exact ⟨hfits, hfits⟩
  have htruncated : (d.rxBurst taken).truncated = d.truncated := rfl
  rw [settleBurst, if_pos hbounds, hmbufs, hsegs, htruncated,
    settle_rxBurst (hfits.trans_lt d.burst.2.2)]
  rfl

/-- What a turn that took these returns, if it ends the loop. -/
def outcome (taken : List Rx) : Option Polled :=
  if taken = [] then some .idle
  else if 0 < (framesOf taken).length then some (.frames (framesOf taken).length) else none

theorem turn_eq {want ready : ℕ} {queue : List Rx} (h : d.Sized) (hwant : want ≤ d.burst.1)
    (htaken : queue.take (min want ready) = taken) (s : Outlet) :
    d.turn want ready queue s =
      some (outcome taken, d.after taken, queue.drop (min want ready),
        s.pass (framesOf taken) (chainedOf taken)) := by
  have hle : taken.length ≤ want := by
    rw [← htaken, List.length_take]
    omega
  rw [turn, htaken, outcome]
  by_cases hempty : taken = []
  · subst hempty
    rw [after_nil]
    exact congrArg (fun s ↦ some (some Polled.idle, d.rxBurst [], _, s)) s.pass_nil.symm
  · rw [if_neg hempty, if_neg (mt List.length_eq_zero_iff.mp hempty),
      settleBurst_rxBurst h (hle.trans hwant)]

/-! ## What a poll says -/

/-- What the outcome says of the frames; a queue is never out of buffers. -/
def Tells (frames : List MbufFrame) (polled : Polled) : Prop :=
  polled.Agrees frames.length ∧ polled ≠ .exhausted

theorem outcome_sound {polled : Polled} (h : outcome taken = some polled) :
    Tells (framesOf taken) polled := by
  rw [outcome] at h
  split at h
  · next hempty =>
      cases h
      subst hempty
      refine ⟨rfl, fun h ↦ ?_⟩
      cases h
  · split at h
    · next hdelivered =>
        cases h
        refine ⟨⟨rfl, hdelivered⟩, fun h ↦ ?_⟩
        cases h
    · cases h

theorem framesOf_eq_nil_of_outcome (h : outcome taken = none) : framesOf taken = [] := by
  rw [outcome] at h
  split at h
  · cases h
  · split at h
    · cases h
    · next hdelivered => exact List.length_eq_zero_iff.mp (Nat.eq_zero_of_not_pos hdelivered)

end PmdDriver

end Dpdk
