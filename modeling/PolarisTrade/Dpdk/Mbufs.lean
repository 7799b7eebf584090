import PolarisTrade.Dpdk.Driver
import PolarisTrade.Lib.Machine

/-!
# Where the mbufs are

The driver with the memory pool, the receive queue and the caller's frames.  The port takes mbufs
off the pool, chains them to a packet and puts it on the queue; frames are dropped at any time.
Both may happen between two turns of one poll.

Each mbuf is in one place: the pool, a packet of the queue or a live frame.
-/

namespace Dpdk

open Transport

structure Port where
  driver : PmdDriver
  pool : List ℕ
  /-- the segments after the first of a packet, by its first mbuf -/
  rest : ℕ → List ℕ
  queue : List Rx
  live : List MbufFrame
  /-- the call of `poll_frames` in progress: its batch and what it wants -/
  polling : Option (FrameBatch MbufFrame × ℕ)

namespace Port

inductive Event
  | arrive (mbuf : ℕ) (rest : List ℕ) (data : ℕ) (len : UInt16)
  | poll (spare : ℕ)
  | turn (ready : ℕ)
  | drop (i : ℕ)

/-- The mbufs that freeing a packet gives back. -/
def segments (p : Port) (mbuf : ℕ) : List ℕ := mbuf :: p.rest mbuf

def next (p : Port) : Event → Option Port
  | .arrive mbuf rest data len =>
      if (mbuf :: rest).Subperm p.pool ∧ rest.length + 1 < 2 ^ 16 then
        some
          { p with
            pool := p.pool.diff (mbuf :: rest)
            rest := Function.update p.rest mbuf rest
            queue := p.queue ++ [⟨mbuf, data, len, UInt16.ofNat (rest.length + 1)⟩] }
      else none
  | .poll spare =>
      match p.polling with
      | none =>
          let out : FrameBatch MbufFrame := { frames := [], cap := spare }
          some { p with polling := some (out, p.driver.want out) }
      | some _ => none
  | .turn ready =>
      match p.polling with
      | none => none
      | some (out, want) =>
          match p.driver.turn want ready p.queue ⟨out, []⟩ with
          | none => none
          | some (polled, driver, queue, s) =>
              some
                { p with
                  driver := driver
                  pool := p.pool ++ s.freed.flatMap p.segments
                  queue := queue
                  live := p.live ++ s.out.frames.drop out.frames.length
                  polling := if polled.isSome then none else some (s.out, want) }
  | .drop i =>
      match p.live[i]? with
      | some frame =>
          some { p with pool := p.pool ++ p.segments frame.mbuf, live := p.live.eraseIdx i }
      | none => none

/-- A new driver, with every mbuf in the pool. -/
def start (burst : NonZeroU16) (mbufs : List ℕ) : Port where
  driver := .new burst
  pool := mbufs
  rest _ := []
  queue := []
  live := []
  polling := none

/-! ## One turn -/

variable {p p' : Port}

/-- The port after a turn that took these off the queue. -/
def moved (p : Port) (out : FrameBatch MbufFrame) (want : ℕ) (taken queue : List Rx) : Port :=
  { p with
    driver := p.driver.after taken
    pool := p.pool ++ (chainedOf taken).flatMap p.segments
    queue := queue
    live := p.live ++ framesOf taken
    polling :=
      if (PmdDriver.outcome taken).isSome then none
      else some ({ out with frames := out.frames ++ framesOf taken }, want) }

theorem next_turn {out : FrameBatch MbufFrame} {want : ℕ} (hpolling : p.polling = some (out, want))
    (hsized : p.driver.Sized) (hwant : want ≤ p.driver.burst.1) (ready : ℕ) :
    p.next (.turn ready) =
      some (p.moved out want (p.queue.take (min want ready)) (p.queue.drop (min want ready))) := by
  rw [next, hpolling]
  dsimp only
  rw [PmdDriver.turn_eq hsized hwant rfl, moved]
  dsimp only [Outlet.pass]
  rw [List.drop_left, List.nil_append]

/-! ## The three places -/

def inQueue (p : Port) : List ℕ := (p.queue.map (·.mbuf)).flatMap p.segments

def inFrames (p : Port) : List ℕ := (p.live.map (·.mbuf)).flatMap p.segments

structure Owned (mbufs : List ℕ) (p : Port) : Prop where
  perm : (p.pool ++ p.inQueue ++ p.inFrames).Perm mbufs
  /-- the segment count of a packet on the queue is right -/
  nbSegs_eq : ∀ rx ∈ p.queue, rx.nbSegs.toNat = (p.rest rx.mbuf).length + 1
  /-- no frame has a chained mbuf -/
  rest_nil : ∀ frame ∈ p.live, p.rest frame.mbuf = []
  sized : p.driver.Sized
  want_le : ∀ out want, p.polling = some (out, want) → want ≤ p.driver.burst.1

variable {mbufs : List ℕ}

theorem owned_start (burst : NonZeroU16) (mbufs : List ℕ) : (start burst mbufs).Owned mbufs where
  perm := by
    rw [inQueue, inFrames]
    exact List.Perm.of_eq (by simp [start])
  nbSegs_eq rx hrx := absurd hrx List.not_mem_nil
  rest_nil frame hframe := absurd hframe List.not_mem_nil
  sized := PmdDriver.sized_new burst
  want_le out want h := by cases h

theorem Owned.count (h : p.Owned mbufs) (m : ℕ) :
    p.pool.count m + p.inQueue.count m + p.inFrames.count m = mbufs.count m := by
  simpa only [List.count_append] using h.perm.count_eq m

/-- What is in the pool is nowhere else, so it can be freed by nobody. -/
theorem Owned.notMem_of_mem_pool (hnodup : mbufs.Nodup) (h : p.Owned mbufs) {m : ℕ}
    (hm : m ∈ p.pool) : m ∉ p.inQueue ∧ m ∉ p.inFrames := by
  have hcount := h.count m
  have hle := List.nodup_iff_count_le_one.mp hnodup m
  have hpos := List.count_pos_iff.mpr hm
  constructor
  · exact List.count_eq_zero.mp (by omega)
  · exact List.count_eq_zero.mp (by omega)

/-- Packets that do not hold `mbuf` keep their segments when it starts a new one. -/
theorem update_of_notMem {heads : List ℕ} {mbuf : ℕ} (hmbuf : mbuf ∉ heads.flatMap p.segments)
    (rest : List ℕ) : ∀ m ∈ heads, Function.update p.rest mbuf rest m = p.rest m := by
  intro m hm
  apply Function.update_of_ne
  rintro rfl
  exact hmbuf (List.mem_flatMap.mpr ⟨m, hm, List.mem_cons_self⟩)

theorem flatMap_update {heads : List ℕ} {mbuf : ℕ} (hmbuf : mbuf ∉ heads.flatMap p.segments)
    (rest : List ℕ) :
    heads.flatMap (fun m ↦ m :: Function.update p.rest mbuf rest m) = heads.flatMap p.segments :=
  List.flatMap_congr fun m hm ↦ congrArg (List.cons m) (update_of_notMem hmbuf rest m hm)

/-- The packet that arrives is made of mbufs of the pool, so it leaves all other packets alone. -/
theorem Owned.arrive (hnodup : mbufs.Nodup) (h : p.Owned mbufs) {mbuf : ℕ} {rest : List ℕ}
    (hpool : (mbuf :: rest).Subperm p.pool) (hlength : rest.length + 1 < 2 ^ 16) (data : ℕ)
    (len : UInt16) :
    Owned mbufs
      { p with
        pool := p.pool.diff (mbuf :: rest)
        rest := Function.update p.rest mbuf rest
        queue := p.queue ++ [⟨mbuf, data, len, UInt16.ofNat (rest.length + 1)⟩] } := by
  obtain ⟨hqueue, hframes⟩ :=
    h.notMem_of_mem_pool hnodup (hpool.subset List.mem_cons_self)
  refine ⟨?_, ?_, ?_, h.sized, h.want_le⟩
  · refine List.perm_iff_count.mpr fun m ↦ ?_
    have hcount := h.count m
    have hle := hpool.count_le m
    have hinQueue := flatMap_update hqueue rest
    have hinFrames := flatMap_update hframes rest
    simp only [inQueue, inFrames, segments, List.map_append, List.map_singleton,
      List.flatMap_append, List.flatMap_singleton, List.count_append, Function.update_self,
      List.count_diff]
    change _ + (List.count m (List.flatMap (fun m ↦ m :: Function.update p.rest mbuf rest m) _) + _)
      + List.count m (List.flatMap (fun m ↦ m :: Function.update p.rest mbuf rest m) _) = _
    rw [hinQueue, hinFrames]
    change _ + (p.inQueue.count m + _) + p.inFrames.count m = _
    omega
  · intro rx hrx
    rcases List.mem_append.mp hrx with hrx | hrx
    · have hkept := update_of_notMem hqueue rest rx.mbuf (List.mem_map_of_mem hrx)
      exact (h.nbSegs_eq rx hrx).trans (congrArg (·.length + 1) hkept.symm)
    · obtain rfl := List.mem_singleton.mp hrx
      dsimp only
      rw [Function.update_self, UInt16.toNat_ofNat_of_lt' hlength]
  · intro frame hframe
    have hkept := update_of_notMem hframes rest frame.mbuf (List.mem_map_of_mem hframe)
    exact hkept.trans (h.rest_nil frame hframe)

theorem Owned.poll (h : p.Owned mbufs) (out : FrameBatch MbufFrame) :
    Owned mbufs { p with polling := some (out, p.driver.want out) } := by
  refine ⟨h.perm, h.nbSegs_eq, h.rest_nil, h.sized, ?_⟩
  rintro _ _ ⟨⟩
  rw [PmdDriver.want_eq]
  exact Nat.min_le_right _ _

/-- A turn takes its packets to frames or back to the pool. -/
theorem Owned.moved (h : p.Owned mbufs) {want : ℕ} {taken queue : List Rx}
    (hqueue : p.queue = taken ++ queue) (hfits : taken.length ≤ p.driver.burst.1)
    (hwant : want ≤ p.driver.burst.1) (out : FrameBatch MbufFrame) :
    (p.moved out want taken queue).Owned mbufs := by
  refine ⟨?_, ?_, ?_, h.sized.after hfits, ?_⟩
  · refine List.perm_iff_count.mpr fun m ↦ ?_
    have hcount := h.count m
    have hsplit := ((framesOf_append_chainedOf_perm taken).flatMap_right p.segments).count_eq m
    rw [inQueue, inFrames, hqueue] at hcount
    simp only [inQueue, inFrames, Port.moved, List.map_append, List.flatMap_append,
      List.count_append] at hcount hsplit ⊢
    change p.pool.count m + ((chainedOf taken).flatMap p.segments).count m
      + ((queue.map (·.mbuf)).flatMap p.segments).count m
      + (((p.live.map (·.mbuf)).flatMap p.segments).count m
        + (((framesOf taken).map (·.mbuf)).flatMap p.segments).count m) = _
    omega
  · intro rx hrx
    apply h.nbSegs_eq
    rw [hqueue]
    exact List.mem_append_right _ hrx
  · intro frame hframe
    rcases List.mem_append.mp hframe with hframe | hframe
    · exact h.rest_nil frame hframe
    · obtain ⟨rx, hrx, hsegs, rfl⟩ := mem_framesOf hframe
      have hcount := h.nbSegs_eq rx (hqueue ▸ List.mem_append_left _ hrx)
      have hle : rx.nbSegs.toNat ≤ 1 := hsegs
      apply List.length_eq_zero_iff.mp
      change (p.rest rx.mbuf).length = 0
      omega
  · intro out' want' hpolling
    rw [Port.moved] at hpolling
    split at hpolling
    · cases hpolling
    · cases hpolling
      exact hwant

/-- A frame that is dropped gives its one mbuf back. -/
theorem Owned.drop (h : p.Owned mbufs) {i : ℕ} {frame : MbufFrame}
    (hi : p.live[i]? = some frame) :
    Owned mbufs { p with pool := p.pool ++ p.segments frame.mbuf, live := p.live.eraseIdx i } := by
  refine ⟨?_, h.nbSegs_eq, fun frame hframe ↦ h.rest_nil frame (List.mem_of_mem_eraseIdx hframe),
    h.sized, h.want_le⟩
  obtain ⟨hlt, hget⟩ := List.getElem?_eq_some_iff.mp hi
  have hlive := ((List.getElem_cons_eraseIdx_perm hlt).map (·.mbuf)).flatMap_right p.segments
  rw [hget, List.map_cons, List.flatMap_cons] at hlive
  refine List.perm_iff_count.mpr fun m ↦ ?_
  have hcount := h.count m
  have hcount' := hlive.count_eq m
  simp only [inFrames, List.count_append] at hcount hcount' ⊢
  change p.pool.count m + (p.segments frame.mbuf).count m + p.inQueue.count m
    + (((p.live.eraseIdx i).map (·.mbuf)).flatMap p.segments).count m = _
  omega

/-- Every event keeps each mbuf in one place. -/
theorem Owned.step (hnodup : mbufs.Nodup) (h : p.Owned mbufs) {e : Event}
    (hstep : p.next e = some p') : p'.Owned mbufs := by
  cases e with
  | arrive mbuf rest data len =>
      rw [next] at hstep
      split at hstep
      · next harrive =>
          cases hstep
          exact h.arrive hnodup harrive.1 harrive.2 data len
      · cases hstep
  | poll spare =>
      rw [next] at hstep
      split at hstep
      · cases hstep
        exact h.poll _
      · cases hstep
  | turn ready =>
      cases hpolling : p.polling with
      | none =>
          rw [next, hpolling] at hstep
          cases hstep
      | some poll =>
          obtain ⟨out, want⟩ := poll
          have hwant := h.want_le out want hpolling
          have hfits : (p.queue.take (min want ready)).length ≤ want := by
            rw [List.length_take]
            omega
          rw [next_turn hpolling h.sized hwant] at hstep
          cases hstep
          exact h.moved (List.take_append_drop _ _).symm (hfits.trans hwant) hwant out
  | drop i =>
      rw [next] at hstep
      split at hstep
      · next frame hi =>
          cases hstep
          exact h.drop hi
      · cases hstep

/-! ## Polls -/

/-- The loop of `poll_frames` is a run of its turns.  It never panics; it pushes the
single-segment mbufs in the order they came, no more than it wants, and says how many; the chained
ones are back in the pool. -/
theorem follow_pollLoop {want : ℕ} (readies : List ℕ) {out : FrameBatch MbufFrame}
    (hpolling : p.polling = some (out, want)) (hsized : p.driver.Sized)
    (hwant : want ≤ p.driver.burst.1) (freed : List ℕ) :
    ∃ (polled : Polled) (p' : Port) (taken : List Rx) (turns : List ℕ),
      PmdDriver.pollLoop want readies p.driver p.queue ⟨out, freed⟩ =
        some (polled, p'.driver, p'.queue,
          Outlet.pass ⟨out, freed⟩ (framesOf taken) (chainedOf taken)) ∧
      Machine.follow next p (turns.map .turn) = some p' ∧
      p'.live = p.live ++ framesOf taken ∧
      p'.pool = p.pool ++ (chainedOf taken).flatMap p.segments ∧ p'.polling = none ∧
      (framesOf taken).length ≤ want ∧ PmdDriver.Tells (framesOf taken) polled := by
  induction readies generalizing p out freed with
  | nil =>
      -- the call that gives nothing is a turn too
      refine ⟨.idle, p.moved out want [] p.queue, [], [0], ?_, ?_, rfl, rfl, rfl, Nat.zero_le _,
        PmdDriver.outcome_sound rfl⟩
      · rw [PmdDriver.pollLoop, moved, PmdDriver.after_nil]
        exact congrArg (fun s ↦ some (Polled.idle, _, _, s)) (Outlet.pass_nil _).symm
      · rw [List.map_singleton, Machine.follow, next_turn hpolling hsized hwant, Nat.min_zero]
        rfl
  | cons ready readies ih =>
      have hnext := next_turn hpolling hsized hwant ready
      generalize htaken : p.queue.take (min want ready) = taken at hnext
      have hle : taken.length ≤ want := by
        rw [← htaken, List.length_take]
        omega
      rw [PmdDriver.pollLoop, PmdDriver.turn_eq hsized hwant htaken]
      cases houtcome : PmdDriver.outcome taken with
      | some polled =>
          have hcount := length_framesOf_add taken
          refine ⟨polled, p.moved out want taken (p.queue.drop (min want ready)), taken, [ready],
            rfl, ?_, rfl, rfl, ?_, by omega, PmdDriver.outcome_sound houtcome⟩
          · rw [List.map_singleton, Machine.follow, hnext]
            rfl
          · rw [moved, houtcome]
            rfl
      | none =>
          have hgoes : (p.moved out want taken (p.queue.drop (min want ready))).polling =
              some ({ out with frames := out.frames ++ framesOf taken }, want) := by
            rw [moved, houtcome]
            rfl
          obtain ⟨polled, p', rest, turns, hloop, hfollow, hlive, hpool, hends, hsays⟩ :=
            ih hgoes (hsized.after (hle.trans hwant)) hwant (freed ++ chainedOf taken)
          refine ⟨polled, p', taken ++ rest, ready :: turns, ?_, ?_, ?_, ?_, hends, ?_⟩
          · rw [framesOf_append, chainedOf_append, ← Outlet.pass_pass]
            exact hloop
          · rw [List.map_cons, Machine.follow, hnext]
            exact hfollow
          · rw [hlive, framesOf_append, ← List.append_assoc]
            rfl
          · rw [hpool, chainedOf_append, List.flatMap_append, ← List.append_assoc]
            rfl
          · rw [framesOf_append, PmdDriver.framesOf_eq_nil_of_outcome houtcome, List.nil_append]
            exact hsays

/-- A call of `poll_frames` that nothing comes between. -/
theorem follow_pollFrames (readies : List ℕ) (hpolling : p.polling = none)
    (hsized : p.driver.Sized) (cap : ℕ) :
    ∃ (polled : Polled) (p' : Port) (taken : List Rx) (turns : List ℕ),
      p.driver.pollFrames readies p.queue { frames := [], cap := cap } =
        some (polled, p'.driver, p'.queue, ⟨⟨framesOf taken, cap⟩, chainedOf taken⟩) ∧
      Machine.follow next p (.poll cap :: turns.map .turn) = some p' ∧
      p'.live = p.live ++ framesOf taken ∧
      p'.pool = p.pool ++ (chainedOf taken).flatMap p.segments ∧ p'.polling = none ∧
      (framesOf taken).length ≤ cap ∧ PmdDriver.Tells (framesOf taken) polled := by
  have hwant := p.driver.want_eq { frames := [], cap := cap }
  obtain ⟨polled, p', taken, turns, hloop, hfollow, hlive, hpool, hends, hle, htells⟩ :=
    follow_pollLoop (p := { p with
        polling := some (⟨[], cap⟩, p.driver.want { frames := [], cap := cap }) }) readies rfl
      hsized (hwant ▸ Nat.min_le_right _ _) []
  refine ⟨polled, p', taken, turns, hloop, ?_, hlive, hpool, hends, ?_, htells⟩
  · rw [Machine.follow, next, hpolling]
    exact hfollow
  · exact hle.trans (hwant ▸ Nat.min_le_left _ _)

/-- A chained packet and a frame, taken in two turns of one poll. -/
example : ((Machine.follow next (start ⟨2, by decide⟩ [1, 2, 3])
    [.arrive 1 [2] 0 60, .arrive 3 [] 8 60, .poll 4, .turn 1, .turn 1, .drop 0]).map
      fun p ↦ (p.pool, p.live.length, p.driver.truncated)) = some ([1, 2, 3], 0, 1) := by
  decide +kernel

end Port

end Dpdk
