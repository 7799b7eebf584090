import PolarisTrade.Afxdp.Driver

/-!
# Where the slots are

The driver, the caller's frames and the kernel together.  The kernel takes addresses off the
fill ring and publishes one descriptor for each chunk it holds, at any address of the chunk
and of any length; frames are dropped at any time, also between two turns of `pollFrames`.

Each slot is in one place: fill ring, kernel, receive ring, a live frame, the freed list of the
pool or the free list of the driver.
-/

namespace Afxdp

open Transport

/-- The driver with its pool, the slots the kernel holds and the live frames, each with the
descriptor it came from. -/
structure Xsk where
  rings : Rings
  pool : IndexPool
  kernel : List ℕ
  live : List (XdpDesc × IndexFrame)
  /-- the call of `pollFrames` in progress: its batch and the count pushed -/
  polling : Option (FrameBatch IndexFrame × ℕ)

namespace Xsk

inductive Event
  | refill
  | poll (cap : ℕ)
  | turn
  | drop (i : ℕ)
  | take
  | publish (desc : XdpDesc)

/-- The descriptors a turn takes that end inside their slot. -/
def framed (d : Xsk) (out : FrameBatch IndexFrame) : List XdpDesc :=
  (d.rings.rx.consume (Rings.room out)).1.filter (·.Inside d.rings.frameSize)

/-- One turn of `pollFrames`; the frames it pushes are live. -/
def turn (d : Xsk) (out : FrameBatch IndexFrame) (pushed : ℕ) : Xsk :=
  let (taken, rings, out', pushed') := d.rings.turn d.pool out pushed
  { d with
    rings := rings
    live := d.live ++ (d.framed out).zip (out'.frames.drop out.frames.length)
    polling := if taken = 0 ∨ 0 < pushed' ∨ out'.spare = 0 then none else some (out', pushed') }

def next (d : Xsk) : Event → Option Xsk
  | .refill =>
      match d.polling with
      | none =>
          let (rings, pool) := d.rings.refill d.pool
          some { d with rings := rings, pool := pool }
      | some _ => none
  | .poll cap =>
      match d.polling with
      | none => some { d with polling := some ({ frames := [], cap := cap }, 0) }
      | some _ => none
  | .turn =>
      match d.polling with
      | some (out, pushed) => some (d.turn out pushed)
      | none => none
  | .drop i =>
      match d.live[i]? with
      | some (_, frame) =>
          some { d with pool := d.pool.dropFrame frame, live := d.live.eraseIdx i }
      | none => none
  | .take =>
      let ring := d.rings.fill.ring
      if ring.consumer = ring.producer then none
      else
        some
          { d with
            rings :=
              { d.rings with
                fill :=
                  { d.rings.fill with ring := ring.storeConsumer (ring.consumer + 1) } }
            kernel := d.kernel ++ [ring.read ring.consumer / d.rings.frameSize] }
  | .publish desc =>
      let ring := d.rings.rx.ring
      let slot := desc.slot d.rings.frameSize
      if slot ∈ d.kernel then
        some
          { d with
            rings :=
              { d.rings with
                rx :=
                  { d.rings.rx with
                    ring :=
                      (ring.write ring.producer desc).storeProducer (ring.producer + 1) } }
            kernel := d.kernel.erase slot }
      else none

def machine : Machine Xsk Event := .ofNext next

/-- The driver as it is built, nothing handed to the kernel yet. -/
def start (fill : Ring ℕ) (rx : Ring XdpDesc) (frames frameSize : NonZeroU32) : Xsk where
  rings := .new (.new fill) (.new rx) frames frameSize
  pool := .new frames frameSize
  kernel := []
  live := []
  polling := none

/-! ## The six places -/

def inFill (d : Xsk) : List ℕ :=
  (d.rings.fill.ring.unread d.rings.fill.ring.consumer).map (· / d.rings.frameSize)

def inRx (d : Xsk) : List ℕ :=
  (d.rings.rx.ring.unread d.rings.rx.ring.consumer).map (·.slot d.rings.frameSize)

def inFrames (d : Xsk) : List ℕ := d.live.map (·.2.slot)

/-- The slots of all six places together. -/
def slots (d : Xsk) : List ℕ :=
  d.inFill ++ d.kernel ++ d.inRx ++ d.inFrames ++ d.pool.freed ++ d.rings.free

/-- The frame covers the bytes of its descriptor, inside its own slot. -/
structure Covers (frames frameSize : ℕ) (desc : XdpDesc) (frame : IndexFrame) : Prop where
  slot_lt : frame.slot < frames
  start_eq : frame.start frameSize = desc.addr
  len_eq : frame.len = desc.len
  le_start : frame.slot * frameSize ≤ desc.addr
  end_le : desc.addr + desc.len ≤ (frame.slot + 1) * frameSize

/-- Conservation, with the contents of both rings. -/
structure Conserved (frames frameSize : NonZeroU32) (d : Xsk) (fillQ : List ℕ)
    (rxQ : List XdpDesc) : Prop where
  frames_eq : d.rings.frames = frames
  frameSize_eq : d.rings.frameSize = frameSize
  fill_size : d.rings.fill.ring.desc.length = frames
  rx_size : d.rings.rx.ring.desc.length = frames
  fill_holds : d.rings.fill.ring.Holds fillQ
  fill_prod : d.rings.fill.prod = d.rings.fill.ring.producer
  rx_holds : d.rings.rx.ring.Holds rxQ
  rx_cons : d.rings.rx.cons = d.rings.rx.ring.consumer
  freed_nil : d.rings.freed = []
  perm : (fillQ.map (· / frameSize.1) ++ d.kernel ++ rxQ.map (·.slot frameSize) ++ d.inFrames
    ++ d.pool.freed ++ d.rings.free).Perm (List.range frames)
  covers : ∀ p ∈ d.live, Covers frames frameSize p.1 p.2

variable {frames frameSize : NonZeroU32} {d d' : Xsk} {fillQ : List ℕ} {rxQ : List XdpDesc}

theorem Conserved.count (h : Conserved frames frameSize d fillQ rxQ) (s : ℕ) :
    (fillQ.map (· / frameSize.1)).count s + d.kernel.count s
      + (rxQ.map (·.slot frameSize)).count s + d.inFrames.count s + d.pool.freed.count s
      + d.rings.free.count s = (List.range frames).count s := by
  simpa only [List.count_append] using h.perm.count_eq s

theorem Conserved.length (h : Conserved frames frameSize d fillQ rxQ) :
    fillQ.length + d.kernel.length + rxQ.length + d.live.length + d.pool.freed.length
      + d.rings.free.length = frames := by
  simpa only [List.length_append, List.length_map, List.length_range, inFrames]
    using h.perm.length_eq

theorem Conserved.slot_lt (h : Conserved frames frameSize d fillQ rxQ) {desc : XdpDesc}
    (hdesc : desc ∈ rxQ) : desc.slot frameSize < frames.1 := by
  refine List.mem_range.mp (h.perm.subset ?_)
  simp only [List.mem_append]
  exact Or.inl (Or.inl (Or.inl (Or.inr (List.mem_map_of_mem hdesc))))

/-- `refill` hands every free slot to the kernel. -/
theorem Conserved.refill (h : Conserved frames frameSize d fillQ rxQ) :
    Conserved frames frameSize
      { d with rings := (d.rings.refill d.pool).1, pool := (d.rings.refill d.pool).2 }
      (fillQ ++ (d.rings.free ++ d.pool.freed).reverse.map (· * frameSize.1)) rxQ := by
  obtain ⟨hholds, hprod, hrest⟩ := Producer.produce_holds h.fill_holds h.fill_prod
    ((d.rings.free ++ d.pool.freed).reverse.map (· * d.rings.frameSize.1))
  have hroom : ((d.rings.free ++ d.pool.freed).reverse.map (· * d.rings.frameSize.1)).length
      ≤ d.rings.fill.ring.desc.length - fillQ.length := by
    have hlength := h.length
    rw [List.length_map, List.length_reverse, List.length_append, h.fill_size]
    omega
  rw [List.take_of_length_le hroom] at hholds
  rw [List.drop_of_length_le hroom] at hrest
  have hsize := Producer.length_desc_produce d.rings.fill
    ((d.rings.free ++ d.pool.freed).reverse.map (· * d.rings.frameSize.1))
  rw [Rings.refill_eq]
  -- only these facts of the ring written to matter
  generalize d.rings.fill.produce _ = produced at hholds hprod hrest hsize ⊢
  refine ⟨h.frames_eq, h.frameSize_eq, ?_, h.rx_size, ?_, hprod, h.rx_holds, h.rx_cons, rfl, ?_,
    h.covers⟩
  · exact hsize.trans h.fill_size
  · rw [← h.frameSize_eq]
    exact hholds
  · refine List.perm_iff_count.mpr fun s ↦ ?_
    have hcount := h.count s
    have hslots : ((d.rings.free ++ d.pool.freed).reverse.map (· * frameSize.1)).map
        (· / frameSize.1) = (d.rings.free ++ d.pool.freed).reverse := by
      rw [List.map_map]
      refine List.map_id'' (fun slot ↦ ?_) _
      exact Nat.mul_div_cancel _ frameSize.2.1
    rw [List.map_append, hslots, hrest, h.freed_nil]
    simp only [List.count_append, List.count_reverse, List.count_nil, inFrames, List.length_nil,
      List.take_zero] at hcount ⊢
    omega

theorem covers_toFrame {desc : XdpDesc} (hslot : desc.slot frameSize < frames.1)
    (hinside : desc.Inside frameSize) :
    Covers frames frameSize desc (desc.toFrame frameSize) := by
  have haddr : desc.addr / frameSize.1 * frameSize.1 + desc.addr % frameSize.1 = desc.addr :=
    Nat.div_add_mod' _ _
  refine ⟨hslot, haddr, rfl, Nat.div_mul_le_self _ _, ?_⟩
  change desc.addr + desc.len ≤ (desc.addr / frameSize.1 + 1) * frameSize.1
  unfold XdpDesc.Inside at hinside
  rw [Nat.add_mul]
  omega

/-- What a turn leaves when every descriptor it takes is in the region. -/
theorem turn_eq {out : FrameBatch IndexFrame} {descs : List XdpDesc} {rx : Consumer XdpDesc}
    (hconsume : d.rings.rx.consume (Rings.room out) = (descs, rx))
    (hslots : ∀ desc ∈ descs, desc.slot d.rings.frameSize < d.rings.frames.1) (pushed : ℕ) :
    (d.turn out pushed).rings =
      { d.rings with
        rx := rx
        truncated := d.rings.truncated +
          UInt64.ofNat (descs.filter (¬ ·.Inside d.rings.frameSize)).length
        free := d.rings.free ++ (descs.filter (¬ ·.Inside d.rings.frameSize)).map
          (·.slot d.rings.frameSize) } ∧
    (d.turn out pushed).live = d.live ++ (descs.filter (·.Inside d.rings.frameSize)).map
      fun desc ↦ (desc, desc.toFrame d.rings.frameSize) := by
  have hturn : d.rings.turn d.pool out pushed
      = (descs.length, descs.foldl (Rings.collect d.pool)
          ({ d.rings with rx := rx }, out, pushed)) := by
    rw [Rings.turn, hconsume]
  rw [Rings.foldl_collect d.pool descs { d.rings with rx := rx } out pushed hslots] at hturn
  rw [Xsk.turn, hturn, framed, hconsume]
  refine ⟨rfl, ?_⟩
  dsimp only
  rw [List.drop_left, List.map_prod_left_eq_zip]

/-- A turn of `pollFrames` moves the slots it takes to frames or to the free list. -/
theorem Conserved.turn (h : Conserved frames frameSize d fillQ rxQ)
    (out : FrameBatch IndexFrame) (pushed : ℕ) :
    Conserved frames frameSize (d.turn out pushed) fillQ
      (rxQ.drop (Rings.room out).toNat) := by
  obtain ⟨htaken, hholds, hcons⟩ := Consumer.consume_holds h.rx_holds h.rx_cons (Rings.room out)
  have hsize := Consumer.length_desc_consume d.rings.rx (Rings.room out)
  rcases hconsume : d.rings.rx.consume (Rings.room out) with ⟨descs, rx⟩
  rw [hconsume] at htaken hholds hcons hsize
  have hslots : ∀ desc ∈ descs, desc.slot frameSize < frames.1 := by
    intro desc hdesc
    rw [show descs = _ from htaken] at hdesc
    exact h.slot_lt (List.mem_of_mem_take hdesc)
  obtain ⟨hrings, hlive⟩ := turn_eq hconsume
    (by rw [h.frameSize_eq, h.frames_eq]; exact hslots) pushed
  rw [h.frameSize_eq] at hrings hlive
  have hpool : (d.turn out pushed).pool = d.pool := rfl
  have hkernel : (d.turn out pushed).kernel = d.kernel := rfl
  constructor
  case perm =>
    refine List.perm_iff_count.mpr fun s ↦ ?_
    have hcount := h.count s
    have hsplit := ((List.filter_append_perm (fun desc ↦ decide (XdpDesc.Inside frameSize desc))
      descs).map (·.slot frameSize.1)).count_eq s
    rw [← List.take_append_drop (Rings.room out).toNat rxQ, ← show descs = _ from htaken] at hcount
    rw [inFrames, hrings, hlive, hpool, hkernel]
    simp only [List.count_append, List.map_append, inFrames, List.map_map, decide_not]
      at hcount hsplit ⊢
    have hframes : (descs.filter fun desc ↦ decide (XdpDesc.Inside frameSize desc)).map
        ((fun p : XdpDesc × IndexFrame ↦ p.2.slot) ∘ fun desc ↦
          (desc, desc.toFrame frameSize))
        = (descs.filter fun desc ↦ decide (XdpDesc.Inside frameSize desc)).map
          (·.slot frameSize.1) := rfl
    rw [hframes]
    omega
  case covers =>
    intro p hp
    rw [hlive] at hp
    rcases List.mem_append.mp hp with hp | hp
    · exact h.covers p hp
    · obtain ⟨desc, hdesc, rfl⟩ := List.mem_map.mp hp
      obtain ⟨hmem, hinside⟩ := List.mem_filter.mp hdesc
      exact covers_toFrame (hslots desc hmem) (of_decide_eq_true hinside)
  all_goals rw [hrings]
  · exact h.frames_eq
  · exact h.frameSize_eq
  · exact h.fill_size
  · exact hsize.trans h.rx_size
  · exact h.fill_holds
  · exact h.fill_prod
  · exact hholds
  · exact hcons
  · exact h.freed_nil

theorem Conserved.drop (h : Conserved frames frameSize d fillQ rxQ) {i : ℕ} {desc : XdpDesc}
    {frame : IndexFrame} (hi : d.live[i]? = some (desc, frame)) :
    Conserved frames frameSize
      { d with pool := d.pool.dropFrame frame, live := d.live.eraseIdx i } fillQ rxQ where
  frames_eq := h.frames_eq
  frameSize_eq := h.frameSize_eq
  fill_size := h.fill_size
  rx_size := h.rx_size
  fill_holds := h.fill_holds
  fill_prod := h.fill_prod
  rx_holds := h.rx_holds
  rx_cons := h.rx_cons
  freed_nil := h.freed_nil
  perm := by
    obtain ⟨hlt, hget⟩ := List.getElem?_eq_some_iff.mp hi
    have hlive := ((List.getElem_cons_eraseIdx_perm hlt).map (·.2.slot))
    rw [hget] at hlive
    refine List.perm_iff_count.mpr fun s ↦ ?_
    have hcount := h.count s
    have hcount' := hlive.count_eq s
    simp only [List.count_append, inFrames, IndexPool.dropFrame, List.map_cons, List.count_cons,
      List.count_nil] at hcount hcount' ⊢
    omega
  covers p hp := h.covers p (List.mem_of_mem_eraseIdx hp)

theorem Conserved.poll (h : Conserved frames frameSize d fillQ rxQ)
    (polling : Option (FrameBatch IndexFrame × ℕ)) :
    Conserved frames frameSize { d with polling := polling } fillQ rxQ :=
  ⟨h.frames_eq, h.frameSize_eq, h.fill_size, h.rx_size, h.fill_holds, h.fill_prod, h.rx_holds,
    h.rx_cons, h.freed_nil, h.perm, h.covers⟩

/-- The kernel takes the oldest address of the fill ring. -/
theorem Conserved.take {addr : ℕ} (h : Conserved frames frameSize d (addr :: fillQ) rxQ) :
    Conserved frames frameSize
      { d with
        rings :=
          { d.rings with
            fill :=
              { d.rings.fill with
                ring := d.rings.fill.ring.storeConsumer (d.rings.fill.ring.consumer + 1) } }
        kernel := d.kernel ++
          [d.rings.fill.ring.read d.rings.fill.ring.consumer / d.rings.frameSize] } fillQ rxQ := by
  obtain ⟨hread, hholds⟩ := h.fill_holds.take
  refine ⟨h.frames_eq, h.frameSize_eq, h.fill_size, h.rx_size, hholds, h.fill_prod, h.rx_holds,
    h.rx_cons, h.freed_nil, ?_, h.covers⟩
  refine List.perm_iff_count.mpr fun s ↦ ?_
  have hcount := h.count s
  rw [hread, h.frameSize_eq]
  simp only [List.count_append, List.map_cons, List.count_cons, List.count_nil, inFrames]
    at hcount ⊢
  omega

/-- The kernel hands one of its chunks back. -/
theorem Conserved.publish {desc : XdpDesc} (h : Conserved frames frameSize d fillQ rxQ)
    (hdesc : desc.slot d.rings.frameSize ∈ d.kernel) :
    Conserved frames frameSize
      { d with
        rings :=
          { d.rings with
            rx :=
              { d.rings.rx with
                ring := (d.rings.rx.ring.write d.rings.rx.ring.producer desc).storeProducer
                  (d.rings.rx.ring.producer + 1) } }
        kernel := d.kernel.erase (desc.slot d.rings.frameSize) } fillQ (rxQ ++ [desc]) := by
  have hroom : rxQ.length < d.rings.rx.ring.desc.length := by
    have hlength := h.length
    have hkernel := List.length_pos_of_mem hdesc
    rw [h.rx_size]
    omega
  refine ⟨h.frames_eq, h.frameSize_eq, h.fill_size,
    (Ring.length_desc_write _ _ _).trans h.rx_size, h.fill_holds, h.fill_prod,
    h.rx_holds.put hroom desc, h.rx_cons, h.freed_nil, ?_, h.covers⟩
  refine List.perm_iff_count.mpr fun s ↦ ?_
  have hcount := h.count s
  have herase := (List.perm_cons_erase hdesc).count_eq s
  rw [h.frameSize_eq] at herase ⊢
  simp only [List.count_append, List.map_append, List.map_cons, List.map_nil, List.count_cons,
    List.count_nil, inFrames] at hcount herase ⊢
  omega

theorem Conserved.next {ev : Event} (h : Conserved frames frameSize d fillQ rxQ)
    (hnext : d.next ev = some d') : ∃ fillQ rxQ, Conserved frames frameSize d' fillQ rxQ := by
  cases ev with
  | refill =>
      simp only [Xsk.next] at hnext
      split at hnext
      · cases hnext
        exact ⟨_, _, h.refill⟩
      · cases hnext
  | poll cap =>
      simp only [Xsk.next] at hnext
      split at hnext
      · cases hnext
        exact ⟨_, _, h.poll _⟩
      · cases hnext
  | turn =>
      simp only [Xsk.next] at hnext
      split at hnext
      · cases hnext
        exact ⟨_, _, h.turn _ _⟩
      · cases hnext
  | drop i =>
      simp only [Xsk.next] at hnext
      split at hnext
      · next hi =>
          cases hnext
          exact ⟨_, _, h.drop hi⟩
      · cases hnext
  | take =>
      simp only [Xsk.next] at hnext
      split at hnext
      · cases hnext
      · next hne =>
          cases hnext
          cases fillQ with
          | nil => exact (hne h.fill_holds.consumer_eq_of_nil).elim
          | cons addr fillQ => exact ⟨_, _, h.take⟩
  | publish desc =>
      simp only [Xsk.next] at hnext
      split at hnext
      · next hdesc =>
          cases hnext
          exact ⟨_, _, h.publish hdesc⟩
      · cases hnext

theorem Conserved.start {fill : Ring ℕ} {rx : Ring XdpDesc} (hfill : fill.producer = fill.consumer)
    (hrx : rx.producer = rx.consumer) (hfillSize : fill.desc.length = frames.1)
    (hrxSize : rx.desc.length = frames.1) :
    Conserved frames frameSize (start fill rx frames frameSize) [] [] where
  frames_eq := rfl
  frameSize_eq := rfl
  fill_size := hfillSize
  rx_size := hrxSize
  fill_holds := .new hfill
  fill_prod := rfl
  rx_holds := .new hrx
  rx_cons := rfl
  freed_nil := rfl
  perm := .refl _
  covers := nofun

theorem turn_of_turn {out out' : FrameBatch IndexFrame} {pushed pushed' taken : ℕ} {rings : Rings}
    (hturn : d.rings.turn d.pool out pushed = (taken, rings, out', pushed')) :
    (d.turn out pushed).rings = rings ∧ (d.turn out pushed).polling =
      if taken = 0 ∨ 0 < pushed' ∨ out'.spare = 0 then none else some (out', pushed') := by
  rw [Xsk.turn, hturn]
  exact ⟨rfl, rfl⟩

/-- The loop of `pollFrames` is a run of its turns. -/
theorem follow_pollLoop : ∀ (fuel : ℕ) (d : Xsk) (out out' : FrameBatch IndexFrame)
    (pushed pushed' : ℕ) (rings : Rings), d.polling = some (out, pushed) →
    Rings.pollLoop d.pool fuel d.rings out pushed = some (rings, out', pushed') →
    ∃ n d', Machine.follow Xsk.next d (List.replicate n .turn) = some d' ∧
      d'.rings = rings ∧ d'.polling = none := by
  intro fuel
  induction fuel with
  | zero =>
      intro d out out' pushed pushed' rings _ hloop
      cases hloop
  | succ fuel ih =>
      intro d out out' pushed pushed' rings hpolling hloop
      have hnext : d.next .turn = some (d.turn out pushed) := by simp only [next, hpolling]
      rcases hturn : d.rings.turn d.pool out pushed with ⟨taken, rings₁, out₁, pushed₁⟩
      obtain ⟨hrings, hpolling₁⟩ := turn_of_turn hturn
      have hpool : (d.turn out pushed).pool = d.pool := rfl
      rw [Rings.pollLoop, hturn] at hloop
      dsimp only at hloop
      split at hloop
      · next hends =>
          refine ⟨1, d.turn out pushed, ?_, ?_, ?_⟩
          · rw [List.replicate_one, Machine.follow, hnext]
            rfl
          · cases hloop
            exact hrings
          · rw [hpolling₁, if_pos hends]
      · next hgoes =>
          rw [if_neg hgoes] at hpolling₁
          rw [← hrings, ← hpool] at hloop
          obtain ⟨n, d', hfollow, hd'⟩ := ih (d.turn out pushed) _ _ _ _ _ hpolling₁ hloop
          refine ⟨n + 1, d', ?_, hd'⟩
          rw [List.replicate_succ, Machine.follow, hnext]
          exact hfollow

/-- A call of `pollFrames` that nothing comes between. -/
theorem follow_pollFrames {cap : ℕ} (hpolling : d.polling = none) :
    ∃ rings out pushed n d',
      d.rings.pollFrames d.pool { frames := [], cap := cap } = some (rings, out, pushed) ∧
      Machine.follow Xsk.next d (.poll cap :: List.replicate n .turn) = some d' ∧
      d'.rings = rings ∧ d'.polling = none := by
  obtain ⟨⟨rings, out, pushed⟩, hpoll⟩ :=
    Option.isSome_iff_exists.mp (d.rings.isSome_pollFrames d.pool { frames := [], cap := cap })
  obtain ⟨n, d', hfollow, hd'⟩ := follow_pollLoop _
    { d with polling := some ({ frames := [], cap := cap }, 0) } _ _ _ _ _ rfl hpoll
  refine ⟨rings, out, pushed, n, d', hpoll, ?_, hd'⟩
  have hnext : d.next (.poll cap)
      = some { d with polling := some ({ frames := [], cap := cap }, 0) } := by
    simp only [next, hpolling]
  rw [Machine.follow, hnext]
  exact hfollow

/-- Conservation of slots.  In every run of the driver, its caller and the kernel each slot is
in one of the six places; the fill ring has room for all that is free; each live frame covers
the bytes of the descriptor it came from. -/
theorem slots_conserved {fill : Ring ℕ} {rx : Ring XdpDesc}
    (hfill : fill.producer = fill.consumer) (hrx : rx.producer = rx.consumer)
    (hfillSize : fill.desc.length = frames.1) (hrxSize : rx.desc.length = frames.1)
    (hrun : machine.Run (fun _ _ ↦ True) (start fill rx frames frameSize) d) :
    d.slots.Perm (List.range frames) ∧
    (d.rings.free ++ d.pool.freed).length ≤ d.rings.fill.free ∧
    ∀ p ∈ d.live, Covers frames frameSize p.1 p.2 := by
  have hconserved : ∃ fillQ rxQ, Conserved frames frameSize d fillQ rxQ :=
    hrun.invariant (I := fun d ↦ ∃ fillQ rxQ, Conserved frames frameSize d fillQ rxQ)
      ⟨_, _, .start hfill hrx hfillSize hrxSize⟩ fun _ _ _ ⟨_, _, h⟩ _ hnext ↦ h.next hnext
  obtain ⟨fillQ, rxQ, h⟩ := hconserved
  refine ⟨?_, ?_, h.covers⟩
  · rw [slots, inFill, inRx, h.fill_holds.unread_eq, h.rx_holds.unread_eq, h.frameSize_eq]
    exact h.perm
  · have hlength := h.length
    rw [h.fill_holds.free_eq h.fill_prod, List.length_append, h.fill_size]
    omega

def sampleFrames : NonZeroU32 := ⟨4, by decide⟩

def sampleFrameSize : NonZeroU32 := ⟨2048, by decide⟩

/-- Three chunks come back, one of them overrun: the first turn frees its slot and pushes two
frames, and the next `refill` hands it out again while one frame is held. -/
theorem slots_conserved_overrun :
    ∃ d ∈ Machine.follow next
        (start (sampleRing 0) (sampleRing ⟨0, 0⟩) sampleFrames sampleFrameSize)
        [.refill, .take, .take, .take, .publish ⟨3 * 2048 + 256, 60⟩,
          .publish ⟨2 * 2048 + 256, 2048⟩, .publish ⟨2048 + 320, 40⟩, .poll 8, .turn, .drop 0,
          .refill],
      d.inFill = [0, 3, 2] ∧ d.inFrames = [1] ∧
      d.slots.Perm (List.range 4) ∧
      (d.rings.free ++ d.pool.freed).length ≤ d.rings.fill.free ∧
      ∀ p ∈ d.live, Covers 4 2048 p.1 p.2 := by
  have hend : ∃ d ∈ Machine.follow next
        (start (sampleRing 0) (sampleRing ⟨0, 0⟩) sampleFrames sampleFrameSize)
        [.refill, .take, .take, .take, .publish ⟨3 * 2048 + 256, 60⟩,
          .publish ⟨2 * 2048 + 256, 2048⟩, .publish ⟨2048 + 320, 40⟩, .poll 8, .turn, .drop 0,
          .refill],
      d.inFill = [0, 3, 2] ∧ d.inFrames = [1] := by decide +kernel
  obtain ⟨d, hd, hfill, hframes⟩ := hend
  exact ⟨d, hd, hfill, hframes, slots_conserved rfl rfl rfl rfl
    (.of_follow (Machine.allowedAlong_of_forall (fun _ _ ↦ trivial) _ _) hd)⟩

end Xsk

end Afxdp
