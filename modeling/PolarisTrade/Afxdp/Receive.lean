import PolarisTrade.Afxdp.Path

/-!
# A call of the receive stack

`recv_burst` of the decapsulation over the shell over the `AF_XDP` driver.  A call is a run of
`Path`: deliveries, a refill before each poll and the turns of the poll.  It returns, and when it
comes back without a datagram there is none: neither in a frame that waits nor in the ring.
-/

namespace Afxdp

open Transport

/-! ## The driver -/

/-- Descriptor of the bytes of a frame. -/
def frameDesc (size : ℕ) (frame : IndexFrame) : XdpDesc := ⟨frame.start size, frame.len⟩

/-- Frames with the descriptors they come from. -/
def paired (size : ℕ) (fresh : List IndexFrame) : List (XdpDesc × IndexFrame) :=
  fresh.map fun frame ↦ (frameDesc size frame, frame)

/-- The driver, with what the kernel answers to a wake-up: an error number or success. -/
structure XskDriver where
  xsk : Xsk
  wakeup : Except ℤ Unit
  syscalls : ℕ

namespace XskDriver

def eintr : ℤ := 4

def eagain : ℤ := 11

def ebusy : ℤ := 16

def enobufs : ℤ := 105

def wake (d : XskDriver) : Except TransportError Unit × XskDriver :=
  let d := { d with syscalls := d.syscalls + 1 }
  match d.wakeup with
  | .ok _ => (.ok (), d)
  | .error errno =>
      -- kinds `WouldBlock` and `Interrupted`, then the raw numbers
      if errno ∈ [eagain, eintr, ebusy, enobufs] then (.ok (), d) else (.error (.io .other), d)

def pollFrames (d : XskDriver) (out : FrameBatch IndexFrame) :
    Except TransportError Polled × XskDriver × FrameBatch IndexFrame :=
  let (refilled, pool) := d.xsk.rings.refill d.xsk.pool
  let (rings, filled, pushed) :=
    (refilled.pollFrames pool out).get (refilled.isSome_pollFrames pool out)
  let fresh := filled.frames.drop out.frames.length
  let d := { d with
    xsk := { d.xsk with
      rings := rings
      pool := pool
      live := d.xsk.live ++ paired refilled.frameSize fresh } }
  if 0 < pushed then (.ok (.frames pushed), d, filled)
  else if rings.fill.needsWakeup then
    match d.wake with
    | (.ok _, d) => (.ok .idle, d, filled)
    | (.error e, d) => (.error e, d, filled)
  else (.ok .idle, d, filled)

instance : Driver XskDriver IndexFrame where
  pollFrames := pollFrames
  poolStats d := ⟨d.xsk.live.length, d.xsk.pool.count⟩

theorem wake_eq (d : XskDriver) :
    d.wake = (d.wake.1, { d with syscalls := d.syscalls + 1 }) := by
  unfold wake
  dsimp only
  split
  · rfl
  · split_ifs <;> rfl

/-- Frames are never followed by an error: the kernel is woken only when none was pushed. -/
theorem pollFrames_cases {d : XskDriver} {out filled : FrameBatch IndexFrame} {pushed : ℕ}
    {refilled rings : Rings} {pool : IndexPool}
    (hrefill : d.xsk.rings.refill d.xsk.pool = (refilled, pool))
    (hpoll : refilled.pollFrames pool out = some (rings, filled, pushed)) :
    ∃ result syscalls, d.pollFrames out = (result,
        ⟨{ d.xsk with
            rings := rings
            pool := pool
            live := d.xsk.live ++
              paired refilled.frameSize (filled.frames.drop out.frames.length) },
          d.wakeup, syscalls⟩, filled) ∧
      (0 < pushed ∧ result = .ok (.frames pushed) ∨
        pushed = 0 ∧ (result = .ok .idle ∨ ∃ e, result = .error e)) := by
  unfold pollFrames
  simp only [hrefill, hpoll, Option.get_some]
  split_ifs with hpushed hwake
  · exact ⟨_, _, rfl, .inl ⟨hpushed, rfl⟩⟩
  · rw [wake_eq]
    generalize (wake _).1 = woken
    cases woken with
    | ok _ => exact ⟨_, _, rfl, .inr ⟨Nat.eq_zero_of_not_pos hpushed, .inl rfl⟩⟩
    | error e => exact ⟨_, _, rfl, .inr ⟨Nat.eq_zero_of_not_pos hpushed, .inr ⟨e, rfl⟩⟩⟩
  · exact ⟨_, _, rfl, .inr ⟨Nat.eq_zero_of_not_pos hpushed, .inl rfl⟩⟩

/-- So nothing is ever left waiting in the shell. -/
theorem shell_pollFrames {t : BypassTransport XskDriver} {out filled : FrameBatch IndexFrame}
    {result : Except TransportError Polled} {driver : XskDriver} {pushed : ℕ}
    (hdeferred : t.deferred = none) (hpoll : t.driver.pollFrames out = (result, driver, filled))
    (hpushed : filled.frames.length - out.frames.length = pushed)
    (hresult : 0 < pushed ∧ result = .ok (.frames pushed) ∨
      pushed = 0 ∧ (result = .ok .idle ∨ ∃ e, result = .error e)) :
    ∃ returned, t.pollFrames out = (returned, ⟨driver, none⟩, filled) ∧
      (0 < pushed ∧ returned = .ok pushed ∨
        pushed = 0 ∧ (returned = .ok 0 ∨ ∃ e, returned = .error e)) := by
  have hdriver : Driver.pollFrames t.driver out = (result, driver, filled) := hpoll
  unfold BypassTransport.pollFrames
  simp only [hdeferred, hdriver, hpushed]
  obtain ⟨hpos, rfl⟩ | ⟨rfl, rfl | ⟨e, rfl⟩⟩ := hresult
  · exact ⟨_, rfl, .inl ⟨hpos, rfl⟩⟩
  · exact ⟨_, rfl, .inr ⟨rfl, .inl rfl⟩⟩
  · exact ⟨_, rfl, .inr ⟨rfl, .inr ⟨e, rfl⟩⟩⟩

end XskDriver

namespace Path

/-- `recv_burst` of the shell; the frames go to the queue of the decapsulation. -/
def recvBurst (wakeup : Except ℤ Unit) (d : Path) : Except TransportError ℕ × Path :=
  let shell : BypassTransport XskDriver := .new ⟨d.xsk, wakeup, 0⟩
  let (result, shell, out) := shell.pollFrames d.decap.collected
  (result, { d with
    decap := { d.decap with
      inner := shell.driver.xsk, pending := d.decap.pending ++ out.frames } })

/-- `fill` with a batch that has room for `cap` datagrams.  The turns of the loop are bounded by
`fuel`. -/
def fill (wakeup : Except ℤ Unit) (cap : ℕ) : ℕ → Path → Option (Except TransportError ℕ × Path)
  | 0, _ => none
  | fuel + 1, d =>
      let delivered := d.deliver cap
      let pushed := delivered.delivered.length - d.delivered.length
      if 0 < pushed ∨ cap = 0 then some (.ok pushed, delivered)
      else
        match delivered.recvBurst wakeup with
        | (.error e, d) => some (.error e, d)
        | (.ok 0, d) => some (.ok 0, d)
        | (.ok (_ + 1), d) => fill wakeup cap fuel d

/-! ## A poll -/

variable {frames size : NonZeroU32} {d d' : Path} {fillQ : List ℕ} {rxQ : List XdpDesc}
  {mapFd queue : BitVec 32} {dstPort : ℕ} {dstIp : Option Ipv4Addr}

theorem toNat_room (out : FrameBatch IndexFrame) :
    (Rings.room out).toNat = min out.spare (2 ^ 32 - 1) := by
  rw [Rings.room, BitVec.toNat_ofNat]
  exact Nat.mod_eq_of_lt (by omega)

/-- The frames of the descriptors a turn takes. -/
def freshOf (size : ℕ) (descs : List XdpDesc) : List IndexFrame :=
  (descs.filter (·.Inside size)).map (·.toFrame size)

theorem frameDesc_toFrame (size : ℕ) (desc : XdpDesc) :
    frameDesc size (desc.toFrame size) = desc := by
  have haddr : desc.addr / size * size + desc.addr % size = desc.addr := Nat.div_add_mod' _ _
  exact congrArg (XdpDesc.mk · desc.len) haddr

/-- A turn takes what the batch has room for and pushes the frames in it. -/
theorem turn_spec {xsk : Xsk} (h : Xsk.Conserved frames size xsk fillQ rxQ)
    {out : FrameBatch IndexFrame} {pushed : ℕ} {descs : List XdpDesc} {fresh : List IndexFrame}
    (hdescs : descs = rxQ.take (Rings.room out).toNat) (hfresh : fresh = freshOf size descs) :
    ∃ rings, xsk.rings.turn xsk.pool out pushed =
        (descs.length, rings, { out with frames := out.frames ++ fresh },
          pushed + fresh.length) ∧
      xsk.turn out pushed = { xsk with
        rings := rings
        live := xsk.live ++ paired size fresh
        polling :=
          if descs.length = 0 ∨ 0 < pushed + fresh.length ∨
              ({ out with frames := out.frames ++ fresh } : FrameBatch IndexFrame).spare = 0 then
            none
          else some ({ out with frames := out.frames ++ fresh }, pushed + fresh.length) } := by
  have htaken := (Consumer.consume_holds h.rx_holds h.rx_cons (Rings.room out)).1
  rcases hconsume : xsk.rings.rx.consume (Rings.room out) with ⟨taken, rx⟩
  rw [hconsume] at htaken
  obtain rfl : taken = descs := htaken.trans hdescs.symm
  have hslots : ∀ desc ∈ taken, desc.slot xsk.rings.frameSize < xsk.rings.frames.1 := by
    intro desc hdesc
    rw [hdescs] at hdesc
    rw [h.frameSize_eq, h.frames_eq]
    exact h.slot_lt (List.mem_of_mem_take hdesc)
  have hturn : ∃ rings, xsk.rings.turn xsk.pool out pushed =
      (taken.length, rings, { out with frames := out.frames ++ fresh },
        pushed + fresh.length) := by
    rw [Rings.turn, hconsume]
    dsimp only
    rw [Rings.foldl_collect xsk.pool taken { xsk.rings with rx := rx } out pushed hslots, hfresh,
      freshOf, List.length_map]
    dsimp only
    rw [h.frameSize_eq]
    exact ⟨_, rfl⟩
  obtain ⟨rings, hturn⟩ := hturn
  refine ⟨rings, hturn, ?_⟩
  have hlive : (xsk.framed out).zip fresh = paired size fresh := by
    rw [Xsk.framed, hconsume, hfresh, freshOf, paired, h.frameSize_eq, ← List.map_prod_left_eq_zip,
      List.map_map]
    refine List.map_congr_left fun desc _ ↦ ?_
    exact congrArg (·, desc.toFrame size) (frameDesc_toFrame size desc).symm
  rw [Xsk.turn, hturn]
  dsimp only
  rw [List.drop_left, hlive]

/-- The state after a poll that pushed `fresh`. -/
def polled (d : Path) (rings : Rings) (fresh : List IndexFrame) : Path :=
  { d with
    decap := { d.decap with
      inner := { d.xsk with
        rings := rings
        live := d.xsk.live ++ paired d.frameSize fresh
        polling := none }
      pending := d.decap.pending ++ fresh } }

theorem length_freshOf_le (size : ℕ) (descs : List XdpDesc) :
    (freshOf size descs).length ≤ descs.length := by
  rw [freshOf, List.length_map]
  exact List.length_filter_le _ _

theorem next_turn (h : Xsk.Conserved frames size d.xsk fillQ rxQ) {out : FrameBatch IndexFrame}
    {pushed : ℕ} (hpolling : d.xsk.polling = some (out, pushed)) {rings : Rings}
    {fresh : List IndexFrame} {polling : Option (FrameBatch IndexFrame × ℕ)}
    (hturn : d.xsk.turn out pushed =
      { d.xsk with
        rings := rings, live := d.xsk.live ++ paired size fresh, polling := polling }) :
    d.next mapFd queue .turn = some { d.polled rings fresh with
      decap.inner.polling := polling } := by
  have hstep : d.xsk.next .turn = some (d.xsk.turn out pushed) := by simp only [Xsk.next, hpolling]
  have hsize : d.frameSize = size.1 := congrArg Subtype.val h.frameSize_eq
  have hfresh :
      ((d.xsk.live ++ paired size fresh).drop d.xsk.live.length).map Prod.snd = fresh := by
    rw [List.drop_left, paired, List.map_map]
    exact List.map_id _
  simp only [Path.next, Path.step, hstep, Option.map_some, Option.bind_eq_bind, Option.bind_some,
    Path.polled, hturn, hsize]
  congr

/-- Nothing comes between the turns of `pollFrames`: they are a run, and with room in the batch
and no frame pushed the ring is empty at the end. -/
theorem follow_turns (fuel : ℕ) : ∀ {d : Path} {rxQ : List XdpDesc}
    {out out' : FrameBatch IndexFrame} {pushed pushed' : ℕ} {rings : Rings},
    Xsk.Conserved frames size d.xsk fillQ rxQ → d.xsk.polling = some (out, pushed) →
    Rings.pollLoop d.xsk.pool fuel d.xsk.rings out pushed = some (rings, out', pushed') →
    ∃ n fresh rxQ', out' = { out with frames := out.frames ++ fresh } ∧
      pushed' = pushed + fresh.length ∧
      Machine.follow (next mapFd queue) d (List.replicate n .turn) =
        some (d.polled rings fresh) ∧
      Xsk.Conserved frames size (d.polled rings fresh).xsk fillQ rxQ' ∧
      rxQ'.length + fresh.length ≤ rxQ.length ∧
      (pushed' = 0 → 0 < out.spare → rxQ' = []) := by
  induction fuel with
  | zero =>
      intro d rxQ out out' pushed pushed' rings _ _ hloop
      cases hloop
  | succ fuel ih =>
      intro d rxQ out out' pushed pushed' rings h hpolling hloop
      generalize hdescs : rxQ.take (Rings.room out).toNat = descs
      generalize hfresh : freshOf size descs = fresh
      obtain ⟨rings₁, hturn, hxsk⟩ :=
        @turn_spec frames size fillQ rxQ d.xsk h out pushed _ _ hdescs.symm hfresh.symm
      have hconserved := h.turn out pushed
      have hlength := length_freshOf_le size descs
      have htaken := congrArg List.length hdescs
      have hroomNat := toNat_room out
      have hsize : d.frameSize = size.1 := congrArg Subtype.val h.frameSize_eq
      rw [hfresh] at hlength
      rw [List.length_take] at htaken
      rw [Rings.pollLoop, hturn] at hloop
      dsimp only at hloop
      split at hloop
      · next hends =>
          cases hloop
          rw [if_pos hends] at hxsk
          rw [hxsk] at hconserved
          refine ⟨1, fresh, rxQ.drop (Rings.room out).toNat, rfl, rfl, ?_, ?_, ?_, ?_⟩
          · rw [List.replicate_one, Machine.follow, next_turn h hpolling hxsk]
            rfl
          · rw [Path.polled, hsize]
            exact hconserved
          · rw [List.length_drop]
            omega
          · intro hnone hroom
            have hspare : out.spare = out.cap - out.frames.length := rfl
            have hnoroom : ({ out with frames := out.frames ++ fresh } :
                FrameBatch IndexFrame).spare = out.cap - (out.frames ++ fresh).length := rfl
            rw [List.length_append] at hnoroom
            apply List.drop_eq_nil_of_le
            omega
      · next hgoes =>
          -- a loop that goes on has pushed nothing
          obtain ⟨rfl, hnil⟩ : pushed = 0 ∧ fresh.length = 0 := by omega
          obtain rfl := List.length_eq_zero_iff.mp hnil
          rw [if_neg hgoes] at hxsk
          rw [hxsk] at hconserved
          have hnext := @next_turn frames size d fillQ rxQ mapFd queue h out 0 hpolling _ _ _ hxsk
          simp only [paired, List.append_nil, List.map_nil, List.length_nil, Nat.add_zero,
            Path.polled] at hnext hconserved hloop
          have hsize₁ : rings₁.frameSize = size := hconserved.frameSize_eq
          obtain ⟨n, fresh, rxQ', rfl, hpushed, hfollow, hkept, hle, hnone⟩ :=
            @ih { d with decap.inner := { d.xsk with rings := rings₁, polling := some (out, 0) } } _
              out _ 0 _ _ hconserved rfl hloop
          have hpolled : Path.polled
              { d with decap.inner := { d.xsk with rings := rings₁, polling := some (out, 0) } }
              rings fresh = d.polled rings fresh := by
            have hframeSize : Path.frameSize { d with
                decap.inner := { d.xsk with rings := rings₁, polling := some (out, 0) } } =
                size.1 := congrArg Subtype.val hsize₁
            rw [Path.polled, Path.polled, hframeSize, hsize]
            rfl
          refine ⟨n + 1, fresh, rxQ', rfl, hpushed, ?_, ?_, ?_, hnone⟩
          · rw [List.replicate_succ, Machine.follow, hnext]
            exact hfollow.trans (congrArg some hpolled)
          · rw [← hpolled]
            exact hkept
          · rw [List.length_drop] at hle
            omega

/-! ## A call -/

theorem next_refill (hpolling : d.xsk.polling = none) {refilled : Rings} {pool : IndexPool}
    (hrefill : d.xsk.rings.refill d.xsk.pool = (refilled, pool)) :
    d.next mapFd queue .refill =
      some { d with decap.inner := { d.xsk with rings := refilled, pool := pool } } := by
  simp only [Path.next, Path.step, Xsk.next, hpolling, hrefill, Option.map_some]

theorem next_poll {burst : ℕ} (hpolling : d.xsk.polling = none) (hpending : d.decap.pending = [])
    (hcollected : d.decap.collected = ⟨[], burst⟩) :
    d.next mapFd queue .poll =
      some { d with decap.inner := { d.xsk with polling := some (⟨[], burst⟩, 0) } } := by
  have hcap : d.decap.collected.cap = burst := congrArg FrameBatch.cap hcollected
  simp only [Path.next, if_pos hpending, Path.step, Xsk.next, hpolling, Option.map_some, hcap]

/-- The driver is asked with an empty queue.  The call is a run, and if it brings no frame the
ring is empty. -/
theorem recvBurst_spec {burst : ℕ} (h : Xsk.Conserved frames size d.xsk fillQ rxQ)
    (hpolling : d.xsk.polling = none) (hpending : d.decap.pending = [])
    (hcollected : d.decap.collected = ⟨[], burst⟩) (hburst : 0 < burst)
    (wakeup : Except ℤ Unit) :
    ∃ result d' n fillQ' rxQ', d.recvBurst wakeup = (result, d') ∧
      Machine.follow (next mapFd queue) d (.refill :: .poll :: List.replicate n .turn) = some d' ∧
      Xsk.Conserved frames size d'.xsk fillQ' rxQ' ∧ d'.xsk.polling = none ∧
      d'.decap.collected = ⟨[], burst⟩ ∧ d'.delivered = d.delivered ∧ d'.wire = d.wire ∧
      rxQ'.length + d'.decap.pending.length ≤ rxQ.length ∧
      (0 < d'.decap.pending.length ∧ result = .ok d'.decap.pending.length ∨
        d'.decap.pending = [] ∧ rxQ' = [] ∧ (result = .ok 0 ∨ ∃ e, result = .error e)) := by
  rcases hrefill : d.xsk.rings.refill d.xsk.pool with ⟨refilled, pool⟩
  have hrefilled := h.refill
  simp only [hrefill] at hrefilled
  obtain ⟨⟨rings, filled, pushed⟩, hpoll⟩ :=
    Option.isSome_iff_exists.mp (refilled.isSome_pollFrames pool ⟨[], burst⟩)
  obtain ⟨n, fresh, rxQ', rfl, hpushed, hfollow, hkept, hle, hnone⟩ := @follow_turns frames size _
    mapFd queue _
    { d with decap.inner := { d.xsk with
      rings := refilled, pool := pool, polling := some (⟨[], burst⟩, 0) } } _ _ _ _ _ _
    (hrefilled.poll _) rfl hpoll
  rw [Nat.zero_add] at hpushed
  subst hpushed
  obtain ⟨polled, syscalls, hdriver, hpolled⟩ :=
    @XskDriver.pollFrames_cases ⟨d.xsk, wakeup, 0⟩ _ _ _ _ _ _ hrefill hpoll
  obtain ⟨result, hshell, hresult⟩ := XskDriver.shell_pollFrames (t := .new ⟨d.xsk, wakeup, 0⟩) rfl
    hdriver (by simp) hpolled
  refine ⟨result, _, n, _, rxQ', ?_, ?_, hkept, rfl, hcollected, rfl, rfl, ?_, ?_⟩
  · unfold Path.recvBurst
    rw [hcollected]
    simp only [hshell, List.nil_append, List.length_nil, List.drop_zero, hpolling]
    rfl
  · have hpollNext := @next_poll
      { d with decap.inner := { d.xsk with rings := refilled, pool := pool } } mapFd queue
      burst hpolling hpending hcollected
    rw [Machine.follow, next_refill hpolling hrefill, Option.bind_some, Machine.follow, hpollNext]
    exact hfollow
  · change rxQ'.length + (d.decap.pending ++ fresh).length ≤ _
    rw [hpending]
    exact hle
  · change 0 < (d.decap.pending ++ fresh).length ∧ result = .ok (d.decap.pending ++ fresh).length ∨
      d.decap.pending ++ fresh = [] ∧ _
    rw [hpending, List.nil_append]
    refine hresult.imp_right ?_
    rintro ⟨hzero, hreturned⟩
    exact ⟨List.length_eq_zero_iff.mp hzero, hnone hzero hburst, hreturned⟩

theorem polling_releases (filtered : List IndexFrame) :
    ∀ xsk : Xsk, (filtered.foldl Xsk.release xsk).polling = xsk.polling := by
  induction filtered with
  | nil => exact fun _ ↦ rfl
  | cons frame filtered ih => exact fun xsk ↦ ih (xsk.release frame)

/-- The queue is given out as far as there is room. -/
theorem deliver_spec (d : Path) {cap : ℕ} (hcap : 0 < cap) :
    (d.deliver cap).xsk.polling = d.xsk.polling ∧
      (d.deliver cap).decap.collected = d.decap.collected ∧ (d.deliver cap).wire = d.wire ∧
      (∃ fresh, (d.deliver cap).delivered = d.delivered ++ fresh) ∧
      ((d.deliver cap).delivered = d.delivered → (d.deliver cap).decap.pending = []) := by
  obtain ⟨taken, rest, filtered, stats, hqueue, hsub, hdeliver, hrest⟩ := d.deliver_eq cap
  rw [hdeliver]
  refine ⟨polling_releases filtered d.xsk, rfl, rfl, ⟨_, rfl⟩, fun hnone ↦ ?_⟩
  have hempty : (taken.map d.bytes).filterMap (payload d.decap.dstPort d.decap.dstIp) = [] :=
    List.append_cancel_left (hnone.trans (List.append_nil _).symm)
  rw [hempty] at hrest
  exact hrest.resolve_right (Nat.not_le.mpr hcap)

/-- The contents of the ring are those of any account of it. -/
theorem Intact.of_run {u : Path} (h : d.Intact mapFd queue frames size dstPort dstIp fillQ rxQ)
    (hrun : (machine mapFd queue).Run (fun _ _ ↦ True) d u) {fillQ' : List ℕ}
    {rxQ' : List XdpDesc} (hconserved : Xsk.Conserved frames size u.xsk fillQ' rxQ') :
    ∃ fillQ, u.Intact mapFd queue frames size dstPort dstIp fillQ rxQ' := by
  have hintact : ∃ fillQ rxQ, u.Intact mapFd queue frames size dstPort dstIp fillQ rxQ :=
    hrun.invariant (I := fun u ↦ ∃ fillQ rxQ, u.Intact mapFd queue frames size dstPort dstIp
      fillQ rxQ) ⟨_, _, h⟩ fun _ _ _ ⟨_, _, h⟩ _ hnext ↦ h.next hnext
  obtain ⟨fillQ, rxQ'', h'⟩ := hintact
  obtain rfl : rxQ' = rxQ'' :=
    hconserved.rx_holds.unread_eq.symm.trans h'.conserved.rx_holds.unread_eq
  exact ⟨fillQ, h'⟩

/-- A call with room in the batch and more turns than the ring has entries. -/
theorem fill_spec {burst cap : ℕ} (hburst : 0 < burst) (hcap : 0 < cap) (wakeup : Except ℤ Unit)
    (fuel : ℕ) : ∀ {d : Path} {fillQ : List ℕ} {rxQ : List XdpDesc},
    d.Intact mapFd queue frames size dstPort dstIp fillQ rxQ → d.xsk.polling = none →
    d.decap.collected = ⟨[], burst⟩ → rxQ.length < fuel →
    ∃ result d', d.fill wakeup cap fuel = some (result, d') ∧
      (machine mapFd queue).Run (fun _ _ ↦ True) d d' ∧ d'.wire = d.wire ∧
      ((∃ n, 0 < n ∧ result = .ok n ∧ d'.delivered.length = d.delivered.length + n) ∨
        (result = .ok 0 ∨ ∃ e, result = .error e) ∧ d'.delivered = d.delivered ∧
          d'.decap.pending = [] ∧ ∃ fillQ, d'.Intact mapFd queue frames size dstPort dstIp fillQ [])
    := by
  induction fuel with
  | zero => exact fun _ _ _ hfuel ↦ (Nat.not_lt_zero _ hfuel).elim
  | succ fuel ih =>
      intro d fillQ rxQ h hpolling hcollected hfuel
      have hdelivered := h.deliver cap
      obtain ⟨hpolling₁, hcollected₁, hwire₁, ⟨fresh, hfresh⟩, hempty⟩ := d.deliver_spec hcap
      have hrun₁ : (machine mapFd queue).Run (fun _ _ ↦ True) d (d.deliver cap) := by
        refine .single (e := Event.deliver cap) trivial ?_
        change (if d.xsk.polling.isNone then some (d.deliver cap) else none) = _
        rw [hpolling]
        rfl
      unfold Path.fill
      dsimp only
      have hcount : (d.deliver cap).delivered.length - d.delivered.length = fresh.length := by
        rw [hfresh, List.length_append, Nat.add_sub_cancel_left]
      rw [hcount]
      split_ifs with hsome
      · refine ⟨_, _, rfl, hrun₁, hwire₁, .inl ⟨fresh.length, by omega, rfl, ?_⟩⟩
        rw [hfresh, List.length_append]
      · obtain rfl : fresh = [] := List.length_eq_zero_iff.mp (by omega)
        rw [List.append_nil] at hfresh
        generalize d.deliver cap = d₁ at *
        obtain ⟨result, d₂, n, fillQ₂, rxQ₂, hburst₂, hfollow₂, hconserved₂, hpolling₂, hcollected₂,
          hdelivered₂, hwire₂, hle₂, hresult₂⟩ :=
          @recvBurst_spec frames size d₁ fillQ rxQ mapFd queue burst hdelivered.conserved
            (hpolling₁.trans hpolling) (hempty hfresh)
          (hcollected₁.trans hcollected) hburst wakeup
        have hrun₂ : (machine mapFd queue).Run (fun _ _ ↦ True) d₁ d₂ :=
          .of_follow (Machine.allowedAlong_of_forall (fun _ _ ↦ trivial) _ _) hfollow₂
        obtain ⟨fillQ₂, h₂⟩ := hdelivered.of_run hrun₂ hconserved₂
        have hrun := hrun₁.trans hrun₂
        have hwire := hwire₂.trans hwire₁
        have hsame := hdelivered₂.trans hfresh
        rw [hburst₂]
        rcases hresult₂ with ⟨hpos, rfl⟩ | ⟨hpending₂, rfl, hreturned⟩
        · -- frames for the queue, and fewer left in the ring
          obtain ⟨m, hm⟩ := Nat.exists_eq_succ_of_ne_zero hpos.ne'
          rw [hm]
          obtain ⟨result, d', hfill, hrun', hwire', hresult⟩ :=
            ih h₂ hpolling₂ hcollected₂ (by omega)
          rw [hsame] at hresult
          exact ⟨result, d', hfill, hrun.trans hrun', hwire'.trans hwire, hresult⟩
        · refine ⟨result, d₂, ?_, hrun, hwire, .inr ⟨hreturned, hsame, hpending₂, fillQ₂, h₂⟩⟩
          rcases hreturned with rfl | ⟨e, rfl⟩
          · rfl
          · rfl

/-- A call of `recv_burst` on the whole stack returns, and when it returns no datagram, be it with
an error of the wake-up, every datagram for this port among the frames that came in has been
delivered. -/
theorem nothing_left_behind {fill : Ring ℕ} {rx : Ring XdpDesc} {mem : Memory} {burst cap : ℕ}
    (hfill : fill.producer = fill.consumer) (hrx : rx.producer = rx.consumer)
    (hfillSize : fill.desc.length = frames.1) (hrxSize : rx.desc.length = frames.1)
    (hburst : 0 < burst) (hcap : 0 < cap)
    (hrun : (machine mapFd queue).Run (fun _ _ ↦ True)
      (start fill rx frames size mem dstPort dstIp burst) d)
    (hpolling : d.xsk.polling = none) (wakeup : Except ℤ Unit) :
    ∃ result d', d.fill wakeup cap (frames + 1) = some (result, d') ∧
      (machine mapFd queue).Run (fun _ _ ↦ True) d d' ∧ d'.wire = d.wire ∧
      ((∃ n, 0 < n ∧ result = .ok n ∧ d'.delivered.length = d.delivered.length + n) ∨
        (result = .ok 0 ∨ ∃ e, result = .error e) ∧ d'.delivered = d.delivered ∧
          d'.delivered = d'.wire.filterMap (payload dstPort dstIp)) := by
  obtain ⟨fillQ, rxQ, h⟩ := intact_of_run hfill hrx hfillSize hrxSize hrun
  have hcollected : d.decap.collected = ⟨[], burst⟩ :=
    hrun.invariant (I := fun u ↦ u.decap.collected = ⟨[], burst⟩) rfl
      fun _ _ _ hcollected _ hnext ↦ (next_frame hnext).1.trans hcollected
  have hlength := h.conserved.length
  obtain ⟨result, d', hcall, hrun', hwire, hresult⟩ := fill_spec hburst hcap wakeup (frames + 1) h
    hpolling hcollected (by omega)
  refine ⟨result, d', hcall, hrun', hwire, hresult.imp_right ?_⟩
  rintro ⟨hreturned, hsame, hpending, fillQ', h'⟩
  have hall := h'.datagrams
  rw [hpending, List.filter_nil, List.map_nil, List.map_nil, List.append_nil, List.filterMap_nil,
    List.append_nil] at hall
  exact ⟨hreturned, hsame, hall⟩

/-- Two datagrams wait and one call takes them; the next call has only an overrun chunk to take
and finds nothing. -/
theorem nothing_left_behind_overrun :
    ∃ d ∈ Machine.follow (next 7 0) sampleStart
        (sampleFilled ++ [.deliver 8, .overrun ⟨2048 + 320, 2048⟩]),
      d.delivered.length = 2 ∧
      ∃ result d', d.fill (.error XskDriver.eagain) 4 5 = some (result, d') ∧
        (machine 7 0).Run (fun _ _ ↦ True) d d' ∧ d'.wire = d.wire ∧
        ((∃ n, 0 < n ∧ result = .ok n ∧ d'.delivered.length = d.delivered.length + n) ∨
          (result = .ok 0 ∨ ∃ e, result = .error e) ∧ d'.delivered = d.delivered ∧
            d'.delivered = d'.wire.filterMap (payload 30001 none)) := by
  have hend : ∃ d ∈ Machine.follow (next 7 0) sampleStart
        (sampleFilled ++ [.deliver 8, .overrun ⟨2048 + 320, 2048⟩]),
      d.delivered.length = 2 ∧ d.xsk.polling.isNone := by decide +kernel
  obtain ⟨d, hd, hdelivered, hpolling⟩ := hend
  exact ⟨d, hd, hdelivered, nothing_left_behind rfl rfl rfl rfl (by decide) (by decide)
    (.of_follow (Machine.allowedAlong_of_forall (fun _ _ ↦ trivial) _ _) hd)
    (Option.isNone_iff_eq_none.mp hpolling) _⟩

end Path

end Afxdp
