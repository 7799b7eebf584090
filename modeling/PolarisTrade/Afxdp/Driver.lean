import PolarisTrade.IndexPool
import PolarisTrade.Afxdp.Fifo

/-!
# Receive state of the `AF_XDP` driver

`Rings` holds the fill ring, the receive ring and the slots owed to the kernel.  `refill` moves
the slots of dropped frames to the free list and from there to the fill ring; `pollFrames`
drains the receive ring into frames until one is pushed, the batch is full or the ring empty.
-/

namespace Afxdp

open Transport

/-- `xdp_desc`, without the options nothing reads. -/
structure XdpDesc where
  addr : ℕ
  len : ℕ

namespace XdpDesc

def slot (desc : XdpDesc) (frameSize : ℕ) : ℕ := desc.addr / frameSize

/-- The bytes end inside the slot they begin in. -/
def Inside (frameSize : ℕ) (desc : XdpDesc) : Prop := desc.addr % frameSize + desc.len ≤ frameSize

instance (frameSize : ℕ) (desc : XdpDesc) : Decidable (desc.Inside frameSize) :=
  inferInstanceAs (Decidable (_ ≤ _))

def toFrame (frameSize : ℕ) (desc : XdpDesc) : IndexFrame where
  slot := desc.slot frameSize
  offset := desc.addr % frameSize
  len := desc.len

end XdpDesc

/-- Where the bytes of a descriptor sit. -/
inductive Located
  | frame (slot offset len : ℕ)
  | truncated (slot : ℕ)
  | foreign
  deriving DecidableEq

def locate (addr len : ℕ) (frameSize frames : NonZeroU32) : Located :=
  let slot := addr / frameSize
  let offset := addr % frameSize
  -- `u32::try_from` of both
  if 2 ^ 32 ≤ slot ∨ 2 ^ 32 ≤ offset then .foreign
  else if frames ≤ slot then .foreign
  -- `checked_add`
  else if offset + len < 2 ^ 32 ∧ offset + len ≤ frameSize then .frame slot offset len
  else .truncated slot

/-- A descriptor in a slot of the region is never foreign. -/
theorem locate_eq {desc : XdpDesc} {frameSize frames : NonZeroU32}
    (hslot : desc.slot frameSize < frames.1) :
    locate desc.addr desc.len frameSize frames
      = if desc.Inside frameSize then
          .frame (desc.slot frameSize) (desc.addr % frameSize) desc.len
        else .truncated (desc.slot frameSize) := by
  have hoffset : desc.addr % frameSize.1 < frameSize.1 := Nat.mod_lt _ frameSize.2.1
  have hframes := frames.2.2
  have hsize := frameSize.2.2
  unfold XdpDesc.slot at hslot
  rw [locate, if_neg (by omega), if_neg (by omega)]
  refine if_congr ⟨And.right, fun h ↦ ⟨?_, h⟩⟩ rfl rfl
  exact h.trans_lt hsize

structure Rings where
  fill : Producer ℕ
  rx : Consumer XdpDesc
  /-- slots owed to the fill ring -/
  free : List ℕ
  /-- swap target of `drainFreed` -/
  freed : List ℕ
  frames : NonZeroU32
  frameSize : NonZeroU32
  truncated : UInt64

namespace Rings

def new (fill : Producer ℕ) (rx : Consumer XdpDesc) (frames frameSize : NonZeroU32) : Rings where
  fill := fill
  rx := rx
  free := List.range frames
  freed := []
  frames := frames
  frameSize := frameSize
  truncated := 0

def refill (r : Rings) (pool : IndexPool) : Rings × IndexPool :=
  let (pool, freed) := pool.drainFreed r.freed
  let free := r.free ++ freed
  let (_, rest, fill) := r.fill.produce (free.reverse.map (· * r.frameSize))
  -- `pop` takes from the back, so the front is left
  ({ r with fill := fill, free := free.take rest.length, freed := [] }, pool)

theorem refill_eq (r : Rings) (pool : IndexPool) :
    r.refill pool =
      ({ r with
          fill := (r.fill.produce ((r.free ++ pool.freed).reverse.map (· * r.frameSize))).2.2
          free := (r.free ++ pool.freed).take
            (r.fill.produce ((r.free ++ pool.freed).reverse.map (· * r.frameSize))).2.1.length
          freed := [] },
        { pool with freed := r.freed }) := rfl

/-- What `pollFrames` does with one descriptor. -/
def collect (pool : IndexPool) : Rings × FrameBatch IndexFrame × ℕ → XdpDesc →
    Rings × FrameBatch IndexFrame × ℕ
  | (r, out, pushed), desc =>
      match locate desc.addr desc.len r.frameSize r.frames with
      | .frame slot offset len => (r, out.push (pool.frame slot offset len), pushed + 1)
      | .truncated slot =>
          ({ r with truncated := r.truncated + 1, free := r.free ++ [slot] }, out, pushed)
      | .foreign => ({ r with truncated := r.truncated + 1 }, out, pushed)

/-- The batch's room as `u32`. -/
def room (out : FrameBatch IndexFrame) : BitVec 32 := BitVec.ofNat 32 (min out.spare (2 ^ 32 - 1))

/-- One turn of the loop of `pollFrames`, with the count of descriptors taken. -/
def turn (r : Rings) (pool : IndexPool) (out : FrameBatch IndexFrame) (pushed : ℕ) :
    ℕ × Rings × FrameBatch IndexFrame × ℕ :=
  let (descs, rx) := r.rx.consume (room out)
  (descs.length, descs.foldl (collect pool) ({ r with rx := rx }, out, pushed))

/-- `none` when the fuel does not reach. -/
def pollLoop (pool : IndexPool) : ℕ → Rings → FrameBatch IndexFrame → ℕ →
    Option (Rings × FrameBatch IndexFrame × ℕ)
  | 0, _, _, _ => none
  | fuel + 1, r, out, pushed =>
      let (taken, r, out, pushed) := r.turn pool out pushed
      if taken = 0 ∨ 0 < pushed ∨ out.spare = 0 then some (r, out, pushed)
      else pollLoop pool fuel r out pushed

/-- The count pushed.  A turn that goes on has taken entries, so the loop has no more turns than
the ring has entries, and one. -/
def pollFrames (r : Rings) (pool : IndexPool) (out : FrameBatch IndexFrame) :
    Option (Rings × FrameBatch IndexFrame × ℕ) :=
  pollLoop pool ((r.rx.ring.producer - r.rx.cons).toNat + 1) r out 0

/-! ## What a turn does -/

variable {r : Rings} {pool : IndexPool} {out : FrameBatch IndexFrame} {pushed : ℕ}

theorem collect_inside {desc : XdpDesc} (hslot : desc.slot r.frameSize < r.frames.1)
    (hinside : desc.Inside r.frameSize) :
    collect pool (r, out, pushed) desc = (r, out.push (desc.toFrame r.frameSize), pushed + 1) := by
  rw [collect, locate_eq hslot, if_pos hinside]
  rfl

theorem collect_overrun {desc : XdpDesc} (hslot : desc.slot r.frameSize < r.frames.1)
    (hoverrun : ¬ desc.Inside r.frameSize) :
    collect pool (r, out, pushed) desc
      = ({ r with truncated := r.truncated + 1, free := r.free ++ [desc.slot r.frameSize] },
          out, pushed) := by
  rw [collect, locate_eq hslot, if_neg hoverrun]

/-- Descriptors of the region: those inside their slot become frames, the slots of the others
are freed. -/
theorem foldl_collect (pool : IndexPool) : ∀ (descs : List XdpDesc) (r : Rings)
    (out : FrameBatch IndexFrame) (pushed : ℕ),
    (∀ desc ∈ descs, desc.slot r.frameSize < r.frames.1) →
    descs.foldl (collect pool) (r, out, pushed)
      = ({ r with
            truncated :=
              r.truncated + UInt64.ofNat (descs.filter (¬ ·.Inside r.frameSize)).length
            free := r.free ++ (descs.filter (¬ ·.Inside r.frameSize)).map (·.slot r.frameSize) },
          { out with
            frames := out.frames ++ (descs.filter (·.Inside r.frameSize)).map
              (·.toFrame r.frameSize) },
          pushed + (descs.filter (·.Inside r.frameSize)).length) := by
  intro descs
  induction descs with
  | nil =>
      intro r out pushed _
      simp
  | cons desc descs ih =>
      intro r out pushed hslots
      obtain ⟨hslot, hslots⟩ := List.forall_mem_cons.mp hslots
      by_cases hinside : desc.Inside r.frameSize
      · rw [List.foldl_cons, collect_inside hslot hinside, ih _ _ _ hslots]
        simp [hinside, FrameBatch.push, Nat.add_assoc, Nat.add_comm 1]
      · rw [List.foldl_cons, collect_overrun hslot hinside, ih]
        · simp [hinside, UInt64.ofNat_add, UInt64.add_assoc, UInt64.add_comm 1]
        · exact hslots

/-! ## The loop ends -/

theorem foldl_collect_rx (pool : IndexPool) : ∀ (descs : List XdpDesc)
    (state : Rings × FrameBatch IndexFrame × ℕ),
    (descs.foldl (collect pool) state).1.rx = state.1.rx := by
  intro descs
  induction descs with
  | nil =>
      intro state
      rfl
  | cons desc descs ih =>
      intro state
      rw [List.foldl_cons, ih, collect]
      split
      · rfl
      · rfl
      · rfl

/-- The entries before the process, whatever the words say. -/
def ahead (r : Rings) : ℕ := (r.rx.ring.producer - r.rx.cons).toNat

theorem ahead_turn (r : Rings) (pool : IndexPool) (out : FrameBatch IndexFrame) (pushed : ℕ) :
    (r.turn pool out pushed).2.1.ahead + (r.turn pool out pushed).1 = r.ahead := by
  have hrx : (r.turn pool out pushed).2.1.rx = (r.rx.consume (room out)).2 :=
    foldl_collect_rx pool _ _
  have htaken : (r.turn pool out pushed).1 = (r.rx.consume (room out)).1.length := rfl
  rw [ahead, hrx, htaken, ahead]
  exact r.rx.ahead_consume (room out)

theorem isSome_pollLoop (pool : IndexPool) : ∀ (fuel : ℕ) (r : Rings)
    (out : FrameBatch IndexFrame) (pushed : ℕ), r.ahead < fuel →
    (pollLoop pool fuel r out pushed).isSome := by
  intro fuel
  induction fuel with
  | zero =>
      intro r out pushed hfuel
      exact absurd hfuel (Nat.not_lt_zero _)
  | succ fuel ih =>
      intro r out pushed hfuel
      have hahead := r.ahead_turn pool out pushed
      simp only [pollLoop]
      split
      · rfl
      · next hgoes =>
          have htaken : (r.turn pool out pushed).1 ≠ 0 := fun h ↦ hgoes (Or.inl h)
          exact ih _ _ _ (show (r.turn pool out pushed).2.1.ahead < fuel by omega)

/-- `pollFrames` returns. -/
theorem isSome_pollFrames (r : Rings) (pool : IndexPool) (out : FrameBatch IndexFrame) :
    (r.pollFrames pool out).isSome :=
  isSome_pollLoop pool _ r out 0 (Nat.lt_succ_self _)

end Rings

end Afxdp
