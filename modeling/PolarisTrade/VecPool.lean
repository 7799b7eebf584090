import PolarisTrade.Transport

/-!
# Slab pool

A fixed set of slabs of one size.  `acquire` takes the top of the free list, dropping a slab
pushes it back.  Pool and slabs share the free list, so the references to it count the slabs
that are out.
-/

namespace Transport

/-- Free list, top first, and the number of references to it. -/
structure VecPool where
  free : List (List UInt8)
  capacity : ℕ
  strong : ℕ

/-- One slab taken from the pool, with the length filled. -/
structure VecSlab where
  buf : List UInt8
  len : ℕ

instance : AsRef VecSlab where
  asRef slab := slab.buf.take slab.len

/-- Clamped to the size of the slab. -/
def VecSlab.setLen (slab : VecSlab) (len : ℕ) : VecSlab :=
  { slab with len := min len slab.buf.length }

namespace VecPool

def new (slabCount slabSize : ℕ) : VecPool where
  free := List.replicate slabCount (List.replicate slabSize 0)
  capacity := slabCount
  strong := 1

/-- One reference is the pool's, every other that of a slab out. -/
def stats (pool : VecPool) : PoolStats where
  inUse := pool.strong - 1
  capacity := pool.capacity

def acquire (pool : VecPool) : Option (VecSlab × VecPool) :=
  match pool.free with
  | [] => none
  | buf :: free => some (⟨buf, 0⟩, { pool with free := free, strong := pool.strong + 1 })

/-- `VecSlab::drop` -/
def dropSlab (pool : VecPool) (slab : VecSlab) : VecPool :=
  { pool with free := slab.buf :: pool.free, strong := pool.strong - 1 }

/-! ## Slabs are neither lost nor made -/

/-- `live` slabs of `slabSize` bytes are out, the others free. -/
structure Holds (slabSize live : ℕ) (pool : VecPool) : Prop where
  count : pool.free.length + live = pool.capacity
  strong : pool.strong = live + 1
  sizes : ∀ buf ∈ pool.free, buf.length = slabSize

variable {slabSize live : ℕ} {pool pool' : VecPool} {slab : VecSlab}

theorem holds_new (slabCount slabSize : ℕ) : (new slabCount slabSize).Holds slabSize 0 where
  count := List.length_replicate
  strong := rfl
  sizes := by
    intro buf hbuf
    rw [List.eq_of_mem_replicate hbuf, List.length_replicate]

theorem Holds.stats_eq (h : pool.Holds slabSize live) : pool.stats = ⟨live, pool.capacity⟩ := by
  rw [stats, h.strong, Nat.add_sub_cancel]

theorem Holds.acquire (h : pool.Holds slabSize live)
    (hacquire : pool.acquire = some (slab, pool')) :
    pool'.Holds slabSize (live + 1) ∧ pool'.capacity = pool.capacity ∧
      slab.buf.length = slabSize := by
  have hcount := h.count
  have hsizes := h.sizes
  unfold VecPool.acquire at hacquire
  split at hacquire
  · cases hacquire
  · next buf free hfree =>
      cases hacquire
      rw [hfree] at hcount hsizes
      refine ⟨⟨?_, ?_, fun b hb ↦ hsizes b (List.mem_cons_of_mem _ hb)⟩, rfl,
        hsizes buf List.mem_cons_self⟩
      · rw [List.length_cons] at hcount
        dsimp only
        omega
      · dsimp only
        rw [h.strong]

theorem Holds.acquire_none (h : pool.Holds slabSize live) (hacquire : pool.acquire = none) :
    live = pool.capacity := by
  have hcount := h.count
  unfold VecPool.acquire at hacquire
  split at hacquire
  · next hfree =>
      rw [hfree, List.length_nil, Nat.zero_add] at hcount
      exact hcount
  · cases hacquire

theorem Holds.dropSlab (h : pool.Holds slabSize (live + 1)) (hsize : slab.buf.length = slabSize) :
    (pool.dropSlab slab).Holds slabSize live where
  count := by
    have hcount := h.count
    change (slab.buf :: pool.free).length + live = pool.capacity
    rw [List.length_cons]
    omega
  strong := by
    change pool.strong - 1 = live + 1
    rw [h.strong, Nat.add_sub_cancel]
  sizes := by
    intro buf hbuf
    obtain rfl | hbuf := List.mem_cons.mp hbuf
    · exact hsize
    · exact h.sizes buf hbuf

end VecPool

end Transport
