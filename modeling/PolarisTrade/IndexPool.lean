import Mathlib

/-!
# Index pool

One region of `count` slots of `stride` bytes.  The driver decides which slots the kernel has
handed back and mints a frame for each; dropping a frame queues its slot on the freed list,
which the driver swaps out when it recycles.
-/

namespace Transport

/-- `NonZeroU32` -/
def NonZeroU32 := { n : ℕ // 0 < n ∧ n < 2 ^ 32 }

instance : CoeOut NonZeroU32 ℕ := ⟨Subtype.val⟩

/-- `len` bytes at `offset` in `slot`. -/
structure IndexFrame where
  slot : ℕ
  offset : ℕ
  len : ℕ

/-- Where the bytes of a frame begin in the region. -/
def IndexFrame.start (frame : IndexFrame) (stride : ℕ) : ℕ := frame.slot * stride + frame.offset

structure IndexPool where
  stride : ℕ
  count : ℕ
  freed : List ℕ

namespace IndexPool

def new (count stride : ℕ) : IndexPool where
  stride := stride
  count := count
  freed := []

def frame (_ : IndexPool) (slot offset len : ℕ) : IndexFrame where
  slot := slot
  offset := offset
  len := len

/-- Swap the slots freed since the last call into `into`. -/
def drainFreed (pool : IndexPool) (into : List ℕ) : IndexPool × List ℕ :=
  ({ pool with freed := into }, pool.freed)

/-- `IndexFrame::drop` -/
def dropFrame (pool : IndexPool) (frame : IndexFrame) : IndexPool :=
  { pool with freed := pool.freed ++ [frame.slot] }

end IndexPool

/-- Burst container of fixed capacity. -/
structure FrameBatch (F : Type*) where
  frames : List F
  cap : ℕ

namespace FrameBatch

variable {F : Type*}

def spare (batch : FrameBatch F) : ℕ := batch.cap - batch.frames.length

def push (batch : FrameBatch F) (frame : F) : FrameBatch F :=
  { batch with frames := batch.frames ++ [frame] }

end FrameBatch

end Transport
