import PolarisTrade.Lib.RingBuffer

/-!
# Producer side of the provided-buffer ring

Entries are written at the local tail, masked; the kernel sees them once the tail is stored in
the `resv` field of entry 0.  Tails are `u16` words that wrap.  `RingMem.Feeds` relates the
memory to the buffers the kernel has still to read and those not yet published.
-/

namespace IoUring

/-- `struct io_uring_buf` without `resv`, which only entry 0 uses. -/
structure Entry where
  addr : ℕ
  len : ℕ
  bid : ℕ
  deriving DecidableEq

structure RingMem where
  entries : List Entry
  mask : BitVec 16
  /-- next free index before masking -/
  tail : BitVec 16
  /-- `resv` of entry 0: the tail the kernel reads -/
  resv : BitVec 16
  mask_isPow : ∃ k ≤ 15, mask.toNat + 1 = 2 ^ k
  length_entries : entries.length = mask.toNat + 1

namespace RingMem

/-- Zeroed ring of `2 ^ k` entries. -/
def new (k : ℕ) (hk : k ≤ 15) : RingMem :=
  have hmask : (BitVec.ofNat 16 (2 ^ k - 1)).toNat = 2 ^ k - 1 := by
    have hle : 2 ^ k ≤ 2 ^ 15 := Nat.pow_le_pow_right (by decide) hk
    rw [BitVec.toNat_ofNat, Nat.mod_eq_of_lt (by omega)]
  have hpos : 0 < 2 ^ k := Nat.two_pow_pos k
  { entries := List.replicate (2 ^ k) ⟨0, 0, 0⟩
    mask := BitVec.ofNat 16 (2 ^ k - 1)
    tail := 0
    resv := 0
    mask_isPow := ⟨k, hk, by omega⟩
    length_entries := by rw [List.length_replicate, hmask]; omega }

/-- Where the entry of a free-running index sits. -/
def cell (ring : RingMem) (index : BitVec 16) : ℕ := (index &&& ring.mask).toNat

theorem cell_lt (ring : RingMem) (index : BitVec 16) : ring.cell index < ring.entries.length := by
  rw [ring.length_entries, Nat.lt_succ_iff]
  exact RingBuffer.and_mask_le index ring.mask

def push (ring : RingMem) (addr len bid : ℕ) : RingMem :=
  { ring with
    entries := ring.entries.set (ring.cell ring.tail) ⟨addr, len, bid⟩
    tail := ring.tail + 1
    length_entries := by rw [List.length_set, ring.length_entries] }

def publish (ring : RingMem) : RingMem := { ring with resv := ring.tail }

/-- What the kernel finds at an index. -/
def read (ring : RingMem) (index : BitVec 16) : Entry :=
  ring.entries.get ⟨ring.cell index, ring.cell_lt index⟩

/-- The entries before a kernel at `head`. -/
def unread (ring : RingMem) (head : BitVec 16) : List Entry :=
  (List.range (ring.resv - head).toNat).map fun i ↦ ring.read (head + BitVec.ofNat 16 i)

theorem cell_ofNat (ring : RingMem) (i : ℕ) :
    ring.cell (BitVec.ofNat 16 i) = i % ring.entries.length := by
  obtain ⟨k, hk, hmask⟩ := ring.mask_isPow
  rw [ring.length_entries, hmask]
  exact RingBuffer.toNat_and_mask (by omega) hmask i

theorem length_entries_lt (ring : RingMem) : ring.entries.length < 2 ^ 16 := by
  obtain ⟨k, hk, hmask⟩ := ring.mask_isPow
  rw [ring.length_entries, hmask]
  exact Nat.pow_lt_pow_right (by decide) (by omega)

theorem unread_eq_nil_iff {ring : RingMem} {head : BitVec 16} :
    ring.unread head = [] ↔ ring.resv = head := by
  rw [unread, List.map_eq_nil_iff, List.range_eq_nil, ← BitVec.toNat_zero (w := 16),
    BitVec.toNat_inj]
  exact sub_eq_zero

/-! ## The ring as a queue -/

/-- The kernel has read `received`; `queue` lies before it and `pending` is not published. -/
structure Feeds (ring : RingMem) (head : BitVec 16) (queue pending : List Entry)
    (received : List Entry) : Prop where
  head_eq : head = BitVec.ofNat 16 received.length
  resv_eq : ring.resv = BitVec.ofNat 16 (received ++ queue).length
  tail_eq : ring.tail = BitVec.ofNat 16 (received ++ queue ++ pending).length
  window : RingBuffer.Window ring.entries 0 received.length (received ++ queue ++ pending)

namespace Feeds

variable {ring : RingMem} {head : BitVec 16} {queue pending received : List Entry}

theorem new (k : ℕ) (hk : k ≤ 15) : Feeds (.new k hk) 0 [] [] [] :=
  ⟨rfl, rfl, rfl, .nil _ _⟩

theorem length_le (h : Feeds ring head queue pending received) :
    queue.length + pending.length ≤ ring.entries.length := by
  have hle := h.window.length_le
  rw [List.length_append, List.length_append] at hle
  omega

theorem push (h : Feeds ring head queue pending received)
    (hroom : queue.length + pending.length < ring.entries.length) (addr len bid : ℕ) :
    Feeds (ring.push addr len bid) head queue (pending ++ [⟨addr, len, bid⟩]) received where
  head_eq := h.head_eq
  resv_eq := h.resv_eq
  tail_eq := by
    change ring.tail + 1 = _
    rw [h.tail_eq, ← RingBuffer.ofNat_succ]
    simp only [List.length_append, List.length_singleton, Nat.add_assoc]
  window := by
    have hpush := h.window.push (x := ⟨addr, len, bid⟩) (by
      rw [List.length_append, List.length_append]
      omega)
    rw [Nat.zero_add, ← ring.cell_ofNat, ← h.tail_eq, List.append_assoc _ _ [_]] at hpush
    exact hpush

theorem publish (h : Feeds ring head queue pending received) :
    Feeds ring.publish head (queue ++ pending) [] received where
  head_eq := h.head_eq
  resv_eq := by
    rw [← List.append_assoc]
    exact h.tail_eq
  tail_eq := by
    rw [List.append_nil, ← List.append_assoc]
    exact h.tail_eq
  window := by
    rw [List.append_nil, ← List.append_assoc]
    exact h.window

/-- How many entries lie before the kernel, across the wrap of the words. -/
theorem toNat_resv_sub (h : Feeds ring head queue pending received) :
    (ring.resv - head).toNat = queue.length := by
  have hle := h.length_le
  have hlt := ring.length_entries_lt
  have hlength : (received ++ queue).length - received.length = queue.length := by
    rw [List.length_append, Nat.add_sub_cancel_left]
  rw [h.resv_eq, h.head_eq, RingBuffer.toNat_ofNat_sub (by simp) (by omega), hlength]

theorem toNat_tail_sub (h : Feeds ring head queue pending received) :
    (ring.tail - head).toNat = queue.length + pending.length := by
  have hle := h.length_le
  have hlt := ring.length_entries_lt
  have hlength : (received ++ queue ++ pending).length - received.length
      = queue.length + pending.length := by
    rw [List.length_append, List.length_append]
    omega
  rw [h.tail_eq, h.head_eq, RingBuffer.toNat_ofNat_sub (by simp) (by omega), hlength]

theorem read_eq (h : Feeds ring head queue pending received) {i : ℕ} (hlt : i < queue.length) :
    queue[i]? = some (ring.read (head + BitVec.ofNat 16 i)) := by
  have hget := h.window.get (received.length + i) (Nat.le_add_right _ _) (by
    rw [List.length_append, List.length_append]
    omega)
  rw [Nat.zero_add, ← ring.cell_ofNat, BitVec.ofNat_add, ← h.head_eq, List.append_assoc,
    List.getElem?_append_right (Nat.le_add_right _ _), Nat.add_sub_cancel_left,
    List.getElem?_append_left hlt] at hget
  rw [← hget]
  exact List.getElem?_eq_getElem (ring.cell_lt _)

theorem unread_eq (h : Feeds ring head queue pending received) : ring.unread head = queue := by
  apply List.ext_getElem?
  intro i
  rw [unread, h.toNat_resv_sub, List.getElem?_map]
  rcases lt_or_ge i queue.length with hlt | hge
  · rw [List.getElem?_range hlt, h.read_eq hlt]
    rfl
  · rw [List.getElem?_eq_none hge, List.getElem?_eq_none (by rw [List.length_range]; exact hge)]
    rfl

/-- The kernel takes the first entry. -/
theorem take {entry : Entry} (h : Feeds ring head (entry :: queue) pending received) :
    ring.read head = entry ∧ Feeds ring (head + 1) queue pending (received ++ [entry]) := by
  have hread := h.read_eq (i := 0) (by simp)
  rw [List.getElem?_cons_zero, BitVec.add_zero] at hread
  refine ⟨(Option.some_inj.mp hread).symm, ?_, ?_, ?_, ?_⟩
  · rw [h.head_eq, ← RingBuffer.ofNat_succ, List.length_append, List.length_singleton]
  · rw [List.append_assoc]
    exact h.resv_eq
  · rw [List.append_assoc received]
    exact h.tail_eq
  · rw [List.append_assoc received, List.length_append]
    exact h.window.release (Nat.le_add_right _ _)

end Feeds

end RingMem

end IoUring
