import PolarisTrade.Lib.RingBuffer

/-!
# Index protocol of the `AF_XDP` rings

Process and kernel share a producer word, a consumer word and an array of descriptors.  The
words count entries and wrap at `u32`; the entry of index `i` sits at `i & mask`.  `Producer`
is the process side of the fill ring, `Consumer` that of the receive ring.

`Ring.Fifo` relates the words and the array to streams of entries: what the writer has
written, what it has published, what the reader has read and how much of that it has
released.  Each access of either side is one lemma about it.
-/

namespace Afxdp

variable {α : Type*}

/-- The shared memory of one ring, with the mask of its process side. -/
structure Ring (α : Type*) where
  producer : BitVec 32
  consumer : BitVec 32
  flags : BitVec 32
  desc : List α
  mask : BitVec 32
  mask_isPow : ∃ k ≤ 31, mask.toNat + 1 = 2 ^ k
  length_desc : desc.length = mask.toNat + 1

namespace Ring

def size (ring : Ring α) : BitVec 32 := ring.mask + 1

/-- Where the entry of a free-running index sits in the array. -/
def entry (ring : Ring α) (index : BitVec 32) : ℕ := (index &&& ring.mask).toNat

theorem entry_lt (ring : Ring α) (index : BitVec 32) : ring.entry index < ring.desc.length := by
  rw [ring.length_desc, Nat.lt_succ_iff]
  exact RingBuffer.and_mask_le index ring.mask

def read (ring : Ring α) (index : BitVec 32) : α :=
  ring.desc.get ⟨ring.entry index, ring.entry_lt index⟩

def write (ring : Ring α) (index : BitVec 32) (item : α) : Ring α :=
  { ring with
    desc := ring.desc.set (ring.entry index) item
    length_desc := by rw [List.length_set, ring.length_desc] }

def storeProducer (ring : Ring α) (word : BitVec 32) : Ring α := { ring with producer := word }

def storeConsumer (ring : Ring α) (word : BitVec 32) : Ring α := { ring with consumer := word }

/-- The entries a reader at `head` has before it. -/
def unread (ring : Ring α) (head : BitVec 32) : List α :=
  (List.range (ring.producer - head).toNat).map fun i ↦ ring.read (head + BitVec.ofNat 32 i)

theorem toNat_size (ring : Ring α) : ring.size.toNat = ring.desc.length := by
  obtain ⟨k, hk, hmask⟩ := ring.mask_isPow
  have hle : 2 ^ k ≤ 2 ^ 31 := Nat.pow_le_pow_right (by decide) hk
  rw [ring.length_desc, size, BitVec.toNat_add]
  exact Nat.mod_eq_of_lt (show ring.mask.toNat + 1 < 2 ^ 32 by omega)

theorem length_desc_le (ring : Ring α) : ring.desc.length ≤ 2 ^ 31 := by
  obtain ⟨k, hk, hmask⟩ := ring.mask_isPow
  rw [ring.length_desc, hmask]
  exact Nat.pow_le_pow_right (by decide) hk

theorem entry_ofNat (ring : Ring α) (i : ℕ) :
    ring.entry (BitVec.ofNat 32 i) = i % ring.desc.length := by
  obtain ⟨k, hk, hmask⟩ := ring.mask_isPow
  rw [ring.length_desc, hmask]
  exact RingBuffer.toNat_and_mask (by omega) hmask i

theorem desc_getElem?_entry (ring : Ring α) (index : BitVec 32) :
    ring.desc[ring.entry index]? = some (ring.read index) :=
  List.getElem?_eq_getElem (ring.entry_lt index)

@[simp] theorem length_desc_write (ring : Ring α) (index : BitVec 32) (item : α) :
    (ring.write index item).desc.length = ring.desc.length := List.length_set

end Ring

/-! ## The process side of the fill ring -/

structure Producer (α : Type*) where
  ring : Ring α
  /-- next index to write -/
  prod : BitVec 32

namespace Producer

def new (ring : Ring α) : Producer α where
  ring := ring
  prod := ring.producer

/-- Entries the peer has released, clamped to one lap. -/
def free (p : Producer α) : ℕ :=
  min (p.ring.consumer + p.ring.size - p.prod).toNat p.ring.size.toNat

/-- The loop of `produce`: `items` ends or nothing is free any more. -/
def fill : Producer α → ℕ → List α → BitVec 32 → Producer α × List α × BitVec 32
  | p, free + 1, item :: items, written =>
      fill { p with ring := p.ring.write (p.prod + written) item } free items (written + 1)
  | p, _, items, written => (p, items, written)

def publish (p : Producer α) (written : BitVec 32) : Producer α :=
  if 0#32 < written then
    { ring := p.ring.storeProducer (p.prod + written), prod := p.prod + written }
  else p

@[simp] theorem length_desc_publish (p : Producer α) (written : BitVec 32) :
    (p.publish written).ring.desc.length = p.ring.desc.length := by
  unfold publish
  split
  · rfl
  · rfl

/-- Publishing nothing stores nothing, which is what storing the same word again does. -/
theorem publish_eq {p : Producer α} (hprod : p.ring.producer = p.prod) (written : BitVec 32) :
    p.publish written
      = { ring := p.ring.storeProducer (p.prod + written), prod := p.prod + written } := by
  unfold publish
  split
  · rfl
  · next h =>
      obtain rfl := RingBuffer.eq_zero_of_not_pos h
      obtain ⟨ring, prod⟩ := p
      obtain rfl : ring.producer = prod := hprod
      rw [BitVec.add_zero]
      rfl

/-- The count written and the items that are left. -/
def produce (p : Producer α) (items : List α) : BitVec 32 × List α × Producer α :=
  let (p, items, written) := p.fill p.free items 0
  (written, items, p.publish written)

theorem length_desc_fill : ∀ (items : List α) (p : Producer α) (free : ℕ) (written : BitVec 32),
    (p.fill free items written).1.ring.desc.length = p.ring.desc.length
  | [], _, 0, _ => rfl
  | [], _, _ + 1, _ => rfl
  | _ :: _, _, 0, _ => rfl
  | _ :: items, _, free + 1, written =>
      (length_desc_fill items _ free (written + 1)).trans (Ring.length_desc_write _ _ _)

theorem length_desc_produce (p : Producer α) (items : List α) :
    (p.produce items).2.2.ring.desc.length = p.ring.desc.length := by
  rw [produce, length_desc_publish]
  exact length_desc_fill items p p.free 0

/-- `XDP_RING_NEED_WAKEUP` -/
def needsWakeup (p : Producer α) : Bool := p.ring.flags &&& 1 != 0

end Producer

/-! ## The process side of the receive ring -/

structure Consumer (α : Type*) where
  ring : Ring α
  /-- next index to read -/
  cons : BitVec 32

namespace Consumer

def new (ring : Ring α) : Consumer α where
  ring := ring
  cons := ring.consumer

/-- Entries the peer has published, clamped to one lap. -/
def ready (c : Consumer α) : ℕ :=
  min (c.ring.producer - c.cons).toNat c.ring.size.toNat

def release (c : Consumer α) (taken : BitVec 32) : Consumer α :=
  if 0#32 < taken then
    { ring := c.ring.storeConsumer (c.cons + taken), cons := c.cons + taken }
  else c

@[simp] theorem length_desc_release (c : Consumer α) (taken : BitVec 32) :
    (c.release taken).ring.desc.length = c.ring.desc.length := by
  unfold release
  split
  · rfl
  · rfl

theorem release_eq {c : Consumer α} (hcons : c.ring.consumer = c.cons) (taken : BitVec 32) :
    c.release taken
      = { ring := c.ring.storeConsumer (c.cons + taken), cons := c.cons + taken } := by
  unfold release
  split
  · rfl
  · next h =>
      obtain rfl := RingBuffer.eq_zero_of_not_pos h
      obtain ⟨ring, cons⟩ := c
      obtain rfl : ring.consumer = cons := hcons
      rw [BitVec.add_zero]
      rfl

/-- The entries passed on, in ring order. -/
def consume (c : Consumer α) (max : BitVec 32) : List α × Consumer α :=
  let taken := min c.ready max.toNat
  ((List.range taken).map fun i ↦ c.ring.read (c.cons + BitVec.ofNat 32 i),
    c.release (BitVec.ofNat 32 taken))

theorem length_desc_consume (c : Consumer α) (max : BitVec 32) :
    (c.consume max).2.ring.desc.length = c.ring.desc.length :=
  c.length_desc_release _

/-- Whatever the words say, `consume` moves past the entries it passes on. -/
theorem ahead_consume (c : Consumer α) (max : BitVec 32) :
    ((c.consume max).2.ring.producer - (c.consume max).2.cons).toNat + (c.consume max).1.length
      = (c.ring.producer - c.cons).toNat := by
  have hlength : (c.consume max).1.length = min c.ready max.toNat := by
    rw [consume, List.length_map, List.length_range]
  have hle : min c.ready max.toNat ≤ (c.ring.producer - c.cons).toNat :=
    (min_le_left _ _).trans (min_le_left _ _)
  have hcons : (c.consume max).2.cons = c.cons + BitVec.ofNat 32 (min c.ready max.toNat) := by
    rw [consume, release]
    split
    · rfl
    · next h =>
        rw [RingBuffer.eq_zero_of_not_pos h, BitVec.add_zero]
  have hproducer : (c.consume max).2.ring.producer = c.ring.producer := by
    rw [consume, release]
    split
    · rfl
    · rfl
  rw [hproducer, hcons, hlength]
  exact RingBuffer.toNat_sub_add hle

end Consumer

/-! ## Streams of entries -/

/-- The reader has read `received` and released the first `released` of it; the writer has
published `sent` and written `written`.  The indices of the streams begin at `start`. -/
structure Ring.Fifo (start : ℕ) (ring : Ring α) (released : ℕ) (received sent written : List α) :
    Prop where
  consumer_eq : ring.consumer = BitVec.ofNat 32 (start + released)
  producer_eq : ring.producer = BitVec.ofNat 32 (start + sent.length)
  released_le : released ≤ received.length
  received_prefix : received <+: sent
  sent_prefix : sent <+: written
  window : RingBuffer.Window ring.desc start released written

namespace Ring.Fifo

variable {start released : ℕ} {ring : Ring α} {received sent written : List α}

theorem new (h : ring.producer = ring.consumer) :
    Fifo ring.consumer.toNat ring 0 [] [] [] where
  consumer_eq := by simp
  producer_eq := by simpa using h
  released_le := le_rfl
  received_prefix := List.prefix_rfl
  sent_prefix := List.prefix_rfl
  window := .nil _ _

theorem write (h : Fifo start ring released received sent written)
    (hfree : written.length < released + ring.desc.length) (item : α) :
    Fifo start (ring.write (BitVec.ofNat 32 (start + written.length)) item) released received
      sent (written ++ [item]) where
  consumer_eq := h.consumer_eq
  producer_eq := h.producer_eq
  released_le := h.released_le
  received_prefix := h.received_prefix
  sent_prefix := h.sent_prefix.trans (List.prefix_append _ _)
  window := by
    have hpush := h.window.push hfree item
    rw [← ring.entry_ofNat] at hpush
    exact hpush

theorem publish (h : Fifo start ring released received sent written) :
    Fifo start (ring.storeProducer (BitVec.ofNat 32 (start + written.length))) released received
      written written where
  consumer_eq := h.consumer_eq
  producer_eq := rfl
  released_le := h.released_le
  received_prefix := h.received_prefix.trans h.sent_prefix
  sent_prefix := List.prefix_rfl
  window := h.window

/-- What a reader finds at the index of an entry that is not released. -/
theorem read_eq (h : Fifo start ring released received sent written) {i : ℕ}
    (hle : released ≤ i) (hlt : i < sent.length) :
    sent[i]? = some (ring.read (BitVec.ofNat 32 (start + i))) := by
  obtain ⟨unsent, hunsent⟩ := h.sent_prefix
  rw [← desc_getElem?_entry, entry_ofNat,
    h.window.get i hle (hlt.trans_le h.sent_prefix.length_le), ← hunsent,
    List.getElem?_append_left hlt]

theorem read (h : Fifo start ring released received sent written)
    (hlt : received.length < sent.length) :
    Fifo start ring released
      (received ++ [ring.read (BitVec.ofNat 32 (start + received.length))]) sent written where
  consumer_eq := h.consumer_eq
  producer_eq := h.producer_eq
  released_le := by
    rw [List.length_append]
    exact h.released_le.trans (Nat.le_add_right _ _)
  received_prefix := by
    have hget := h.read_eq h.released_le hlt
    obtain ⟨rest, rfl⟩ := h.received_prefix
    rw [List.getElem?_append_right le_rfl, Nat.sub_self] at hget
    cases rest with
    | nil => cases hget
    | cons x rest =>
        cases hget
        exact ⟨rest, List.append_assoc _ _ _⟩
  sent_prefix := h.sent_prefix
  window := h.window

theorem release (h : Fifo start ring released received sent written) :
    Fifo start (ring.storeConsumer (BitVec.ofNat 32 (start + received.length)))
      received.length received sent written where
  consumer_eq := rfl
  producer_eq := h.producer_eq
  released_le := le_rfl
  received_prefix := h.received_prefix
  sent_prefix := h.sent_prefix
  window := h.window.release h.released_le

theorem sent_length_le (h : Fifo start ring released received sent written) :
    sent.length ≤ released + ring.desc.length :=
  h.sent_prefix.length_le.trans h.window.length_le

/-- The room `produce` computes is what is neither unread nor unreleased. -/
theorem free_eq {p : Producer α} (h : Fifo start p.ring released received sent written)
    (hprod : p.prod = BitVec.ofNat 32 (start + sent.length)) :
    p.free = p.ring.desc.length - (sent.length - released) := by
  have hle := h.sent_length_le
  have hreleased := h.released_le.trans h.received_prefix.length_le
  have hlap := p.ring.length_desc_le
  have hsize : p.ring.size = BitVec.ofNat 32 p.ring.desc.length := by
    rw [← p.ring.toNat_size, BitVec.ofNat_toNat, BitVec.setWidth_eq]
  have hfree : (p.ring.consumer + p.ring.size - p.prod).toNat
      = start + released + p.ring.desc.length - (start + sent.length) := by
    rw [h.consumer_eq, hsize, hprod, ← BitVec.ofNat_add]
    exact RingBuffer.toNat_ofNat_sub (by omega) (by omega)
  rw [Producer.free, hfree, p.ring.toNat_size]
  omega

/-- The entries `consume` finds ready are the published ones. -/
theorem ready_eq {c : Consumer α} (h : Fifo start c.ring released received sent written)
    (hreleased : released = received.length)
    (hcons : c.cons = BitVec.ofNat 32 (start + received.length)) :
    c.ready = sent.length - received.length := by
  have hle := h.sent_length_le
  have hlap := c.ring.length_desc_le
  have hreceived := h.received_prefix.length_le
  rw [Consumer.ready, h.producer_eq, hcons,
    RingBuffer.toNat_ofNat_sub (by omega) (by omega), c.ring.toNat_size]
  omega

/-- The published entries behind those read lie in the ring, in order. -/
theorem sent_eq (h : Fifo start ring released received sent written) {head : BitVec 32}
    (hhead : head = BitVec.ofNat 32 (start + received.length)) :
    sent = received ++ ring.unread head := by
  have hle := h.sent_length_le
  have hreleased := h.released_le
  have hlap := ring.length_desc_le
  have hcount : (ring.producer - head).toNat = sent.length - received.length := by
    have hreceived := h.received_prefix.length_le
    rw [h.producer_eq, hhead, RingBuffer.toNat_ofNat_sub (by omega) (by omega)]
    omega
  obtain ⟨rest, rfl⟩ := h.received_prefix
  rw [List.length_append, Nat.add_sub_cancel_left] at hcount
  refine congrArg (received ++ ·) (List.ext_getElem? fun i ↦ ?_)
  rw [unread, hcount, List.getElem?_map]
  rcases Nat.lt_or_ge i rest.length with hlt | hge
  · have hread := h.read_eq (i := received.length + i) (by omega)
      (by rw [List.length_append]; omega)
    rw [List.getElem?_append_right (Nat.le_add_right _ _), Nat.add_sub_cancel_left] at hread
    rw [List.getElem?_range hlt, hread, hhead, ← Nat.add_assoc, BitVec.ofNat_add]
    rfl
  · rw [List.getElem?_eq_none hge, List.getElem?_eq_none (by rw [List.length_range]; exact hge)]
    rfl

end Ring.Fifo

end Afxdp
