import PolarisTrade.Afxdp.Ring
import PolarisTrade.Lib.Machine

/-!
# `produce` under interleaving

A call of `produce` loads the consumer word, writes entries and publishes them with one store.
The peer runs between any two of these accesses; on its side reading an entry and releasing
what is read are separate steps too.
-/

namespace Afxdp

variable {α : Type*}

/-- A call of `produce` behind its load of the consumer word.  The last four fields keep
account of the call: what it was given, the room there was, what it has written and where. -/
structure Producing (α : Type*) where
  free : ℕ
  items : List α
  written : BitVec 32
  asked : List α
  room : ℕ
  done : List α
  touched : List ℕ

/-- A producer, the call it is in, and a peer that reads entry by entry. -/
structure Filling (α : Type*) where
  producer : Producer α
  call : Option (Producing α)
  /-- next index the peer reads -/
  head : BitVec 32
  /-- how many entries the peer has released -/
  released : ℕ
  sent : List α
  received : List α

namespace Filling

inductive Event (α : Type*)
  | load (items : List α)
  | write
  | publish
  | read
  | release
  | corrupt (word : BitVec 32)

def load (d : Filling α) (items : List α) : Producing α where
  free := d.producer.free
  items := items
  written := 0
  asked := items
  room := d.producer.ring.desc.length - (d.sent.length - d.released)
  done := []
  touched := []

def next (d : Filling α) : Event α → Option (Filling α)
  | .load items =>
      match d.call with
      | none => some { d with call := some (d.load items) }
      | some _ => none
  | .write =>
      match d.call with
      | some ⟨free + 1, item :: items, written, asked, room, done, touched⟩ =>
          let index := d.producer.prod + written
          some
            { d with
              producer := { d.producer with ring := d.producer.ring.write index item }
              call := some ⟨free, items, written + 1, asked, room, done ++ [item],
                touched ++ [d.producer.ring.entry index]⟩ }
      | _ => none
  | .publish =>
      match d.call with
      | some call =>
          if call.free = 0 ∨ call.items = [] then
            some
              { d with
                producer := d.producer.publish call.written
                call := none
                sent := d.sent ++ call.done }
          else none
      | none => none
  | .read =>
      if d.head = d.producer.ring.producer then none
      else
        some
          { d with
            head := d.head + 1
            received := d.received ++ [d.producer.ring.read d.head] }
  | .release =>
      some
        { d with
          producer := { d.producer with ring := d.producer.ring.storeConsumer d.head }
          released := d.received.length }
  | .corrupt word =>
      some { d with producer := { d.producer with ring := d.producer.ring.storeConsumer word } }

def machine : Machine (Filling α) (Event α) := .ofNext next

def start (ring : Ring α) : Filling α where
  producer := .new ring
  call := none
  head := ring.consumer
  released := 0
  sent := []
  received := []

/-- The peer stores nothing but its own index. -/
def Honest (_ : Filling α) : Event α → Prop
  | .corrupt _ => False
  | _ => True

instance (d : Filling α) : (ev : Event α) → Decidable (Honest d ev)
  | .corrupt _ => .isFalse id
  | .load _ | .write | .publish | .read | .release => .isTrue trivial

/-- The steps of the machine, with what each one needs. -/
inductive Moves (d : Filling α) : Event α → Filling α → Prop
  | load (items : List α) (hcall : d.call = none) :
      Moves d (.load items) { d with call := some (d.load items) }
  | write {free : ℕ} {item : α} {items : List α} {written : BitVec 32} {asked : List α}
      {room : ℕ} {done : List α} {touched : List ℕ}
      (hcall : d.call = some ⟨free + 1, item :: items, written, asked, room, done, touched⟩) :
      Moves d .write
        { d with
          producer :=
            { d.producer with ring := d.producer.ring.write (d.producer.prod + written) item }
          call := some ⟨free, items, written + 1, asked, room, done ++ [item],
            touched ++ [d.producer.ring.entry (d.producer.prod + written)]⟩ }
  | publish {call : Producing α} (hcall : d.call = some call) :
      Moves d .publish
        { d with
          producer := d.producer.publish call.written
          call := none
          sent := d.sent ++ call.done }
  | read (hne : d.head ≠ d.producer.ring.producer) :
      Moves d .read
        { d with
          head := d.head + 1
          received := d.received ++ [d.producer.ring.read d.head] }
  | release :
      Moves d .release
        { d with
          producer := { d.producer with ring := d.producer.ring.storeConsumer d.head }
          released := d.received.length }
  | corrupt (word : BitVec 32) :
      Moves d (.corrupt word)
        { d with producer := { d.producer with ring := d.producer.ring.storeConsumer word } }

theorem moves_of_next {d d' : Filling α} {ev : Event α} (hnext : d.next ev = some d') :
    d.Moves ev d' := by
  cases ev with
  | load items =>
      simp only [next] at hnext
      split at hnext
      · next hcall =>
          cases hnext
          exact .load items hcall
      · cases hnext
  | write =>
      simp only [next] at hnext
      split at hnext
      · next hcall =>
          cases hnext
          exact .write hcall
      · cases hnext
  | publish =>
      simp only [next] at hnext
      split at hnext
      · next hcall =>
          split at hnext
          · cases hnext
            exact .publish hcall
          · cases hnext
      · cases hnext
  | read =>
      simp only [next] at hnext
      split at hnext
      · cases hnext
      · next hne =>
          cases hnext
          exact .read hne
  | release =>
      cases hnext
      exact .release
  | corrupt word =>
      cases hnext
      exact .corrupt word

end Filling

/-- What holds of a call of `produce`, `sent` being published before it. -/
structure Producing.Proper (call : Producing α) (limit : ℕ) (sent : List α) : Prop where
  written_eq : call.written = BitVec.ofNat 32 call.done.length
  asked_eq : call.asked = call.done ++ call.items
  room_eq : call.room = call.done.length + call.free
  room_le : sent.length + call.room ≤ limit

namespace Filling

variable {d d' : Filling α} {ev : Event α} {first : ℕ}

/-- What the call in progress has written. -/
def done (d : Filling α) : List α := (d.call.map Producing.done).getD []

/-- The streams of a state, with indices from `first` on. -/
structure Proper (first : ℕ) (d : Filling α) : Prop where
  fifo : d.producer.ring.Fifo first d.released d.received d.sent (d.sent ++ d.done)
  prod_eq : d.producer.prod = BitVec.ofNat 32 (first + d.sent.length)
  head_eq : d.head = BitVec.ofNat 32 (first + d.received.length)
  call : ∀ call ∈ d.call, call.Proper (d.released + d.producer.ring.desc.length) d.sent

theorem Proper.start {ring : Ring α} (h : ring.producer = ring.consumer) :
    (start ring).Proper ring.consumer.toNat where
  fifo := .new h
  prod_eq := (Ring.Fifo.new h).producer_eq
  head_eq := (Ring.Fifo.new h).consumer_eq
  call := nofun

theorem Proper.load (h : d.Proper first) (hcall : d.call = none) (items : List α) :
    Proper first { d with call := some (d.load items) } where
  fifo := by
    have hfifo := h.fifo
    rw [done, hcall] at hfifo
    exact hfifo
  prod_eq := h.prod_eq
  head_eq := h.head_eq
  call := by
    rintro _ ⟨⟩
    have hle := h.fifo.sent_length_le
    have hreleased := h.fifo.released_le.trans h.fifo.received_prefix.length_le
    have hfree := h.fifo.free_eq h.prod_eq
    refine ⟨rfl, rfl, ?_, ?_⟩
    · exact hfree.symm.trans (Nat.zero_add _).symm
    · change d.sent.length + (d.producer.ring.desc.length - (d.sent.length - d.released))
        ≤ d.released + d.producer.ring.desc.length
      omega

theorem Proper.write {free room : ℕ} {item : α} {items asked done : List α}
    {written : BitVec 32} {touched touched' : List ℕ} (h : d.Proper first)
    (hcall : d.call = some ⟨free + 1, item :: items, written, asked, room, done, touched⟩) :
    Proper first
      { d with
        producer :=
          { d.producer with ring := d.producer.ring.write (d.producer.prod + written) item }
        call := some ⟨free, items, written + 1, asked, room, done ++ [item], touched'⟩ } := by
  obtain ⟨hwritten, hasked, hroom, hle⟩ := h.call _ hcall
  dsimp only at hwritten hasked hroom hle
  have hindex : d.producer.prod + written
      = BitVec.ofNat 32 (first + (d.sent ++ done).length) := by
    rw [h.prod_eq, hwritten, ← BitVec.ofNat_add, List.length_append, Nat.add_assoc]
  refine ⟨?_, h.prod_eq, h.head_eq, ?_⟩
  · have hfifo := h.fifo
    rw [Filling.done, hcall] at hfifo
    have hfree : (d.sent ++ done).length < d.released + d.producer.ring.desc.length := by
      rw [List.length_append]
      omega
    have hpush := hfifo.write hfree item
    rw [hindex]
    simpa [Filling.done] using hpush
  · rintro _ ⟨⟩
    refine ⟨?_, ?_, ?_, ?_⟩
    · rw [hwritten, List.length_append, List.length_singleton, RingBuffer.ofNat_succ]
    · rw [hasked, List.append_assoc]
      rfl
    · rw [List.length_append, List.length_singleton, Nat.add_right_comm]
      exact hroom
    · rw [Ring.length_desc_write]
      exact hle

theorem Proper.publish {call : Producing α} (h : d.Proper first) (hcall : d.call = some call) :
    Proper first
      { d with
        producer := d.producer.publish call.written
        call := none
        sent := d.sent ++ call.done } := by
  obtain ⟨hwritten, -, -, -⟩ := h.call _ hcall
  have hfifo := h.fifo
  rw [done, hcall] at hfifo
  have hprod : d.producer.ring.producer = d.producer.prod :=
    h.fifo.producer_eq.trans h.prod_eq.symm
  have hindex : d.producer.prod + call.written
      = BitVec.ofNat 32 (first + (d.sent ++ call.done).length) := by
    rw [h.prod_eq, hwritten, ← BitVec.ofNat_add, List.length_append, Nat.add_assoc]
  rw [Producer.publish_eq hprod, hindex]
  refine ⟨?_, rfl, h.head_eq, nofun⟩
  have hpublish := hfifo.publish
  rw [Filling.done]
  simpa using hpublish

theorem Proper.read (h : d.Proper first) (hne : d.head ≠ d.producer.ring.producer) :
    Proper first
      { d with
        head := d.head + 1
        received := d.received ++ [d.producer.ring.read d.head] } where
  fifo := by
    have hlt : d.received.length < d.sent.length := by
      refine lt_of_le_of_ne h.fifo.received_prefix.length_le fun heq ↦ hne ?_
      rw [h.head_eq, h.fifo.producer_eq, heq]
    have hread := h.fifo.read hlt
    rw [← h.head_eq] at hread
    exact hread
  prod_eq := h.prod_eq
  head_eq := by
    rw [List.length_append, List.length_singleton, ← Nat.add_assoc, RingBuffer.ofNat_succ,
      ← h.head_eq]
  call := h.call

theorem Proper.release (h : d.Proper first) :
    Proper first
      { d with
        producer := { d.producer with ring := d.producer.ring.storeConsumer d.head }
        released := d.received.length } where
  fifo := by
    have hrelease := h.fifo.release
    rw [← h.head_eq] at hrelease
    exact hrelease
  prod_eq := h.prod_eq
  head_eq := h.head_eq
  call := by
    intro call hcall
    obtain ⟨hwritten, hasked, hroom, hle⟩ := h.call call hcall
    exact ⟨hwritten, hasked, hroom, hle.trans (Nat.add_le_add_right h.fifo.released_le _)⟩

theorem Proper.next (h : d.Proper first) (hhonest : Honest d ev) (hnext : d.next ev = some d') :
    d'.Proper first := by
  cases moves_of_next hnext with
  | load items hcall => exact h.load hcall items
  | write hcall => exact h.write hcall
  | publish hcall => exact h.publish hcall
  | read hne => exact h.read hne
  | release => exact h.release
  | corrupt word => exact hhonest.elim

/-! ## A call nothing comes between -/

/-- The loop of `produce` writes entry by entry and publishes. -/
theorem follow_fill (d : Filling α) (asked : List α) (room : ℕ) :
    ∀ (items : List α) (free : ℕ) (p : Producer α) (written : BitVec 32) (done : List α)
      (touched : List ℕ),
      (p.fill free items written).2.1 = items.drop (min free items.length) ∧
      Machine.follow next
        { d with producer := p, call := some ⟨free, items, written, asked, room, done, touched⟩ }
        (List.replicate (min free items.length) .write ++ [.publish])
      = some
        { d with
          producer := (p.fill free items written).1.publish (p.fill free items written).2.2
          call := none
          sent := d.sent ++ (done ++ items.take (min free items.length)) } := by
  intro items
  induction items with
  | nil =>
      intro free p written done touched
      cases free with
      | zero => simp [Producer.fill, Machine.follow, next]
      | succ free => simp [Producer.fill, Machine.follow, next]
  | cons item items ih =>
      intro free p written done touched
      cases free with
      | zero => simp [Producer.fill, Machine.follow, next]
      | succ free =>
          obtain ⟨hrest, hfollow⟩ := ih free
            { p with ring := p.ring.write (p.prod + written) item } (written + 1)
            (done ++ [item]) (touched ++ [p.ring.entry (p.prod + written)])
          rw [List.length_cons, Nat.succ_min_succ]
          refine ⟨hrest, ?_⟩
          rw [List.append_assoc] at hfollow
          exact hfollow

/-- `produce` is the run of its accesses. -/
theorem follow_produce (d : Filling α) (hcall : d.call = none) (items : List α) :
    (d.producer.produce items).2.1 = items.drop (min d.producer.free items.length) ∧
    Machine.follow next d
      (.load items :: (List.replicate (min d.producer.free items.length) .write ++ [.publish]))
    = some
      { d with
        producer := (d.producer.produce items).2.2
        call := none
        sent := d.sent ++ items.take (min d.producer.free items.length) } := by
  obtain ⟨hrest, hfollow⟩ := d.follow_fill items
    (d.producer.ring.desc.length - (d.sent.length - d.released)) items d.producer.free d.producer
    0 [] []
  have hload : d.next (.load items) = some { d with call := some (d.load items) } := by
    simp only [next, hcall]
  rw [List.nil_append] at hfollow
  rw [Machine.follow, hload, Option.bind_some]
  simp only [Producer.produce, load]
  exact ⟨hrest, hfollow⟩

/-! ## Whatever word the peer stores -/

/-- The accesses of a call stay in the array and within one lap. -/
structure Bounded (n : ℕ) (d : Filling α) : Prop where
  length_desc : d.producer.ring.desc.length = n
  touched_length : ∀ call ∈ d.call, call.touched.length + call.free ≤ n
  touched_lt : ∀ call ∈ d.call, ∀ i ∈ call.touched, i < n

theorem Bounded.write {n free room : ℕ} {item : α} {items asked done : List α}
    {written : BitVec 32} {touched : List ℕ} (h : d.Bounded n)
    (hcall : d.call = some ⟨free + 1, item :: items, written, asked, room, done, touched⟩)
    (index : BitVec 32) :
    Bounded n
      { d with
        producer := { d.producer with ring := d.producer.ring.write index item }
        call := some ⟨free, items, written + 1, asked, room, done ++ [item],
          touched ++ [d.producer.ring.entry index]⟩ } where
  length_desc := (Ring.length_desc_write _ _ _).trans h.length_desc
  touched_length := by
    rintro _ ⟨⟩
    have hle : touched.length + (free + 1) ≤ n := h.touched_length _ hcall
    rw [List.length_append, List.length_singleton, Nat.add_right_comm]
    exact hle
  touched_lt := by
    rintro _ ⟨⟩ i hi
    rcases List.mem_append.mp hi with hi | hi
    · exact h.touched_lt _ hcall i hi
    · rw [List.mem_singleton.mp hi, ← h.length_desc]
      exact d.producer.ring.entry_lt index

theorem Bounded.start (ring : Ring α) : (start ring).Bounded ring.desc.length :=
  ⟨rfl, nofun, nofun⟩

theorem Bounded.next {n : ℕ} (h : d.Bounded n) (hnext : d.next ev = some d') :
    d'.Bounded n := by
  cases moves_of_next hnext with
  | load items hcall =>
      have hfree : d.producer.free ≤ n := by
        rw [← h.length_desc, ← Ring.toNat_size]
        exact min_le_right _ _
      refine ⟨h.length_desc, ?_, ?_⟩
      · rintro _ ⟨⟩
        exact (Nat.zero_add _).trans_le hfree
      · rintro _ ⟨⟩ i hi
        cases hi
  | write hcall => exact h.write hcall _
  | publish hcall =>
      exact ⟨(Producer.length_desc_publish _ _).trans h.length_desc, nofun, nofun⟩
  | read | release | corrupt => exact ⟨h.length_desc, h.touched_length, h.touched_lt⟩

end Filling

end Afxdp
