import PolarisTrade.Afxdp.Filling
import PolarisTrade.Afxdp.Draining

/-!
# Rings are queues

Both sides of a ring together behave as an unbounded queue, whatever index the words start
from, and a peer that stores arbitrary words makes no call touch more than `size` entries or
one outside the array.  Between two calls a ring is the list of entries it `Holds`.
-/

namespace Afxdp

variable {α : Type*}

/-! ## Calls on a queue -/

/-- The entries of a ring between two accesses: `queue` is published and not read, and all
that is read is released. -/
def Ring.Holds (ring : Ring α) (queue : List α) : Prop :=
  ∃ start received, ring.Fifo start received.length received (received ++ queue)
    (received ++ queue)

theorem Ring.Holds.new {ring : Ring α} (h : ring.producer = ring.consumer) : ring.Holds [] :=
  ⟨_, [], .new h⟩

theorem Ring.Holds.unread_eq {ring : Ring α} {queue : List α} (h : ring.Holds queue) :
    ring.unread ring.consumer = queue := by
  obtain ⟨start, received, hfifo⟩ := h
  exact (List.append_cancel_left (hfifo.sent_eq hfifo.consumer_eq)).symm

theorem Ring.Holds.consumer_eq_of_nil {ring : Ring α} (h : ring.Holds []) :
    ring.consumer = ring.producer := by
  obtain ⟨start, received, hfifo⟩ := h
  rw [hfifo.consumer_eq, hfifo.producer_eq, List.append_nil]

theorem Ring.Holds.free_eq {p : Producer α} {queue : List α} (h : p.ring.Holds queue)
    (hprod : p.prod = p.ring.producer) : p.free = p.ring.desc.length - queue.length := by
  obtain ⟨start, received, hfifo⟩ := h
  have hfree := hfifo.free_eq (hprod.trans hfifo.producer_eq)
  rw [List.length_append, Nat.add_sub_cancel_left] at hfree
  exact hfree

/-- `produce` appends what fits. -/
theorem Producer.produce_holds {p : Producer α} {queue : List α} (h : p.ring.Holds queue)
    (hprod : p.prod = p.ring.producer) (items : List α) :
    (p.produce items).2.2.ring.Holds
      (queue ++ items.take (p.ring.desc.length - queue.length)) ∧
    (p.produce items).2.2.prod = (p.produce items).2.2.ring.producer ∧
    (p.produce items).2.1 = items.drop (p.ring.desc.length - queue.length) := by
  have hfree := h.free_eq hprod
  obtain ⟨start, received, hfifo⟩ := h
  let d : Filling α := ⟨p, none, p.ring.consumer, received.length, received ++ queue, received⟩
  have hproper : d.Proper start := by
    refine ⟨?_, hprod.trans hfifo.producer_eq, hfifo.consumer_eq, nofun⟩
    rw [Filling.done, Option.map_none, Option.getD_none, List.append_nil]
    exact hfifo
  obtain ⟨hrest, hfollow⟩ := d.follow_produce rfl items
  have hhonest : ∀ ev ∈ Filling.Event.load items ::
      (List.replicate (min d.producer.free items.length) .write ++ [.publish]),
      ∀ d, Filling.Honest d ev := by
    intro ev hev d
    rcases List.mem_cons.mp hev with rfl | hev
    · trivial
    rcases List.mem_append.mp hev with hev | hev
    · rw [List.eq_of_mem_replicate hev]
      trivial
    · rw [List.mem_singleton.mp hev]
      trivial
  have hproper' := Machine.Run.invariant (I := Filling.Proper start) hproper
    (fun _ _ _ h hhonest hnext ↦ h.next hhonest hnext)
    (.of_follow (Machine.allowedAlong_of_forall_mem d _ hhonest) hfollow)
  have htake : items.take (min p.free items.length)
      = items.take (p.ring.desc.length - queue.length) := by
    rw [hfree, List.take_eq_take_iff]
    omega
  refine ⟨⟨start, received, ?_⟩, hproper'.prod_eq.trans hproper'.fifo.producer_eq.symm, ?_⟩
  · rw [← htake, ← List.append_assoc]
    have hfifo' := hproper'.fifo
    rw [Filling.done, Option.map_none, Option.getD_none, List.append_nil] at hfifo'
    exact hfifo'
  · rw [hrest, List.drop_eq_drop_iff]
    change min (min p.free items.length) items.length = _
    omega

/-- The kernel takes the first entry. -/
theorem Ring.Holds.take {ring : Ring α} {item : α} {queue : List α}
    (h : ring.Holds (item :: queue)) :
    ring.read ring.consumer = item ∧
    (ring.storeConsumer (ring.consumer + 1)).Holds queue := by
  obtain ⟨start, received, hfifo⟩ := h
  have hlt : received.length < (received ++ item :: queue).length := by simp
  have hread := hfifo.read_eq le_rfl hlt
  rw [List.getElem?_append_right le_rfl, Nat.sub_self, ← hfifo.consumer_eq] at hread
  cases hread
  refine ⟨rfl, start, received ++ [ring.read ring.consumer], ?_⟩
  have hrelease := (hfifo.read hlt).release
  rw [← hfifo.consumer_eq, List.length_append, List.length_singleton, ← Nat.add_assoc,
    RingBuffer.ofNat_succ, ← hfifo.consumer_eq] at hrelease
  rw [List.append_assoc, List.length_append]
  exact hrelease

/-- The kernel publishes one entry more. -/
theorem Ring.Holds.put {ring : Ring α} {queue : List α} (h : ring.Holds queue)
    (hlt : queue.length < ring.desc.length) (item : α) :
    ((ring.write ring.producer item).storeProducer (ring.producer + 1)).Holds
      (queue ++ [item]) := by
  obtain ⟨start, received, hfifo⟩ := h
  have hword : BitVec.ofNat 32 (start + (received ++ queue ++ [item]).length)
      = ring.producer + 1 := by
    rw [List.length_append, List.length_singleton, ← Nat.add_assoc, RingBuffer.ofNat_succ,
      ← hfifo.producer_eq]
  have hpublish := (hfifo.write (by rw [List.length_append]; omega) item).publish
  rw [hword, ← hfifo.producer_eq, List.append_assoc] at hpublish
  exact ⟨start, received, hpublish⟩

/-- `consume` takes from the front. -/
theorem Consumer.consume_holds {c : Consumer α} {queue : List α} (h : c.ring.Holds queue)
    (hcons : c.cons = c.ring.consumer) (max : BitVec 32) :
    (c.consume max).1 = queue.take max.toNat ∧
    (c.consume max).2.ring.Holds (queue.drop max.toNat) ∧
    (c.consume max).2.cons = (c.consume max).2.ring.consumer := by
  obtain ⟨start, received, hfifo⟩ := h
  let d : Draining α :=
    ⟨c, none, c.ring.producer, received.length, received ++ queue, received ++ queue, received⟩
  have hproper : d.Proper start :=
    ⟨hfifo, hcons.trans hfifo.consumer_eq, hfifo.producer_eq, rfl, nofun⟩
  have hready : c.ready = queue.length := by
    have hready := hfifo.ready_eq rfl (hcons.trans hfifo.consumer_eq)
    rw [List.length_append, Nat.add_sub_cancel_left] at hready
    exact hready
  have hhonest : ∀ ev ∈ Draining.Event.load max ::
      (List.replicate (min d.consumer.ready max.toNat) .pass ++ [.release]),
      ∀ d : Draining α, Draining.Honest d ev := by
    intro ev hev d
    rcases List.mem_cons.mp hev with rfl | hev
    · trivial
    rcases List.mem_append.mp hev with hev | hev
    · rw [List.eq_of_mem_replicate hev]
      trivial
    · rw [List.mem_singleton.mp hev]
      trivial
  have hproper' := Machine.Run.invariant (I := Draining.Proper start) hproper
    (fun _ _ _ h hhonest hnext ↦ h.next hhonest hnext)
    (.of_follow (Machine.allowedAlong_of_forall_mem d _ hhonest) (d.follow_consume rfl max))
  have hpassed : (c.consume max).1 = queue.take max.toNat := by
    have hprefix := (List.prefix_append_right_inj received).mp hproper'.fifo.received_prefix
    have hlength : (c.consume max).1.length = min c.ready max.toNat := by
      rw [Consumer.consume, List.length_map, List.length_range]
    rw [List.prefix_iff_eq_take.mp hprefix, hlength, hready, List.take_eq_take_iff]
    omega
  refine ⟨hpassed, ⟨start, received ++ (c.consume max).1, ?_⟩,
    hproper'.cons_eq.trans hproper'.fifo.consumer_eq.symm⟩
  have hfifo' := hproper'.fifo
  rw [List.append_assoc, hpassed, List.take_append_drop, ← hpassed]
  exact hfifo'

/-- The rings are queues.  From any common index, with the peer's accesses between any two
of a call's own: what was sent is what was received followed by what lies in the ring before
the reader, in order; a call of `produce` whose loop has ended has taken as many items as fit
the room there was, and the rest is left.  Whatever word the peer stores, a call touches at
most `size` entries, all of them in the array.  A whole call of `produce` appends what fits to the
queue the ring holds, and one of `consume` takes up to `max` entries from its front. -/
theorem rings_are_fifo {ring : Ring α} (hcommon : ring.producer = ring.consumer) :
    (∀ d, Filling.machine.Run Filling.Honest (.start ring) d →
      d.sent = d.received ++ d.producer.ring.unread d.head ∧
      ∀ call ∈ d.call, call.asked = call.done ++ call.items ∧
        (call.free = 0 ∨ call.items = [] →
          call.done.length = min call.asked.length call.room ∧
          call.written = BitVec.ofNat 32 call.done.length)) ∧
    (∀ d, Draining.machine.Run Draining.Honest (.start ring) d →
      d.sent = d.received ++ d.consumer.ring.unread d.head ∧
      ∀ call ∈ d.call, call.taken = min call.ready call.max.toNat) ∧
    (∀ d, Filling.machine.Run (fun _ _ ↦ True) (.start ring) d → ∀ call ∈ d.call,
      call.touched.length ≤ ring.size.toNat ∧ ∀ i ∈ call.touched, i < ring.size.toNat) ∧
    (∀ d, Draining.machine.Run (fun _ _ ↦ True) (.start ring) d → ∀ call ∈ d.call,
      call.touched.length ≤ ring.size.toNat ∧ ∀ i ∈ call.touched, i < ring.size.toNat) ∧
    (∀ (p : Producer α) (queue items : List α), p.ring.Holds queue → p.prod = p.ring.producer →
      (p.produce items).2.2.ring.Holds
        (queue ++ items.take (p.ring.desc.length - queue.length)) ∧
      (p.produce items).2.2.prod = (p.produce items).2.2.ring.producer ∧
      (p.produce items).2.1 = items.drop (p.ring.desc.length - queue.length)) ∧
    ∀ (c : Consumer α) (queue : List α) (max : BitVec 32), c.ring.Holds queue →
      c.cons = c.ring.consumer →
      (c.consume max).1 = queue.take max.toNat ∧
      (c.consume max).2.ring.Holds (queue.drop max.toNat) ∧
      (c.consume max).2.cons = (c.consume max).2.ring.consumer := by
  refine ⟨fun d hrun ↦ ?_, fun d hrun ↦ ?_, fun d hrun call hcall ↦ ?_, fun d hrun call hcall ↦ ?_,
    fun p queue items h hprod ↦ Producer.produce_holds h hprod items,
    fun c queue max h hcons ↦ Consumer.consume_holds h hcons max⟩
  · have hproper : d.Proper ring.consumer.toNat :=
      hrun.invariant (.start hcommon) fun _ _ _ h hhonest hnext ↦ h.next hhonest hnext
    refine ⟨hproper.fifo.sent_eq hproper.head_eq, fun call hcall ↦ ?_⟩
    obtain ⟨hwritten, hasked, hroom, -⟩ := hproper.call call hcall
    refine ⟨hasked, fun hended ↦ ⟨?_, hwritten⟩⟩
    rw [hasked, List.length_append, hroom]
    rcases hended with hfree | hitems
    · omega
    · rw [hitems, List.length_nil]
      omega
  · have hproper : d.Proper ring.consumer.toNat :=
      hrun.invariant (.start hcommon) fun _ _ _ h hhonest hnext ↦ h.next hhonest hnext
    exact ⟨hproper.fifo.sent_eq hproper.head_eq, fun call hcall ↦ (hproper.call call hcall).2.2⟩
  · have hbounded : d.Bounded ring.desc.length :=
      hrun.invariant (.start ring) fun _ _ _ h _ hnext ↦ h.next hnext
    rw [ring.toNat_size]
    exact ⟨(Nat.le_add_right _ _).trans (hbounded.touched_length call hcall),
      hbounded.touched_lt call hcall⟩
  · have hbounded : d.Bounded ring.desc.length :=
      hrun.invariant (.start ring) fun _ _ _ h _ hnext ↦ h.next hnext
    obtain ⟨htouched, hi, htaken⟩ := hbounded.touched_length call hcall
    rw [ring.toNat_size]
    exact ⟨htouched.trans_le (hi.trans htaken), hbounded.touched_lt call hcall⟩

/-- An empty ring of four entries, two short of the wrap. -/
def sampleRing {α : Type} (entry : α) : Ring α where
  producer := 0xfffffffe
  consumer := 0xfffffffe
  flags := 0
  desc := [entry, entry, entry, entry]
  mask := 3
  mask_isPow := ⟨2, by decide, by decide⟩
  length_desc := rfl

/-- The peer reads two of three entries and releases them; the next call writes over both
ends of the array. -/
theorem rings_are_fifo_wrapped :
    ∃ d ∈ Machine.follow Filling.next (.start (sampleRing 0))
        [.load [10, 11, 12], .write, .write, .write, .publish, .read, .read, .release,
          .load [13, 14, 15, 16], .write, .write, .write],
      d.received = [10, 11] ∧ d.producer.ring.producer = 1 ∧
      d.sent = d.received ++ d.producer.ring.unread d.head ∧
      ∀ call ∈ d.call, call.asked = call.done ++ call.items ∧
        (call.free = 0 ∨ call.items = [] →
          call.done.length = min call.asked.length call.room ∧
          call.written = BitVec.ofNat 32 call.done.length) := by
  have hend : ∃ d ∈ Machine.follow Filling.next (.start (sampleRing 0))
        [.load [10, 11, 12], .write, .write, .write, .publish, .read, .read, .release,
          .load [13, 14, 15, 16], .write, .write, .write],
      d.received = [10, 11] ∧ d.producer.ring.producer = 1 := by decide +kernel
  obtain ⟨d, hd, hreceived, hproducer⟩ := hend
  have hallowed : Machine.AllowedAlong Filling.next Filling.Honest (.start (sampleRing 0))
        [.load [10, 11, 12], .write, .write, .write, .publish, .read, .read, .release,
          .load [13, 14, 15, 16], .write, .write, .write] := by decide +kernel
  have hcommon : (sampleRing 0).producer = (sampleRing 0).consumer := rfl
  exact ⟨d, hd, hreceived, hproducer, (rings_are_fifo hcommon).1 d (.of_follow hallowed hd)⟩

end Afxdp
