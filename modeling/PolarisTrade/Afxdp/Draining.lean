import PolarisTrade.Afxdp.Ring
import PolarisTrade.Lib.Machine

/-!
# `consume` under interleaving

A call of `consume` loads the producer word, passes entries on and releases them with one
store.  The peer runs between any two of these accesses; on its side writing an entry and
publishing what is written are separate steps too.
-/

namespace Afxdp

variable {α : Type*}

/-- A call of `consume` behind its load of the producer word: it passes on `taken` entries and
has passed on `i` of them.  The last three fields keep account of the call. -/
structure Consuming where
  taken : ℕ
  i : ℕ
  max : BitVec 32
  ready : ℕ
  touched : List ℕ

/-- A consumer, the call it is in, and a peer that writes entry by entry. -/
structure Draining (α : Type*) where
  consumer : Consumer α
  call : Option Consuming
  /-- next index the peer writes -/
  tail : BitVec 32
  /-- how many entries are released to the peer -/
  released : ℕ
  written : List α
  sent : List α
  received : List α

namespace Draining

inductive Event (α : Type*)
  | load (max : BitVec 32)
  | pass
  | release
  | write (item : α)
  | publish
  | corrupt (word : BitVec 32)

def load (d : Draining α) (max : BitVec 32) : Consuming where
  taken := min d.consumer.ready max.toNat
  i := 0
  max := max
  ready := d.sent.length - d.received.length
  touched := []

def next (d : Draining α) : Event α → Option (Draining α)
  | .load max =>
      match d.call with
      | none => some { d with call := some (d.load max) }
      | some _ => none
  | .pass =>
      match d.call with
      | some call =>
          if call.i < call.taken then
            let index := d.consumer.cons + BitVec.ofNat 32 call.i
            some
              { d with
                call := some
                  { call with
                    i := call.i + 1
                    touched := call.touched ++ [d.consumer.ring.entry index] }
                received := d.received ++ [d.consumer.ring.read index] }
          else none
      | none => none
  | .release =>
      match d.call with
      | some call =>
          if call.i = call.taken then
            some
              { d with
                consumer := d.consumer.release (BitVec.ofNat 32 call.taken)
                call := none
                released := d.received.length }
          else none
      | none => none
  | .write item =>
      some
        { d with
          consumer := { d.consumer with ring := d.consumer.ring.write d.tail item }
          tail := d.tail + 1
          written := d.written ++ [item] }
  | .publish =>
      some
        { d with
          consumer := { d.consumer with ring := d.consumer.ring.storeProducer d.tail }
          sent := d.written }
  | .corrupt word =>
      some { d with consumer := { d.consumer with ring := d.consumer.ring.storeProducer word } }

def machine : Machine (Draining α) (Event α) := .ofNext next

def start (ring : Ring α) : Draining α where
  consumer := .new ring
  call := none
  tail := ring.producer
  released := 0
  written := []
  sent := []
  received := []

/-- The peer writes into released entries and stores nothing but its own index. -/
def Honest (d : Draining α) : Event α → Prop
  | .write _ => d.written.length < d.released + d.consumer.ring.desc.length
  | .corrupt _ => False
  | _ => True

/-- The steps of the machine, with what each one needs. -/
inductive Moves (d : Draining α) : Event α → Draining α → Prop
  | load (max : BitVec 32) (hcall : d.call = none) :
      Moves d (.load max) { d with call := some (d.load max) }
  | pass {call : Consuming} (hcall : d.call = some call) (hlt : call.i < call.taken) :
      Moves d .pass
        { d with
          call := some
            { call with
              i := call.i + 1
              touched := call.touched ++
                [d.consumer.ring.entry (d.consumer.cons + BitVec.ofNat 32 call.i)] }
          received := d.received ++
            [d.consumer.ring.read (d.consumer.cons + BitVec.ofNat 32 call.i)] }
  | release {call : Consuming} (hcall : d.call = some call) (hi : call.i = call.taken) :
      Moves d .release
        { d with
          consumer := d.consumer.release (BitVec.ofNat 32 call.taken)
          call := none
          released := d.received.length }
  | write (item : α) :
      Moves d (.write item)
        { d with
          consumer := { d.consumer with ring := d.consumer.ring.write d.tail item }
          tail := d.tail + 1
          written := d.written ++ [item] }
  | publish :
      Moves d .publish
        { d with
          consumer := { d.consumer with ring := d.consumer.ring.storeProducer d.tail }
          sent := d.written }
  | corrupt (word : BitVec 32) :
      Moves d (.corrupt word)
        { d with consumer := { d.consumer with ring := d.consumer.ring.storeProducer word } }

theorem moves_of_next {d d' : Draining α} {ev : Event α} (hnext : d.next ev = some d') :
    d.Moves ev d' := by
  cases ev with
  | load max =>
      simp only [next] at hnext
      split at hnext
      · next hcall =>
          cases hnext
          exact .load max hcall
      · cases hnext
  | pass =>
      simp only [next] at hnext
      split at hnext
      · next hcall =>
          split at hnext
          · next hlt =>
              cases hnext
              exact .pass hcall hlt
          · cases hnext
      · cases hnext
  | release =>
      simp only [next] at hnext
      split at hnext
      · next hcall =>
          split at hnext
          · next hi =>
              cases hnext
              exact .release hcall hi
          · cases hnext
      · cases hnext
  | write item =>
      cases hnext
      exact .write item
  | publish =>
      cases hnext
      exact .publish
  | corrupt word =>
      cases hnext
      exact .corrupt word

/-- How many entries the call in progress has passed on. -/
def passed (d : Draining α) : ℕ := (d.call.map Consuming.i).getD 0

/-- Next index the process reads. -/
def head (d : Draining α) : BitVec 32 := d.consumer.cons + BitVec.ofNat 32 d.passed

variable {d d' : Draining α} {ev : Event α} {first : ℕ}

/-- The streams of a state, with indices from `first` on. -/
structure Proper (first : ℕ) (d : Draining α) : Prop where
  fifo : d.consumer.ring.Fifo first d.released d.received d.sent d.written
  cons_eq : d.consumer.cons = BitVec.ofNat 32 (first + d.released)
  tail_eq : d.tail = BitVec.ofNat 32 (first + d.written.length)
  received_length : d.received.length = d.released + d.passed
  call : ∀ call ∈ d.call, call.i ≤ call.taken ∧ d.released + call.taken ≤ d.sent.length ∧
    call.taken = min call.ready call.max.toNat

theorem Proper.head_eq (h : d.Proper first) :
    d.head = BitVec.ofNat 32 (first + d.received.length) := by
  rw [head, h.cons_eq, h.received_length, ← BitVec.ofNat_add, Nat.add_assoc]

theorem Proper.start {ring : Ring α} (h : ring.producer = ring.consumer) :
    (start ring).Proper ring.consumer.toNat where
  fifo := .new h
  cons_eq := (Ring.Fifo.new h).consumer_eq
  tail_eq := (Ring.Fifo.new h).producer_eq
  received_length := rfl
  call := nofun

theorem Proper.load (h : d.Proper first) (hcall : d.call = none) (max : BitVec 32) :
    Proper first { d with call := some (d.load max) } := by
  have hreceived : d.received.length = d.released := by
    rw [h.received_length, passed, hcall]
    rfl
  have hcons : d.consumer.cons = BitVec.ofNat 32 (first + d.received.length) := by
    rw [h.cons_eq, hreceived]
  have hready := h.fifo.ready_eq hreceived.symm hcons
  have hle := h.fifo.received_prefix.length_le
  refine ⟨h.fifo, h.cons_eq, h.tail_eq, hreceived, ?_⟩
  rintro _ ⟨⟩
  refine ⟨Nat.zero_le _, ?_, ?_⟩
  · change d.released + min d.consumer.ready max.toNat ≤ d.sent.length
    omega
  · exact congrArg (min · max.toNat) hready

theorem Proper.pass {call : Consuming} {touched : List ℕ} (h : d.Proper first)
    (hcall : d.call = some call) (hlt : call.i < call.taken) :
    Proper first
      { d with
        call := some { call with i := call.i + 1, touched := touched }
        received := d.received ++
          [d.consumer.ring.read (d.consumer.cons + BitVec.ofNat 32 call.i)] } := by
  obtain ⟨-, hle, htaken⟩ := h.call _ hcall
  have hreceived : d.received.length = d.released + call.i := by
    rw [h.received_length, passed, hcall]
    rfl
  have hindex : d.consumer.cons + BitVec.ofNat 32 call.i
      = BitVec.ofNat 32 (first + d.received.length) := by
    rw [h.cons_eq, hreceived, ← BitVec.ofNat_add, Nat.add_assoc]
  refine ⟨?_, h.cons_eq, h.tail_eq, ?_, ?_⟩
  · rw [hindex]
    exact h.fifo.read (by omega)
  · rw [List.length_append, hreceived]
    rfl
  · rintro _ ⟨⟩
    exact ⟨hlt, hle, htaken⟩

theorem Proper.release {call : Consuming} (h : d.Proper first) (hcall : d.call = some call)
    (hi : call.i = call.taken) :
    Proper first
      { d with
        consumer := d.consumer.release (BitVec.ofNat 32 call.taken)
        call := none
        released := d.received.length } := by
  have hreceived : d.received.length = d.released + call.taken := by
    rw [h.received_length, passed, hcall, ← hi]
    rfl
  have hindex : d.consumer.cons + BitVec.ofNat 32 call.taken
      = BitVec.ofNat 32 (first + d.received.length) := by
    rw [h.cons_eq, hreceived, ← BitVec.ofNat_add, Nat.add_assoc]
  rw [Consumer.release_eq (h.fifo.consumer_eq.trans h.cons_eq.symm), hindex]
  exact ⟨h.fifo.release, rfl, h.tail_eq, rfl, nofun⟩

theorem Proper.write (h : d.Proper first)
    (hfree : d.written.length < d.released + d.consumer.ring.desc.length) (item : α) :
    Proper first
      { d with
        consumer := { d.consumer with ring := d.consumer.ring.write d.tail item }
        tail := d.tail + 1
        written := d.written ++ [item] } where
  fifo := by
    rw [h.tail_eq]
    exact h.fifo.write hfree item
  cons_eq := h.cons_eq
  tail_eq := by
    rw [List.length_append, List.length_singleton, ← Nat.add_assoc, RingBuffer.ofNat_succ,
      ← h.tail_eq]
  received_length := h.received_length
  call := h.call

theorem Proper.publish (h : d.Proper first) :
    Proper first
      { d with
        consumer := { d.consumer with ring := d.consumer.ring.storeProducer d.tail }
        sent := d.written } where
  fifo := by
    rw [h.tail_eq]
    exact h.fifo.publish
  cons_eq := h.cons_eq
  tail_eq := h.tail_eq
  received_length := h.received_length
  call := by
    intro call hcall
    obtain ⟨hi, hle, htaken⟩ := h.call call hcall
    exact ⟨hi, hle.trans h.fifo.sent_prefix.length_le, htaken⟩

theorem Proper.next (h : d.Proper first) (hhonest : Honest d ev) (hnext : d.next ev = some d') :
    d'.Proper first := by
  cases moves_of_next hnext with
  | load max hcall => exact h.load hcall max
  | pass hcall hlt => exact h.pass hcall hlt
  | release hcall hi => exact h.release hcall hi
  | write item => exact h.write hhonest item
  | publish => exact h.publish
  | corrupt word => exact hhonest.elim

/-! ## A call nothing comes between -/

/-- The loop of `consume` reads entry by entry and releases. -/
theorem follow_pass (d : Draining α) :
    ∀ (n : ℕ) (call : Consuming) (received : List α), call.i + n = call.taken →
      Machine.follow next { d with call := some call, received := received }
        (List.replicate n .pass ++ [.release])
      = some
        { d with
          consumer := d.consumer.release (BitVec.ofNat 32 call.taken)
          call := none
          released := (received ++ (List.range n).map fun j ↦
            d.consumer.ring.read (d.consumer.cons + BitVec.ofNat 32 (call.i + j))).length
          received := received ++ (List.range n).map fun j ↦
            d.consumer.ring.read (d.consumer.cons + BitVec.ofNat 32 (call.i + j)) } := by
  intro n
  induction n with
  | zero =>
      intro call received hn
      have hi : call.i = call.taken := hn
      simp [Machine.follow, next, hi]
  | succ n ih =>
      intro call received hn
      have hlt : call.i < call.taken := by omega
      have hrest := ih
        { call with
          i := call.i + 1
          touched := call.touched ++
            [d.consumer.ring.entry (d.consumer.cons + BitVec.ofNat 32 call.i)] }
        (received ++ [d.consumer.ring.read (d.consumer.cons + BitVec.ofNat 32 call.i)])
        (show call.i + 1 + n = call.taken by omega)
      rw [List.replicate_succ, List.cons_append, Machine.follow]
      simp only [next, hlt, if_true, Option.bind_some]
      rw [hrest, List.range_succ_eq_map, List.map_cons, List.map_map]
      simp only [List.append_assoc, List.singleton_append, Function.comp_def, Nat.add_zero,
        Nat.succ_eq_add_one, Nat.add_right_comm, Nat.add_assoc]

/-- `consume` is the run of its accesses. -/
theorem follow_consume (d : Draining α) (hcall : d.call = none) (max : BitVec 32) :
    Machine.follow next d
      (.load max :: (List.replicate (min d.consumer.ready max.toNat) .pass ++ [.release]))
    = some
      { d with
        consumer := (d.consumer.consume max).2
        call := none
        released := (d.received ++ (d.consumer.consume max).1).length
        received := d.received ++ (d.consumer.consume max).1 } := by
  have hload : d.next (.load max) = some { d with call := some (d.load max) } := by
    simp only [next, hcall]
  have hpass := d.follow_pass (min d.consumer.ready max.toNat) (d.load max) d.received
    (Nat.zero_add _)
  rw [Machine.follow, hload, Option.bind_some, hpass]
  simp only [load, Nat.zero_add, Consumer.consume]

/-! ## Whatever word the peer stores -/

/-- The accesses of a call stay in the array and within one lap. -/
structure Bounded (n : ℕ) (d : Draining α) : Prop where
  length_desc : d.consumer.ring.desc.length = n
  touched_length : ∀ call ∈ d.call, call.touched.length = call.i ∧ call.i ≤ call.taken ∧
    call.taken ≤ n
  touched_lt : ∀ call ∈ d.call, ∀ i ∈ call.touched, i < n

theorem Bounded.pass {n : ℕ} {call : Consuming} (h : d.Bounded n) (hcall : d.call = some call)
    (hlt : call.i < call.taken) (index : BitVec 32) (received : List α) :
    Bounded n
      { d with
        call := some
          { call with
            i := call.i + 1
            touched := call.touched ++ [d.consumer.ring.entry index] }
        received := received } where
  length_desc := h.length_desc
  touched_length := by
    rintro _ ⟨⟩
    obtain ⟨htouched, -, hle⟩ := h.touched_length _ hcall
    refine ⟨?_, hlt, hle⟩
    rw [List.length_append, List.length_singleton, htouched]
  touched_lt := by
    rintro _ ⟨⟩ i hi
    rcases List.mem_append.mp hi with hi | hi
    · exact h.touched_lt _ hcall i hi
    · rw [List.mem_singleton.mp hi, ← h.length_desc]
      exact d.consumer.ring.entry_lt index

theorem Bounded.start (ring : Ring α) : (start ring).Bounded ring.desc.length :=
  ⟨rfl, nofun, nofun⟩

theorem Bounded.next {n : ℕ} (h : d.Bounded n) (hnext : d.next ev = some d') :
    d'.Bounded n := by
  cases moves_of_next hnext with
  | load max hcall =>
      have hready : d.consumer.ready ≤ n := by
        rw [← h.length_desc, ← Ring.toNat_size]
        exact min_le_right _ _
      refine ⟨h.length_desc, ?_, ?_⟩
      · rintro _ ⟨⟩
        exact ⟨rfl, Nat.zero_le _, (min_le_left _ _).trans hready⟩
      · rintro _ ⟨⟩ i hi
        cases hi
  | pass hcall hlt => exact h.pass hcall hlt _ _
  | release hcall hi =>
      exact ⟨(Consumer.length_desc_release _ _).trans h.length_desc, nofun, nofun⟩
  | write item =>
      exact ⟨(Ring.length_desc_write _ _ _).trans h.length_desc, h.touched_length, h.touched_lt⟩
  | publish | corrupt => exact ⟨h.length_desc, h.touched_length, h.touched_lt⟩

end Draining

end Afxdp
