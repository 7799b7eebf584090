import PolarisTrade.Lib.Inflate
import PolarisTrade.Lib.Machine
import PolarisTrade.SoupBin.Session

/-!
# The compressed build

Socket bytes land in a staging buffer and are inflated in steps of at most `decode_buf_capacity`
bytes.  The inflator is a third party: the reader sees its counters and its status, and rebuilds
from them what a step took and wrote.  Over any inflator that keeps its contract the steps lose
nothing.
-/

namespace SoupBin

open Transport Inflate

variable {σ ε : Type}

/-! ## The reader -/

structure CompressedReader (σ : Type) where
  inflator : σ
  /-- output of the latest `feed`; its length is the cap of one call -/
  out : List UInt8
  produced : ℕ

inductive CompressedError (ε : Type) where
  | transport (e : TransportError)
  /-- `ProtocolViolation("zlib inflate failed: ..")` -/
  | inflateFailed (e : ε)
  /-- `ProtocolViolation("zlib inflate made no progress")` -/
  | noProgress

/-- Bytes moved since `start`, clamped to the bound of a slice. -/
def moved (total start limit : ℕ) : ℕ := min (total - start) limit

/-- `bytes` written into `buf` at `offset`. -/
def overwrite (buf : List UInt8) (offset : ℕ) (bytes : List UInt8) : List UInt8 :=
  buf.take offset ++ bytes ++ buf.drop (offset + bytes.length)

namespace CompressedReader

def new (inflator : σ) (inflatedCapacity : ℕ) : CompressedReader σ where
  inflator := inflator
  out := List.replicate inflatedCapacity 0
  produced := 0

/-- The loop of `feed` from `consumed` on; every turn that goes on takes or writes a byte. -/
def feedLoop (z : Decompress σ ε UInt8 UInt8) (compressed : List UInt8) (startIn startOut : ℕ) :
    ℕ → ℕ → CompressedReader σ → Except ε ℕ × CompressedReader σ
  | fuel, consumed, r =>
      if r.produced < r.out.length then
        match z.decompress r.inflator (compressed.drop consumed)
            (r.out.length - r.produced) with
        | (.error e, inflator) => (.error e, { r with inflator := inflator })
        | (.ok (status, bytes), inflator) =>
            let r' : CompressedReader σ :=
              { inflator := inflator
                out := overwrite r.out r.produced bytes
                produced := moved (z.totalOut inflator) startOut r.out.length }
            let consumed' := moved (z.totalIn inflator) startIn compressed.length
            -- nothing inflates past stream end; the tail is dropped
            if status = .streamEnd then (.ok compressed.length, r')
            else if consumed' = consumed ∧ r'.produced = r.produced then (.ok consumed', r')
            else
              match fuel with
              | 0 => (.ok consumed', r')
              | fuel + 1 => feedLoop z compressed startIn startOut fuel consumed' r'
      else (.ok consumed, r)

/-- Inflate the front of `compressed` until it runs out, the stream ends or the output reaches
its cap: how much was consumed, and what came out. -/
def feed (z : Decompress σ ε UInt8 UInt8) (r : CompressedReader σ) (compressed : List UInt8) :
    Except (CompressedError ε) (ℕ × List UInt8) × CompressedReader σ :=
  match feedLoop z compressed (z.totalIn r.inflator) (z.totalOut r.inflator)
      (compressed.length + r.out.length) 0 { r with produced := 0 } with
  | (.error e, r) => (.error (.inflateFailed e), r)
  | (.ok consumed, r) =>
      if consumed = 0 ∧ r.produced = 0 ∧ compressed ≠ [] then (.error .noProgress, r)
      else (.ok (consumed, r.out.take r.produced), r)

/-- The latest `feed` filled its cap: the inflator may hold output. -/
def capped (r : CompressedReader σ) : Bool :=
  r.produced != 0 && r.produced == r.out.length

end CompressedReader

/-! ## The session -/

/-- What of a session `ingest` touches in the compressed build. -/
structure Inflating (σ : Type) where
  decodeBuf : List UInt8
  inflate : CompressedReader σ
  recvStaging : List UInt8
  lastRecv : Instant

namespace Inflating

def new (inflator : σ) (decodeBufCapacity : ℕ) (now : Instant) : Inflating σ where
  decodeBuf := []
  inflate := .new inflator decodeBufCapacity
  recvStaging := []
  lastRecv := now

/-- Compressed input not yet inflated. -/
def staged (s : Inflating σ) : Bool := !s.recvStaging.isEmpty || s.inflate.capped

/-- One inflate step behind what is buffered. -/
def inflateStep (z : Decompress σ ε UInt8 UInt8) (s : Inflating σ) :
    Except (CompressedError ε) Bool × Inflating σ :=
  match s.inflate.feed z s.recvStaging with
  | (.error e, r) => (.error e, { s with inflate := r })
  | (.ok (consumed, inflated), r) =>
      (.ok true,
        { s with
          inflate := r
          decodeBuf := s.decodeBuf ++ inflated
          recvStaging := s.recvStaging.drop consumed })

/-- Land one `recv_into` chunk if nothing is staged, then inflate one step; `false` once the
transport reads nothing.  The room reserved first bounds what one call lands, and any bound does
here. -/
def ingest (z : Decompress σ ε UInt8 UInt8) (s : Inflating σ) (t : Stream) (now : Instant) :
    Except (CompressedError ε) Bool × Inflating σ × Stream :=
  if s.staged then
    let (r, s) := s.inflateStep z
    (r, s, t)
  else
    match t.recvInto with
    | (.error e, t) => (.error (.transport e), s, t)
    | (.ok bytes, t) =>
        if bytes.isEmpty then (.ok false, s, t)
        else
          let (r, s) :=
            inflateStep z { s with recvStaging := s.recvStaging ++ bytes, lastRecv := now }
          (r, s, t)

end Inflating

/-! ## One feed -/

theorem length_overwrite {buf bytes : List UInt8} {offset : ℕ}
    (hfits : offset + bytes.length ≤ buf.length) :
    (overwrite buf offset bytes).length = buf.length := by
  rw [overwrite, List.length_append, List.length_append, List.length_take, List.length_drop]
  omega

theorem take_overwrite {buf bytes : List UInt8} {offset : ℕ} (hoffset : offset ≤ buf.length) :
    (overwrite buf offset bytes).take (offset + bytes.length) = buf.take offset ++ bytes := by
  have hlength : (buf.take offset ++ bytes).length = offset + bytes.length := by
    rw [List.length_append, List.length_take_of_le hoffset]
  rw [overwrite, ← hlength, List.take_left]

namespace CompressedReader

variable {z : Decompress σ ε UInt8 UInt8} {f : Format UInt8 UInt8}
  {At : σ → List UInt8 → List UInt8 → Prop} {fed written compressed : List UInt8}
  {startIn startOut : ℕ} {r r' : CompressedReader σ}

theorem capped_iff : r.capped = true ↔ r.produced ≠ 0 ∧ r.produced = r.out.length := by
  simp only [capped, Bool.and_eq_true, bne_iff_ne, ne_eq, beq_iff_eq]

/-- The texts of the inflator behind `r`, `k` bytes into `compressed`. -/
def Reached (f : Format UInt8 UInt8) (fed written compressed : List UInt8) (k : ℕ)
    (r : CompressedReader σ) : Prop :=
  f.Over (fed ++ compressed.take k) (written ++ r.out.take r.produced)

/-- A feed that took `k` bytes and calls `consumed` of them gone: all of them at the end of the
stream, and else exactly the ones taken, with the cap reached or nothing left to take or to
write. -/
structure Fed (f : Format UInt8 UInt8) (At : σ → List UInt8 → List UInt8 → Prop)
    (fed written compressed : List UInt8) (k consumed : ℕ) (inflated : List UInt8)
    (r : CompressedReader σ) : Prop where
  take_le : k ≤ compressed.length
  length_eq : inflated.length = r.produced
  produced_le : r.produced ≤ r.out.length
  at_end : At r.inflator (fed ++ compressed.take k) (written ++ inflated)
  over_end : f.Over (fed ++ compressed.take k) (written ++ inflated) →
    consumed = compressed.length
  open_end : ¬ f.Over (fed ++ compressed.take k) (written ++ inflated) → consumed = k ∧
    (r.produced = r.out.length ∨
      k = compressed.length ∧ written ++ inflated = f.inflate (fed ++ compressed))

/-- Past the end of the stream a feed writes nothing. -/
theorem Fed.over (hz : Meets z f At) {k consumed : ℕ} {inflated : List UInt8}
    (h : Fed f At fed written compressed k consumed inflated r) (hover : f.Over fed written) :
    inflated = [] ∧ f.Over (fed ++ compressed.take k) (written ++ inflated) := by
  have hle := hz.written_le h.at_end
  rw [← hover.inflate_append] at hle
  have hnil : inflated = [] := by
    have hlen := hle.length_le
    rw [List.length_append] at hlen
    exact List.length_eq_zero_iff.mp (by omega)
  refine ⟨hnil, ?_⟩
  rw [hnil, List.append_nil]
  exact hover.append _

/-- Where the loop stands: the texts so far, and the counters that tell how far it is. -/
structure Feeding (z : Decompress σ ε UInt8 UInt8) (At : σ → List UInt8 → List UInt8 → Prop)
    (fed written compressed : List UInt8) (startIn startOut consumed : ℕ)
    (r : CompressedReader σ) : Prop where
  take_le : consumed ≤ compressed.length
  produced_le : r.produced ≤ r.out.length
  at_here : At r.inflator (fed ++ compressed.take consumed) (written ++ r.out.take r.produced)
  totalIn_eq : z.totalIn r.inflator = startIn + consumed
  totalOut_eq : z.totalOut r.inflator = startOut + r.produced

/-- The reader behind a call that wrote `bytes`. -/
def wrote (r : CompressedReader σ) (bytes : List UInt8) (inflator : σ) : CompressedReader σ where
  inflator := inflator
  out := overwrite r.out r.produced bytes
  produced := r.produced + bytes.length

/-- One successful call of the inflator inside the loop, as its counters tell it. -/
theorem Feeding.call (hz : Meets z f At) {consumed : ℕ}
    (h : Feeding z At fed written compressed startIn startOut consumed r)
    (hroom : r.produced < r.out.length) {status : Status} {bytes : List UInt8} {inflator : σ}
    (hcall : z.decompress r.inflator (compressed.drop consumed) (r.out.length - r.produced) =
      (.ok (status, bytes), inflator)) :
    ∃ k, moved (z.totalIn inflator) startIn compressed.length = consumed + k ∧
      moved (z.totalOut inflator) startOut r.out.length = r.produced + bytes.length ∧
      (r.wrote bytes inflator).out.length = r.out.length ∧
      Feeding z At fed written compressed startIn startOut (consumed + k)
        (r.wrote bytes inflator) ∧
      (status = .streamEnd ↔
        Reached f fed written compressed (consumed + k) (r.wrote bytes inflator)) ∧
      (k = 0 → bytes = [] → status ≠ .streamEnd → consumed = compressed.length ∧
        written ++ (r.wrote bytes inflator).out.take (r.wrote bytes inflator).produced =
          f.inflate (fed ++ compressed)) := by
  obtain ⟨k, hk⟩ := hz.call h.at_here hcall
  have htake := hk.take_le
  have hout := hk.out_le
  have hconsumed := h.take_le
  rw [List.length_drop] at htake
  have hlength : (r.wrote bytes inflator).out.length = r.out.length :=
    length_overwrite (by omega)
  have hfed : fed ++ compressed.take consumed ++ (compressed.drop consumed).take k =
      fed ++ compressed.take (consumed + k) := by
    rw [List.append_assoc, ← List.take_add]
  have hwritten : written ++ r.out.take r.produced ++ bytes =
      written ++ (r.wrote bytes inflator).out.take (r.wrote bytes inflator).produced := by
    rw [wrote, take_overwrite h.produced_le, List.append_assoc]
  have hat := hk.at_next
  have hend := hk.streamEnd_iff
  rw [hfed, hwritten] at hat hend
  refine ⟨k, ?_, ?_, hlength, ⟨by omega, ?_, hat, ?_, ?_⟩, hend, ?_⟩
  · rw [moved, hk.totalIn_eq, h.totalIn_eq]
    omega
  · rw [moved, hk.totalOut_eq, h.totalOut_eq]
    omega
  · rw [hlength]
    change r.produced + bytes.length ≤ r.out.length
    omega
  · change z.totalIn inflator = _
    rw [hk.totalIn_eq, h.totalIn_eq, Nat.add_assoc]
  · change z.totalOut inflator = startOut + (r.produced + bytes.length)
    rw [hk.totalOut_eq, h.totalOut_eq, Nat.add_assoc]
  · rintro rfl rfl hstatus
    obtain ⟨hinput, hflat⟩ := hk.stalled (by omega) hstatus
    have hall : consumed = compressed.length :=
      Nat.le_antisymm hconsumed (List.drop_eq_nil_iff.mp hinput)
    refine ⟨hall, ?_⟩
    rw [← hwritten, List.append_nil, hflat, hall, List.take_length]

/-- The loop, with a turn for every byte it may still take or write. -/
theorem feedLoop_fed (hz : Meets z f At) {fuel consumed consumed' : ℕ} {r : CompressedReader σ}
    (h : Feeding z At fed written compressed startIn startOut consumed r)
    (hopen : Reached f fed written compressed consumed r → r.produced < r.out.length)
    (hfuel : compressed.length + r.out.length ≤ fuel + (consumed + r.produced))
    (hloop : feedLoop z compressed startIn startOut fuel consumed r = (.ok consumed', r')) :
    r'.out.length = r.out.length ∧
      ∃ k, Fed f At fed written compressed k consumed' (r'.out.take r'.produced) r' := by
  unfold feedLoop at hloop
  by_cases hroom : r.produced < r.out.length
  · rw [if_pos hroom] at hloop
    rcases hcall : z.decompress r.inflator (compressed.drop consumed)
      (r.out.length - r.produced) with ⟨e | ⟨status, bytes⟩, inflator⟩
    · rw [hcall] at hloop
      cases hloop
    · obtain ⟨k, hin, hout, hlength, hnext, hend, hstall⟩ := h.call hz hroom hcall
      rw [hcall] at hloop
      dsimp only at hloop
      rw [hin, hout] at hloop
      change (if status = .streamEnd then (.ok compressed.length, r.wrote bytes inflator)
        else if consumed + k = consumed ∧ r.produced + bytes.length = r.produced then
          (.ok (consumed + k), r.wrote bytes inflator)
        else match fuel with
          | 0 => (.ok (consumed + k), r.wrote bytes inflator)
          | fuel + 1 => feedLoop z compressed startIn startOut fuel (consumed + k)
              (r.wrote bytes inflator)) = _ at hloop
      split_ifs at hloop with hstatus hmoved
      · -- end of the stream: whatever is left of the input is dropped
        cases hloop
        exact ⟨hlength, consumed + k, hnext.take_le, List.length_take_of_le hnext.produced_le,
          hnext.produced_le, hnext.at_here, fun _ ↦ rfl,
          fun hnot ↦ (hnot (hend.mp hstatus)).elim⟩
      · cases hloop
        have hk : k = 0 := by omega
        have hbytes : bytes = [] := List.length_eq_zero_iff.mp (by omega)
        obtain ⟨hall, hflat⟩ := hstall hk hbytes hstatus
        refine ⟨hlength, consumed + k, hnext.take_le, List.length_take_of_le hnext.produced_le,
          hnext.produced_le, hnext.at_here, fun hover ↦ (hstatus (hend.mpr hover)).elim,
          fun _ ↦ ⟨rfl, Or.inr ⟨?_, hflat⟩⟩⟩
        rw [hk, hall]
        rfl
      · -- a turn that goes on moves a counter, so the fuel lasts
        have htake := hnext.take_le
        have hproduced := hnext.produced_le
        rw [hlength] at hproduced
        change r.produced + bytes.length ≤ r.out.length at hproduced
        cases fuel with
        | zero => omega
        | succ fuel =>
            have hfuel' : compressed.length + (r.wrote bytes inflator).out.length ≤
                fuel + (consumed + k + (r.wrote bytes inflator).produced) := by
              rw [hlength]
              change _ ≤ fuel + (consumed + k + (r.produced + bytes.length))
              omega
            have hrest := feedLoop_fed hz hnext
              (fun hover ↦ (hstatus (hend.mpr hover)).elim) hfuel' hloop
            rwa [hlength] at hrest
  · rw [if_neg hroom] at hloop
    cases hloop
    refine ⟨rfl, consumed, h.take_le, List.length_take_of_le h.produced_le, h.produced_le,
      h.at_here, fun hover ↦ (hroom (hopen hover)).elim, fun _ ↦ ⟨rfl, Or.inl ?_⟩⟩
    exact Nat.le_antisymm h.produced_le (Nat.le_of_not_lt hroom)

/-- A feed of a reader that has a cap fails in the inflator or gets on.  It never stalls on
input. -/
theorem feed_cases (hz : Meets z f At) (hat : At r.inflator fed written)
    (hcap : 0 < r.out.length) :
    (∃ e r', r.feed z compressed = (.error (.inflateFailed e), r')) ∨
    ∃ r' k consumed inflated, r.feed z compressed = (.ok (consumed, inflated), r') ∧
      r'.out.length = r.out.length ∧ Fed f At fed written compressed k consumed inflated r' := by
  have hstart : Feeding z At fed written compressed (z.totalIn r.inflator)
      (z.totalOut r.inflator) 0 { r with produced := 0 } := by
    refine ⟨Nat.zero_le _, Nat.zero_le _, ?_, rfl, rfl⟩
    rw [List.take_zero, List.take_zero, List.append_nil, List.append_nil]
    exact hat
  unfold feed
  rcases hresult : feedLoop z compressed (z.totalIn r.inflator) (z.totalOut r.inflator)
    (compressed.length + r.out.length) 0 { r with produced := 0 } with ⟨e | consumed, r'⟩
  · exact Or.inl ⟨e, r', rfl⟩
  · obtain ⟨hlength, k, hfed⟩ :=
      feedLoop_fed hz hstart (fun _ ↦ hcap) (Nat.le_add_right _ _) hresult
    dsimp only at hlength ⊢
    have hmoves : ¬ (consumed = 0 ∧ r'.produced = 0 ∧ compressed ≠ []) := by
      rintro ⟨rfl, hzero, hne⟩
      have hpos := List.length_pos_of_ne_nil hne
      by_cases hover : f.Over (fed ++ compressed.take k) (written ++ r'.out.take r'.produced)
      · have := hfed.over_end hover
        omega
      · rcases hfed.open_end hover with ⟨hk, hfull | ⟨hall, -⟩⟩
        · omega
        · omega
    rw [if_neg hmoves]
    exact Or.inr ⟨r', k, consumed, _, rfl, hlength, hfed⟩

end CompressedReader

/-! ## Runs of `ingest` -/

/-- A session over its transport, with all that `ingest` has appended to the decode buffer. -/
structure Inflow (σ : Type) where
  session : Inflating σ
  transport : Stream
  appended : List UInt8

inductive InflowEvent where
  | ingest (now : Instant)
  /-- `n` bytes are dispatched off the decode buffer -/
  | dispatch (n : ℕ)

namespace Inflow

variable {z : Decompress σ ε UInt8 UInt8} {f : Format UInt8 UInt8}
  {At : σ → List UInt8 → List UInt8 → Prop} {capacity : ℕ} {fed : List UInt8} {d d' : Inflow σ}

/-- A stream that fails to inflate ends the run; a failing transport does not. -/
def next (z : Decompress σ ε UInt8 UInt8) (d : Inflow σ) : InflowEvent → Option (Inflow σ)
  | .ingest now =>
      match d.session.ingest z d.transport now with
      | (.ok _, s, t) | (.error (.transport _), s, t) =>
          some
            { session := s
              transport := t
              appended := d.appended ++ s.decodeBuf.drop d.session.decodeBuf.length }
      | (.error _, _, _) => none
  | .dispatch n =>
      some { d with session := { d.session with decodeBuf := d.session.decodeBuf.drop n } }

def machine (z : Decompress σ ε UInt8 UInt8) : Machine (Inflow σ) InflowEvent := .ofNext (next z)

def start (inflator : σ) (capacity : ℕ) (recvs : List (Except TransportError (List UInt8)))
    (sends : List (Except TransportError ℕ)) (now : Instant) : Inflow σ where
  session := .new inflator capacity now
  transport := { recvs := recvs, sends := sends }
  appended := []

/-- The inflator has taken `fed`, which is what was read without what is staged until the stream
has ended. -/
structure Ready (f : Format UInt8 UInt8) (At : σ → List UInt8 → List UInt8 → Prop) (capacity : ℕ)
    (fed : List UInt8) (d : Inflow σ) : Prop where
  at_here : At d.session.inflate.inflator fed d.appended
  cap : d.session.inflate.out.length = capacity
  running : ¬ f.Over fed d.appended → d.transport.received = fed ++ d.session.recvStaging
  ended : f.Over fed d.appended →
    ∃ whole, f.Over whole d.appended ∧ whole <+: d.transport.received

/-- Behind a step that was not capped nothing is left to take or to write. -/
structure Kept (f : Format UInt8 UInt8) (At : σ → List UInt8 → List UInt8 → Prop) (capacity : ℕ)
    (fed : List UInt8) (d : Inflow σ) : Prop extends Ready f At capacity fed d where
  emptied : f.Over fed d.appended → d.session.recvStaging = []
  drained : d.session.inflate.capped = false →
    d.session.recvStaging = [] ∧ d.appended = f.inflate fed

/-- What the steps before the next read have left to do. -/
def left (f : Format UInt8 UInt8) (fed : List UInt8) (d : Inflow σ) : ℕ :=
  2 * (d.session.recvStaging.length +
    ((f.inflate (fed ++ d.session.recvStaging)).length - d.appended.length)) +
    d.session.inflate.capped.toNat

/-- `d` behind a feed of what is staged. -/
def fedOn (d : Inflow σ) (r : CompressedReader σ) (consumed : ℕ) (inflated : List UInt8) :
    Inflow σ where
  session :=
    { d.session with
      inflate := r
      decodeBuf := d.session.decodeBuf ++ inflated
      recvStaging := d.session.recvStaging.drop consumed }
  transport := d.transport
  appended := d.appended ++ inflated

section Feed

variable {r : CompressedReader σ} {k consumed : ℕ} {inflated : List UInt8}
  (hz : Meets z f At) (hcapacity : 0 < capacity) (h : Ready f At capacity fed d)
  (hfed : CompressedReader.Fed f At fed d.appended d.session.recvStaging k consumed inflated r)
  (hlength : r.out.length = capacity)
include hz hcapacity h hfed hlength

theorem Ready.fedOn :
    Kept f At capacity (fed ++ d.session.recvStaging.take k) (d.fedOn r consumed inflated) := by
  refine ⟨⟨hfed.at_end, hlength, fun hopen ↦ ?_, fun hover ↦ ?_⟩, fun hover ↦ ?_,
    fun hcapped ↦ ?_⟩
  · change d.transport.received = _ ++ d.session.recvStaging.drop consumed
    rw [h.running fun hover ↦ hopen (hfed.over hz hover).2, (hfed.open_end hopen).1,
      List.append_assoc, List.take_append_drop]
  · by_cases hold : f.Over fed d.appended
    · obtain ⟨whole, hwhole, hread⟩ := h.ended hold
      refine ⟨whole, ?_, hread⟩
      change f.Over whole (d.appended ++ inflated)
      rw [(hfed.over hz hold).1, List.append_nil]
      exact hwhole
    · refine ⟨_, hover, ?_⟩
      change _ <+: d.transport.received
      rw [h.running hold]
      exact (List.prefix_append_right_inj _).mpr (List.take_prefix _ _)
  · change d.session.recvStaging.drop consumed = []
    rw [hfed.over_end hover, List.drop_length]
  · change d.session.recvStaging.drop consumed = [] ∧ d.appended ++ inflated = _
    by_cases hover : f.Over (fed ++ d.session.recvStaging.take k) (d.appended ++ inflated)
    · rw [hfed.over_end hover, List.drop_length]
      exact ⟨rfl, hover.2⟩
    · obtain ⟨rfl, hfull | ⟨hall, hflat⟩⟩ := hfed.open_end hover
      · -- a full output counts as capped
        have htrue : r.capped = true := CompressedReader.capped_iff.mpr ⟨by omega, hfull⟩
        rw [show (d.fedOn r consumed inflated).session.inflate.capped = r.capped from rfl,
          htrue] at hcapped
        cases hcapped
      · rw [hall, List.drop_length, List.take_length]
        exact ⟨rfl, hflat⟩

/-- A step over something staged leaves less to do. -/
theorem Ready.left_fedOn (hstaged : d.session.staged = true) :
    (d.fedOn r consumed inflated).left f (fed ++ d.session.recvStaging.take k) < d.left f fed := by
  have hkept := h.fedOn hz hcapacity hfed hlength
  have hleft : (d.fedOn r consumed inflated).left f (fed ++ d.session.recvStaging.take k) =
      2 * ((d.session.recvStaging.drop consumed).length +
        ((f.inflate (fed ++ d.session.recvStaging.take k ++
          d.session.recvStaging.drop consumed)).length -
            (d.appended ++ inflated).length)) + r.capped.toNat := rfl
  -- what is written is the front of what the staged bytes inflate to
  have hwhole : fed ++ d.session.recvStaging.take k ++ d.session.recvStaging.drop k =
      fed ++ d.session.recvStaging := by
    rw [List.append_assoc, List.take_append_drop]
  have hle : (d.appended ++ inflated).length ≤
      (f.inflate (fed ++ d.session.recvStaging)).length := by
    rw [← hwhole]
    exact ((hz.written_le hfed.at_end).trans (f.inflate_append _ _)).length_le
  have hsome : 0 < d.session.recvStaging.length + d.session.inflate.capped.toNat := by
    rcases Bool.or_eq_true_iff.mp hstaged with hstaging | hcapped
    · have hne : d.session.recvStaging ≠ [] := by simpa using hstaging
      exact Nat.add_pos_left (List.length_pos_of_ne_nil hne) _
    · rw [hcapped]
      exact Nat.add_pos_right _ Nat.one_pos
  rw [hleft, left]
  by_cases hfull : r.capped = true
  · have hpos : 0 < inflated.length := by
      rw [hfed.length_eq]
      exact Nat.pos_of_ne_zero (CompressedReader.capped_iff.mp hfull).1
    rw [hfull, Bool.toNat_true]
    by_cases hover : f.Over (fed ++ d.session.recvStaging.take k) (d.appended ++ inflated)
    · rw [hfed.over_end hover, List.drop_length, List.append_nil, ← hover.2]
      rw [List.length_append] at hle ⊢
      simp only [List.length_nil]
      omega
    · have hk := hfed.take_le
      rw [(hfed.open_end hover).1, hwhole, List.length_drop]
      rw [List.length_append] at hle ⊢
      omega
  · have hnot : r.capped = false := Bool.eq_false_of_not_eq_true hfull
    obtain ⟨hempty, hflat⟩ := hkept.drained hnot
    change d.session.recvStaging.drop consumed = [] at hempty
    change d.appended ++ inflated = _ at hflat
    rw [hempty, hflat, hnot, List.append_nil, Nat.sub_self, Bool.toNat_false, List.length_nil]
    omega

end Feed

/-! ## One `ingest` -/

/-- `d` behind a read of `bytes`. -/
def landed (d : Inflow σ) (bytes : List UInt8) (recvs : List (Except TransportError (List UInt8)))
    (now : Instant) : Inflow σ where
  session :=
    { d.session with recvStaging := d.session.recvStaging ++ bytes, lastRecv := now }
  transport := { d.transport with recvs := recvs, received := d.transport.received ++ bytes }
  appended := d.appended

/-- The state whose staged bytes an `ingest` in `d` inflates: `d` itself, or `d` behind a read. -/
inductive Lands (d : Inflow σ) (now : Instant) : Inflow σ → Prop
  | staged : d.session.staged = true → Lands d now d
  | read {bytes recvs} : d.session.staged = false → bytes ≠ [] →
      Lands d now (d.landed bytes recvs now)

theorem staged_eq_false (hstaged : d.session.staged = false) :
    d.session.recvStaging = [] ∧ d.session.inflate.capped = false := by
  simpa [Inflating.staged] using hstaged

namespace Lands

variable {now : Instant} {d₁ : Inflow σ}

theorem appended_eq (h : Lands d now d₁) :
    d₁.appended = d.appended ∧ d₁.session.decodeBuf = d.session.decodeBuf := by
  cases h with
  | staged => exact ⟨rfl, rfl⟩
  | read => exact ⟨rfl, rfl⟩

/-- Bytes are read only behind everything read before. -/
theorem ready (h : Lands d now d₁) (hkept : Kept f At capacity fed d) :
    Ready f At capacity fed d₁ := by
  cases h with
  | staged => exact hkept.toReady
  | read hstaged =>
      refine ⟨hkept.at_here, hkept.cap, fun hopen ↦ ?_, fun hover ↦ ?_⟩
      · change d.transport.received ++ _ = fed ++ (d.session.recvStaging ++ _)
        rw [hkept.running hopen, List.append_assoc]
      · obtain ⟨whole, hwhole, hread⟩ := hkept.ended hover
        exact ⟨whole, hwhole, hread.trans (List.prefix_append _ _)⟩

end Lands

/-- What an `ingest` does: nothing when the transport has nothing or fails, and else one step. -/
theorem ingest_cases (z : Decompress σ ε UInt8 UInt8) (d : Inflow σ) (now : Instant) :
    (d.session.staged = false ∧ ∃ t, t.received = d.transport.received ∧
      (d.session.ingest z d.transport now = (.ok false, d.session, t) ∨
        ∃ e, d.session.ingest z d.transport now = (.error (.transport e), d.session, t))) ∨
    ∃ d₁, Lands d now d₁ ∧ d.session.ingest z d.transport now =
      ((d₁.session.inflateStep z).1, (d₁.session.inflateStep z).2, d₁.transport) := by
  by_cases hstaged : d.session.staged = true
  · refine Or.inr ⟨d, .staged hstaged, ?_⟩
    rw [Inflating.ingest, if_pos hstaged]
  · have hnot : d.session.staged = false := Bool.eq_false_of_not_eq_true hstaged
    rw [Inflating.ingest, if_neg hstaged, Stream.recvInto]
    rcases d.transport.recvs with _ | ⟨e | bytes, recvs⟩
    · exact Or.inl ⟨hnot, d.transport, rfl, Or.inl rfl⟩
    · exact Or.inl ⟨hnot, { d.transport with recvs := recvs }, rfl, Or.inr ⟨e, rfl⟩⟩
    · cases bytes with
      | nil =>
          refine Or.inl ⟨hnot, _, ?_, Or.inl rfl⟩
          exact List.append_nil _
      | cons b bytes =>
          exact Or.inr ⟨d.landed (b :: bytes) recvs now, .read hnot (List.cons_ne_nil _ _), rfl⟩

section Step

variable (hz : Meets z f At) (hcapacity : 0 < capacity)
include hz hcapacity

theorem Ready.inflateStep_cases (h : Ready f At capacity fed d) :
    (∃ e r,
      d.session.inflateStep z = (.error (.inflateFailed e), { d.session with inflate := r })) ∨
    ∃ r k consumed inflated,
      d.session.inflateStep z = (.ok true, (d.fedOn r consumed inflated).session) ∧
      r.out.length = capacity ∧
      CompressedReader.Fed f At fed d.appended d.session.recvStaging k consumed inflated r := by
  have hcap : 0 < d.session.inflate.out.length := by
    rw [h.cap]
    exact hcapacity
  rw [Inflating.inflateStep]
  rcases CompressedReader.feed_cases hz h.at_here hcap with
    ⟨e, r, hfeed⟩ | ⟨r, k, consumed, inflated, hfeed, hlength, hfed⟩
  · rw [hfeed]
    exact Or.inl ⟨e, r, rfl⟩
  · rw [hfeed]
    exact Or.inr ⟨r, k, consumed, inflated, rfl, hlength.trans h.cap, hfed⟩

/-- Whatever comes of an `ingest`, it appends at most the cap, and it does not stall. -/
theorem Kept.ingest_le (h : Kept f At capacity fed d) (now : Instant) :
    (d.session.ingest z d.transport now).1 ≠ .error .noProgress ∧
    ∃ inflated, inflated.length ≤ capacity ∧
      (d.session.ingest z d.transport now).2.1.decodeBuf = d.session.decodeBuf ++ inflated := by
  rcases ingest_cases z d now with ⟨-, t, -, heq | ⟨e, heq⟩⟩ | ⟨d₁, hlands, heq⟩
  · rw [heq]
    exact ⟨nofun, [], Nat.zero_le _, (List.append_nil _).symm⟩
  · rw [heq]
    exact ⟨nofun, [], Nat.zero_le _, (List.append_nil _).symm⟩
  · rw [heq, ← hlands.appended_eq.2]
    rcases (hlands.ready h).inflateStep_cases hz hcapacity with
      ⟨e, r, hstep⟩ | ⟨r, k, consumed, inflated, hstep, hlength, hfed⟩
    · rw [hstep]
      exact ⟨nofun, [], Nat.zero_le _, (List.append_nil _).symm⟩
    · rw [hstep]
      refine ⟨nofun, inflated, ?_, rfl⟩
      rw [hfed.length_eq, ← hlength]
      exact hfed.produced_le

/-- An `ingest` that goes on leaves the texts as they are, or feeds what is staged. -/
theorem Kept.next_ingest (h : Kept f At capacity fed d) {now : Instant}
    (hnext : next z d (.ingest now) = some d') :
    (d.session.staged = false ∧ ∃ t, t.received = d.transport.received ∧
      d' = { d with transport := t }) ∨
    ∃ d₁ r k consumed inflated, Lands d now d₁ ∧ r.out.length = capacity ∧
      CompressedReader.Fed f At fed d₁.appended d₁.session.recvStaging k consumed inflated r ∧
      d' = d₁.fedOn r consumed inflated := by
  unfold next at hnext
  dsimp only at hnext
  have hsame (t : Stream) : ({ session := d.session
                               transport := t
                               appended := d.appended ++
                                 d.session.decodeBuf.drop d.session.decodeBuf.length } :
      Inflow σ) = { d with transport := t } := by
    rw [List.drop_length, List.append_nil]
  rcases ingest_cases z d now with ⟨hnot, t, ht, heq | ⟨e, heq⟩⟩ | ⟨d₁, hlands, heq⟩
  · rw [heq] at hnext
    exact Or.inl ⟨hnot, t, ht, (Option.some.inj hnext).symm.trans (hsame t)⟩
  · rw [heq] at hnext
    exact Or.inl ⟨hnot, t, ht, (Option.some.inj hnext).symm.trans (hsame t)⟩
  · rw [heq] at hnext
    rcases (hlands.ready h).inflateStep_cases hz hcapacity with
      ⟨e, r, hstep⟩ | ⟨r, k, consumed, inflated, hstep, hlength, hfed⟩
    · rw [hstep] at hnext
      cases hnext
    · rw [hstep] at hnext
      refine Or.inr ⟨d₁, r, k, consumed, inflated, hlands, hlength, hfed, ?_⟩
      rw [← Option.some.inj hnext, ← hlands.appended_eq.1, ← hlands.appended_eq.2]
      change _ = Inflow.mk _ _ _
      congr 2
      exact List.drop_left

omit hz hcapacity in
theorem Kept.dispatch (h : Kept f At capacity fed d) (n : ℕ) :
    Kept f At capacity fed
      { d with session := { d.session with decodeBuf := d.session.decodeBuf.drop n } } :=
  ⟨⟨h.at_here, h.cap, h.running, h.ended⟩, h.emptied, h.drained⟩

theorem Kept.next (h : Kept f At capacity fed d) {e : InflowEvent}
    (hnext : next z d e = some d') : ∃ fed', Kept f At capacity fed' d' := by
  cases e with
  | ingest now =>
      rcases h.next_ingest hz hcapacity hnext with
        ⟨-, t, ht, rfl⟩ | ⟨d₁, r, k, consumed, inflated, hlands, hlength, hfed, rfl⟩
      · refine ⟨fed, ⟨h.at_here, h.cap, ?_, ?_⟩, h.emptied, h.drained⟩
        · change ¬ f.Over fed d.appended → t.received = _
          rw [ht]
          exact h.running
        · change f.Over fed d.appended → ∃ whole, _ ∧ whole <+: t.received
          rw [ht]
          exact h.ended
      · exact ⟨_, (hlands.ready h).fedOn hz hcapacity hfed hlength⟩
  | dispatch n =>
      cases hnext
      exact ⟨fed, h.dispatch n⟩

end Step

/-! ## Whole runs -/

theorem Kept.start {inflator : σ} (hinit : At inflator [] []) (capacity : ℕ)
    (recvs : List (Except TransportError (List UInt8))) (sends : List (Except TransportError ℕ))
    (now : Instant) : Kept f At capacity [] (start inflator capacity recvs sends now) where
  at_here := hinit
  cap := List.length_replicate
  running _ := rfl
  ended hover := ⟨[], hover, List.nil_prefix⟩
  emptied _ := rfl
  drained _ := ⟨rfl, f.inflate_nil.symm⟩

theorem Kept.appended_eq (h : Kept f At capacity fed d) (hstaged : d.session.staged = false) :
    d.appended = f.inflate d.transport.received := by
  obtain ⟨hempty, hcapped⟩ := staged_eq_false hstaged
  by_cases hover : f.Over fed d.appended
  · -- what was read past the end adds nothing
    obtain ⟨whole, hwhole, rest, hrest⟩ := h.ended hover
    rw [← hrest]
    exact hwhole.inflate_append rest
  · rw [h.running hover, hempty, List.append_nil]
    exact (h.drained hcapped).2

/-- `n` calls of `ingest`, all of them with something staged, lead from `d` to a state, with
dispatches in between. -/
inductive Unread (z : Decompress σ ε UInt8 UInt8) (d : Inflow σ) : ℕ → Inflow σ → Prop
  | refl : Unread z d 0 d
  | ingest {n : ℕ} {t u : Inflow σ} (now : Instant) : Unread z d n t →
      t.session.staged = true → next z t (.ingest now) = some u → Unread z d (n + 1) u
  | dispatch {n : ℕ} {t u : Inflow σ} (k : ℕ) : Unread z d n t →
      next z t (.dispatch k) = some u → Unread z d n u

theorem Unread.left_le (hz : Meets z f At) (hcapacity : 0 < capacity)
    (h : Kept f At capacity fed d) {n : ℕ} (hunread : Unread z d n d') :
    ∃ fed', Kept f At capacity fed' d' ∧ n + d'.left f fed' ≤ d.left f fed := by
  -- each call takes from what is left to do; a dispatch does not add to it
  induction hunread with
  | refl => exact ⟨fed, h, (Nat.zero_add _).le⟩
  | ingest now _ hstaged hnext ih =>
      obtain ⟨fed', hkept, hle⟩ := ih
      rcases hkept.next_ingest hz hcapacity hnext with
        ⟨hnot, -⟩ | ⟨d₁, r, k, consumed, inflated, hlands, hlength, hfed, rfl⟩
      · rw [hstaged] at hnot
        cases hnot
      · cases hlands with
        | staged =>
            refine ⟨_, hkept.toReady.fedOn hz hcapacity hfed hlength, ?_⟩
            have hless := hkept.toReady.left_fedOn hz hcapacity hfed hlength hstaged
            omega
        | read hnot =>
            rw [hstaged] at hnot
            cases hnot
  | dispatch k _ hnext ih =>
      obtain ⟨fed', hkept, hle⟩ := ih
      cases hnext
      exact ⟨fed', hkept.dispatch k, hle⟩

end Inflow

/-- Inflating in steps over an inflator that keeps its contract.  However the text is cut into
reads and whatever is dispatched in between: once nothing is staged, what was appended is the
inflation of all that was read; a call appends at most the capacity and does not stall; with bytes
staged or the last step capped it leaves the transport alone, and there is a bound on such calls
in a row; and until the stream ends what was read is what the inflator took and then what is
staged. -/
theorem inflate_lossless {z : Decompress σ ε UInt8 UInt8} {f : Format UInt8 UInt8}
    {At : σ → List UInt8 → List UInt8 → Prop} (hz : Meets z f At) {inflator : σ}
    (hinit : At inflator [] []) {capacity : ℕ} (hcapacity : 0 < capacity)
    {recvs : List (Except TransportError (List UInt8))} {sends : List (Except TransportError ℕ)}
    {now : Instant} {d : Inflow σ}
    (hrun : (Inflow.machine z).Run (fun _ _ ↦ True)
      (.start inflator capacity recvs sends now) d) :
    (d.session.staged = false → d.appended = f.inflate d.transport.received) ∧
    (∀ now, (d.session.ingest z d.transport now).1 ≠ .error .noProgress ∧
      ∃ inflated, inflated.length ≤ capacity ∧
        (d.session.ingest z d.transport now).2.1.decodeBuf = d.session.decodeBuf ++ inflated) ∧
    (d.session.recvStaging ≠ [] ∨ d.session.inflate.capped = true →
      ∀ t now, (d.session.ingest z t now).2.2 = t) ∧
    (∃ bound, ∀ n d', Inflow.Unread z d n d' → n ≤ bound) ∧
    ∃ fed, At d.session.inflate.inflator fed d.appended ∧
      (¬ f.Over fed d.appended → d.transport.received = fed ++ d.session.recvStaging) := by
  have hinv : ∃ fed, d.Kept f At capacity fed := by
    refine hrun.invariant (I := fun d ↦ ∃ fed, d.Kept f At capacity fed) ?_ ?_
    · exact ⟨[], .start hinit capacity recvs sends now⟩
    · rintro t e u ⟨fed, h⟩ - hnext
      exact h.next hz hcapacity hnext
  obtain ⟨fed, h⟩ := hinv
  refine ⟨h.appended_eq, h.ingest_le hz hcapacity, fun hstaged t now ↦ ?_, ?_, fed, h.at_here,
    h.running⟩
  · have htrue : d.session.staged = true := by
      rcases hstaged with hne | hcapped
      · simp [Inflating.staged, hne]
      · simp [Inflating.staged, hcapped]
    rw [Inflating.ingest, if_pos htrue]
  · refine ⟨d.left f fed, fun n d' hunread ↦ ?_⟩
    obtain ⟨fed', -, hle⟩ := hunread.left_le hz hcapacity h
    exact (Nat.le_add_right _ _).trans hle

/-! ## Stored blocks

A zlib stream whose blocks are stored: two bytes of header, blocks of at most 65535 bytes each
behind its length and the complement of it, and the Adler-32 checksum of all that was stored. -/

/-- The two sums of Adler-32. -/
structure Adler where
  a : ℕ := 1
  b : ℕ := 0
  deriving DecidableEq

def Adler.push (sums : Adler) (byte : UInt8) : Adler :=
  let a := (sums.a + byte.toNat) % 65521
  ⟨a, (sums.b + a) % 65521⟩

/-- What a zlib stream holds next. -/
inductive Stored where
  | header (cmf : Option UInt8)
  | block
  | length (final : Bool) (read : List UInt8)
  | bytes (final : Bool) (left : ℕ)
  | checksum (read : List UInt8)
  | done
  | refused
  deriving DecidableEq

namespace Stored

/-- Behind some bytes of a block, with `left` still to come. -/
def behind (final : Bool) (left : ℕ) : Stored :=
  if 0 < left then .bytes final left else if final then .checksum [] else .block

/-- One byte of the stream: what comes next. -/
def next (sums : Adler) (byte : UInt8) : Stored → Stored
  | .header none => .header (some byte)
  | .header (some cmf) =>
      -- deflate, no dictionary, and the check of the two bytes
      if cmf &&& 15 = 8 ∧ byte &&& 32 = 0 ∧ (cmf.toNat * 256 + byte.toNat) % 31 = 0 then .block
      else .refused
  | .block => if byte &&& 6 = 0 then .length (byte &&& 1 = 1) [] else .refused
  | .length final [x, y, z] =>
      let len := x.toNat + y.toNat * 256
      if len + (z.toNat + byte.toNat * 256) = 65535 then behind final len else .refused
  | .length final read => .length final (read ++ [byte])
  | .bytes final left => behind final (left - 1)
  | .checksum [x, y, z] =>
      if Word.fromBeBytes [x, y, z, byte] = sums.b * 65536 + sums.a then .done else .refused
  | .checksum read => .checksum (read ++ [byte])
  | .done => .done
  | .refused => .refused

/-- The bytes of a block are written and summed up. -/
def step : Stored × Adler → UInt8 → List UInt8 × Stored × Adler
  | (.bytes final left, sums), byte =>
      ([byte], next sums byte (.bytes final left), sums.push byte)
  | (stored, sums), byte => ([], next sums byte stored, sums)

def scanner : Scanner (Stored × Adler) UInt8 UInt8 where
  init := (.header none, {})
  step := step
  Done s := s.1 = .done
  step_of_done := by
    rintro ⟨stored, sums⟩ rfl byte
    rfl

instance decidableEnded (xs : List UInt8) : Decidable (scanner.format.Ended xs) :=
  inferInstanceAs (Decidable ((scanner.scan scanner.init xs).2.1 = .done))

end Stored

/-- Two blocks, of which the second is the last, and a byte past the end. -/
def sampleStored : List UInt8 :=
  [0x78, 0x01, 0, 2, 0, 0xfd, 0xff, 7, 8, 1, 1, 0, 0xfe, 0xff, 9, 0, 0x31, 0, 0x19, 5]

/-- The stream in two reads that are cut inside a length field, inflated one byte at a time. -/
theorem inflate_lossless_stored :
    ∃ d, (Inflow.machine (greedy Stored.scanner.format : Decompress _ Unit _ _)).Run
        (fun _ _ ↦ True)
        (.start ⟨[], []⟩ 1 [.ok (sampleStored.take 11), .ok (sampleStored.drop 11)] [] 0) d ∧
      d.session.staged = false ∧ d.transport.received = sampleStored ∧
      Stored.scanner.format.Ended d.transport.received ∧
      d.appended = Stored.scanner.format.inflate sampleStored ∧ d.appended = [7, 8, 9] := by
  have hend : ∃ d ∈ Machine.follow
      (Inflow.next (greedy Stored.scanner.format : Decompress _ Unit _ _))
      (.start ⟨[], []⟩ 1 [.ok (sampleStored.take 11), .ok (sampleStored.drop 11)] [] 0)
      [.ingest 1, .dispatch 1, .ingest 2, .ingest 3, .ingest 4, .dispatch 2, .ingest 5],
      d.session.staged = false ∧ d.transport.received = sampleStored ∧
      Stored.scanner.format.Ended d.transport.received ∧ d.appended = [7, 8, 9] := by
    decide +kernel
  obtain ⟨d, hd, hstaged, hreceived, hended, hbytes⟩ := hend
  have hrun : (Inflow.machine (greedy Stored.scanner.format : Decompress _ Unit _ _)).Run
      (fun _ _ ↦ True)
      (.start ⟨[], []⟩ 1 [.ok (sampleStored.take 11), .ok (sampleStored.drop 11)] [] 0) d :=
    .of_follow (Machine.allowedAlong_of_forall (fun _ _ ↦ trivial) _ _) hd
  have hflat := (inflate_lossless (greedy_meets Stored.scanner.format)
    ⟨rfl, rfl, List.nil_prefix⟩ Nat.one_pos hrun).1 hstaged
  rw [hreceived] at hflat
  exact ⟨d, hrun, hstaged, hreceived, hended, hflat, hbytes⟩

end SoupBin
