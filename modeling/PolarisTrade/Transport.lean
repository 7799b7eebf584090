import PolarisTrade.Lib.Word

/-!
# What the clients ask of a transport

Clock readings, transport failures and the one question ever put to a frame,
its bytes.  Backends are the environment of both clients: nothing else of them
is visible here.
-/

namespace Transport

/-- Monotonic clock reading, in nanoseconds. -/
abbrev Instant := ℕ

/-- Bytes behind a frame handle. -/
class AsRef (F : Type) where
  asRef : F → List UInt8

instance : AsRef (List UInt8) := ⟨id⟩

inductive IoErrorKind where
  | wouldBlock
  | other
  deriving DecidableEq

/-- Failure of a transport operation, without the addresses and texts it carries. -/
inductive TransportError where
  | bind
  | connect
  | invalidConfig
  | io (kind : IoErrorKind)
  | poolExhausted (inUse capacity : ℕ)
  | peerClosed
  | unsupported
  | unavailable
  deriving DecidableEq

/-- Occupancy of a pool. -/
structure PoolStats where
  inUse : ℕ
  capacity : ℕ

/-- `Option::ok_or`. -/
def okOr {ε α : Type} (o : Option α) (e : ε) : Except ε α :=
  match o with
  | none => .error e
  | some a => .ok a

@[simp] theorem okOr_eq_ok {ε α : Type} {o : Option α} {e : ε} {a : α} :
    okOr o e = .ok a ↔ o = some a := by
  cases o <;> simp [okOr]

/-- The `?` operator: a chain succeeds when each of its parts does. -/
@[simp] theorem bind_eq_ok {ε α β : Type} {x : Except ε α} {f : α → Except ε β} {b : β} :
    x >>= f = .ok b ↔ ∃ a, x = .ok a ∧ f a = .ok b := by
  cases x with
  | error e => simp [bind, Except.bind]
  | ok a => simp [bind, Except.bind]

/-- `bytes[lo..lo + len]`; `none` is the out-of-range panic. -/
def slice (bytes : List UInt8) (lo len : ℕ) : Option (List UInt8) :=
  if lo + len ≤ bytes.length then some ((bytes.drop lo).take len) else none

theorem slice_eq_some_iff {bytes part : List UInt8} {lo len : ℕ} :
    slice bytes lo len = some part ↔
      lo + len ≤ bytes.length ∧ (bytes.drop lo).take len = part := by
  unfold slice
  split
  · next h => simp [h]
  · next h => simp [h]

/-- First `n` bytes and the rest, when there are that many. -/
def splitFirstChunk (n : ℕ) (buf : List UInt8) :
    Option ({ c : List UInt8 // c.length = n } × List UInt8) :=
  if h : n ≤ buf.length then some (⟨buf.take n, by simp [h]⟩, buf.drop n) else none

theorem splitFirstChunk_eq_some {n : ℕ} {buf rest : List UInt8}
    {chunk : { c : List UInt8 // c.length = n }}
    (h : splitFirstChunk n buf = some (chunk, rest)) : buf = chunk.1 ++ rest := by
  unfold splitFirstChunk at h
  split at h
  · cases h
    exact (List.take_append_drop n buf).symm
  · cases h

@[simp] theorem splitFirstChunk_append {n : ℕ} (chunk : { c : List UInt8 // c.length = n })
    (rest : List UInt8) : splitFirstChunk n (chunk.1 ++ rest) = some (chunk, rest) := by
  obtain ⟨c, rfl⟩ := chunk
  simp [splitFirstChunk]

/-- A chunk can be split off exactly when there are enough bytes. -/
theorem exists_splitFirstChunk {n : ℕ} {buf : List UInt8}
    {p : { c : List UInt8 // c.length = n } × List UInt8 → Prop} :
    (∃ a, splitFirstChunk n buf = some a ∧ p a) ↔
      ∃ h : n ≤ buf.length, p (⟨buf.take n, List.length_take_of_le h⟩, buf.drop n) := by
  unfold splitFirstChunk
  split
  · next h => simp [h]
  · next h => simp [h]

end Transport
