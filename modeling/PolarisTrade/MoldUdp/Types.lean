import PolarisTrade.Transport

/-!
# Frames, events, errors and configuration of the MoldUDP64 client

Plain data shared by every module of the receiver.  The frame type of a leg is a
parameter: all the receiver ever asks of it is its bytes.
-/

namespace MoldUdp

open Transport

abbrev SessionId := { c : List UInt8 // c.length = 10 }

inductive MoldUdpError where
  | transport (error : TransportError)
  | sessionMismatch (expected got : SessionId)
  | gapDetected
  | reassemblyBufferFull (capacity : ℕ)
  | packetTooShort
  | packetTooLarge
  | poolTooSmall (leg capacity required : ℕ)
  | legCount (count : ℕ)
  deriving DecidableEq

inductive MoldUdpEvent where
  | heartbeat (nextExpected : ℕ)
  | endOfSession (nextExpected : ℕ)
  deriving DecidableEq

/-- Receiver configuration; `gapConfirmWindow` is a duration in nanoseconds. -/
structure MoldUdpReceiverConfig where
  maxRerequestsPerGapPerSec : UInt32 := 4
  gapConfirmWindow : ℕ := 5000000
  startSequence : Option UInt64 := none

/-! ## Datagrams the receiver holds -/

/-- Datagram as a leg delivered it, or a copy of one read off the requester. -/
inductive Held (F : Type) where
  | frame (f : F)
  | copied (bytes : List UInt8)

/-- Message inside a datagram shared through an `Arc`. -/
structure MessageView (F : Type) where
  datagram : Held F
  offset : ℕ
  len : ℕ

/-- Datagram behind the outstanding `Inline` items. -/
inductive Backing (F : Type) where
  | owned (held : Held F)
  | shared (held : Held F)

section

variable {F : Type}

def Backing.empty : Backing F := .owned (.copied [])

def Backing.held : Backing F → Held F
  | .owned held => held
  | .shared held => held

/-- Promote to a shared datagram, returning the new backing and the `Arc`. -/
def Backing.share : Backing F → Backing F × Held F
  | .owned held => (.shared held, held)
  | .shared held => (.shared held, held)

@[simp] theorem Backing.share_snd (b : Backing F) : b.share.2 = b.held := by
  cases b <;> rfl

@[simp] theorem Backing.held_share (b : Backing F) : b.share.1.held = b.held := by
  cases b <;> rfl

end

section

variable {F : Type} [AsRef F]

def Held.asRef : Held F → List UInt8
  | .frame f => AsRef.asRef f
  | .copied bytes => bytes

def MessageView.asRef (v : MessageView F) : Option (List UInt8) :=
  slice v.datagram.asRef v.offset v.len

def Backing.bytes (b : Backing F) : List UInt8 := b.held.asRef

end

end MoldUdp
