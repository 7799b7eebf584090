import PolarisTrade.Lib.Framing
import PolarisTrade.Transport

/-!
# SoupBinTCP packets

A packet is `Length[2 BE u16]`, `Type[1]`, `Payload[Length - 1]`.  The parser looks at the
front of a buffer, holds no state and reads no configuration; a partial packet is asked for
again once more bytes have landed.
-/

namespace SoupBin

open Transport Word

inductive PacketType where
  | loginRequest
  | loginAccepted
  | loginRejected
  | sequencedData
  | serverHeartbeat
  | endOfSession
  | debug
  | unsequencedData
  | clientHeartbeat
  | logoutRequest
  deriving DecidableEq

/-- The texts of `ProtocolViolation`, with what they quote. -/
inductive Violation where
  | zeroLengthPacket
  | loginRejectedWithoutReason
  | unexpectedDuringLogin (ty : PacketType)
  | unexpectedInStreaming (ty : PacketType)
  | loginAcceptedTooShort
  | nonAsciiField
  | badNumericField (s : List Char)
  deriving DecidableEq

inductive SoupBinError where
  | transport (e : TransportError)
  | loginRejected (code : Char)
  | loginTimeout (timeout : ℕ)
  | frameTooLarge (size max : ℕ)
  | protocolViolation (v : Violation)
  | unknownPacketType (b : UInt8)
  | endOfSession
  deriving DecidableEq

namespace PacketType

/-- `ty as u8`. -/
def byte : PacketType → UInt8
  | loginRequest => 'L'.toUInt8
  | loginAccepted => 'A'.toUInt8
  | loginRejected => 'J'.toUInt8
  | sequencedData => 'S'.toUInt8
  | serverHeartbeat => 'H'.toUInt8
  | endOfSession => 'Z'.toUInt8
  | debug => '+'.toUInt8
  | unsequencedData => 'U'.toUInt8
  | clientHeartbeat => 'R'.toUInt8
  | logoutRequest => 'O'.toUInt8

def tryFrom (b : UInt8) : Except SoupBinError PacketType :=
  if b = 'L'.toUInt8 then .ok loginRequest
  else if b = 'A'.toUInt8 then .ok loginAccepted
  else if b = 'J'.toUInt8 then .ok loginRejected
  else if b = 'S'.toUInt8 then .ok sequencedData
  else if b = 'H'.toUInt8 then .ok serverHeartbeat
  else if b = 'Z'.toUInt8 then .ok endOfSession
  else if b = '+'.toUInt8 then .ok debug
  else if b = 'U'.toUInt8 then .ok unsequencedData
  else if b = 'R'.toUInt8 then .ok clientHeartbeat
  else if b = 'O'.toUInt8 then .ok logoutRequest
  else .error (.unknownPacketType b)

@[simp] theorem tryFrom_byte (ty : PacketType) : tryFrom ty.byte = .ok ty := by
  cases ty <;> rfl

theorem error_of_ite {p : Prop} [Decidable p] {ty : PacketType} {e : SoupBinError}
    {r : Except SoupBinError PacketType} (h : (if p then .ok ty else r) = .error e) :
    r = .error e := by
  split at h
  · cases h
  · exact h

theorem eq_of_tryFrom_error {b : UInt8} {e : SoupBinError} (h : tryFrom b = .error e) :
    e = .unknownPacketType b := by
  unfold tryFrom at h
  iterate 10 replace h := error_of_ite h
  exact (Except.error.inj h).symm

end PacketType

structure PacketFrame where
  ty : PacketType
  payload : List UInt8
  deriving DecidableEq

def parsePacket : List UInt8 → Except SoupBinError (Option (PacketFrame × ℕ))
  | hi :: lo :: b :: rest =>
      let len := fromBeBytes [hi, lo]
      if len < 1 then .error (.protocolViolation .zeroLengthPacket)
      else if rest.length + 3 < 2 + len then .ok none
      else
        match PacketType.tryFrom b with
        | .error e => .error e
        | .ok ty => .ok (some (⟨ty, rest.take (len - 1)⟩, 2 + len))
  | _ => .ok none

/-- What one packet is on the wire. -/
def PacketFrame.bytes (p : PacketFrame) : List UInt8 :=
  toBeBytes 2 (1 + p.payload.length) ++ p.ty.byte :: p.payload

/-- The three shapes of an answer, with what the buffer then holds. -/
theorem parsePacket_cases (buf : List UInt8) :
    parsePacket buf = .ok none ∨
    (∃ hi lo b rest, buf = hi :: lo :: b :: rest ∧
      ((fromBeBytes [hi, lo] = 0 ∧
          parsePacket buf = .error (.protocolViolation .zeroLengthPacket)) ∨
        (0 < fromBeBytes [hi, lo] ∧ fromBeBytes [hi, lo] ≤ rest.length + 1 ∧
          ((∃ e, PacketType.tryFrom b = .error e ∧ parsePacket buf = .error e) ∨
            ∃ ty, PacketType.tryFrom b = .ok ty ∧ parsePacket buf =
              .ok (some (⟨ty, rest.take (fromBeBytes [hi, lo] - 1)⟩,
                2 + fromBeBytes [hi, lo])))))) := by
  match buf with
  | [] => exact Or.inl rfl
  | [_] => exact Or.inl rfl
  | [_, _] => exact Or.inl rfl
  | hi :: lo :: b :: rest =>
      by_cases hzero : fromBeBytes [hi, lo] = 0
      · exact Or.inr ⟨hi, lo, b, rest, rfl, Or.inl ⟨hzero, if_pos (by omega)⟩⟩
      · unfold parsePacket
        dsimp only
        rw [if_neg (by omega)]
        by_cases hshort : rest.length + 3 < 2 + fromBeBytes [hi, lo]
        · exact Or.inl (if_pos hshort)
        · rw [if_neg hshort]
          refine Or.inr ⟨hi, lo, b, rest, rfl, Or.inr ⟨by omega, by omega, ?_⟩⟩
          cases hty : PacketType.tryFrom b with
          | error e => exact Or.inl ⟨e, rfl, rfl⟩
          | ok ty => exact Or.inr ⟨ty, rfl, rfl⟩

/-- A whole packet is parsed alike whatever follows it. -/
theorem parsePacket_whole {hi lo b : UInt8} {rest : List UInt8} {ty : PacketType}
    (hpos : 0 < fromBeBytes [hi, lo]) (hle : fromBeBytes [hi, lo] ≤ rest.length + 1)
    (hty : PacketType.tryFrom b = .ok ty) :
    parsePacket (hi :: lo :: b :: rest) =
      .ok (some (⟨ty, rest.take (fromBeBytes [hi, lo] - 1)⟩, 2 + fromBeBytes [hi, lo])) := by
  unfold parsePacket
  dsimp only
  rw [if_neg (by omega), if_neg (by omega), hty]

theorem parsePacket_bytes {p : PacketFrame} (hfits : p.payload.length < 65535)
    (tail : List UInt8) :
    parsePacket (p.bytes ++ tail) = .ok (some (p, p.bytes.length)) := by
  have hlen : fromBeBytes (toBeBytes 2 (1 + p.payload.length)) = 1 + p.payload.length :=
    fromBeBytes_toBeBytes (by omega)
  have hprefix := length_toBeBytes 2 (1 + p.payload.length)
  unfold PacketFrame.bytes
  generalize toBeBytes 2 (1 + p.payload.length) = header at hlen hprefix ⊢
  obtain ⟨hi, lo, rfl⟩ := List.length_eq_two.mp hprefix
  have hwhole := @parsePacket_whole hi lo p.ty.byte (p.payload ++ tail) p.ty (by omega)
    (by rw [hlen, List.length_append]; omega) (PacketType.tryFrom_byte p.ty)
  rw [hlen, Nat.add_sub_cancel_left, List.take_left] at hwhole
  simp only [List.cons_append, List.nil_append, hwhole, List.length_cons]
  congr 3
  omega

/-! ## Packets as items of a stream -/

/-- A parser's answer as a framer's. -/
def toFramed {ε : Type} : Except ε (Option (PacketFrame × ℕ)) → Framed PacketFrame ε
  | .error e => .bad e
  | .ok none => .more
  | .ok (some (p, n)) => .item p n

theorem toFramed_item {ε : Type} {r : Except ε (Option (PacketFrame × ℕ))} {p : PacketFrame}
    {n : ℕ} : toFramed r = .item p n ↔ r = .ok (some (p, n)) := by
  rcases r with e | _ | ⟨q, m⟩ <;> simp [toFramed]

theorem toFramed_bad {ε : Type} {r : Except ε (Option (PacketFrame × ℕ))} {e : ε} :
    toFramed r = .bad e ↔ r = .error e := by
  rcases r with e | _ | ⟨q, m⟩ <;> simp [toFramed]

/-- A parsed packet: its size is in range, and bytes behind it change nothing. -/
theorem parsePacket_ok {buf : List UInt8} {p : PacketFrame} {n : ℕ}
    (h : parsePacket buf = .ok (some (p, n))) :
    3 ≤ n ∧ n ≤ buf.length ∧ n = 3 + p.payload.length ∧
      ∀ tail, parsePacket (buf ++ tail) = .ok (some (p, n)) := by
  rcases parsePacket_cases buf with hnone | ⟨hi, lo, b, rest, rfl, ⟨-, hbad⟩ |
    ⟨hpos, hle, ⟨e, -, hbad⟩ | ⟨ty, hty, hok⟩⟩⟩
  · rw [hnone] at h
    cases h
  · rw [hbad] at h
    cases h
  · rw [hbad] at h
    cases h
  · rw [hok] at h
    cases h
    refine ⟨by omega, by simp only [List.length_cons]; omega, ?_, fun tail ↦ ?_⟩
    · rw [List.length_take]
      omega
    · have hwhole := @parsePacket_whole hi lo b (rest ++ tail) ty hpos
        (by rw [List.length_append]; omega) hty
      rwa [List.take_append_of_le_length (by omega)] at hwhole

theorem parsePacket_error {buf : List UInt8} {e : SoupBinError} (h : parsePacket buf = .error e) :
    (e = .protocolViolation .zeroLengthPacket ∨ ∃ b, e = .unknownPacketType b) ∧
      ∀ tail, parsePacket (buf ++ tail) = .error e := by
  rcases parsePacket_cases buf with hnone | ⟨hi, lo, b, rest, rfl, ⟨hzero, hbad⟩ |
    ⟨hpos, hle, ⟨e', hty, hbad⟩ | ⟨ty, -, hok⟩⟩⟩
  · rw [hnone] at h
    cases h
  · rw [hbad] at h
    cases h
    exact ⟨Or.inl rfl, fun tail ↦ if_pos (by omega)⟩
  · rw [hbad] at h
    cases h
    refine ⟨Or.inr ⟨b, PacketType.eq_of_tryFrom_error hty⟩, fun tail ↦ ?_⟩
    change parsePacket (hi :: lo :: b :: (rest ++ tail)) = .error e
    unfold parsePacket
    dsimp only
    rw [if_neg (by omega), if_neg (by rw [List.length_append]; omega), hty]
  · rw [hok] at h
    cases h

def wireFramer : Framer UInt8 PacketFrame SoupBinError where
  frame buf := toFramed (parsePacket buf)
  consumed_pos h := by
    obtain ⟨hpos, -⟩ := parsePacket_ok (toFramed_item.mp h)
    omega
  consumed_le h := (parsePacket_ok (toFramed_item.mp h)).2.1
  item_append tail h := toFramed_item.mpr ((parsePacket_ok (toFramed_item.mp h)).2.2.2 tail)
  bad_append tail h := toFramed_bad.mpr ((parsePacket_error (toFramed_bad.mp h)).2 tail)

/-- Iterating `parse_packet` over packets written one after another gives them back. -/
theorem cut_packets {ps : List PacketFrame} (hfits : ∀ p ∈ ps, p.payload.length < 65535) :
    wireFramer.cut (ps.flatMap PacketFrame.bytes) = (ps, none, []) :=
  Framer.cut_flatMap PacketFrame.bytes rfl fun p hp tail ↦
    toFramed_item.mpr (parsePacket_bytes (hfits p hp) tail)

end SoupBin
