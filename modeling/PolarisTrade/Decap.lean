import PolarisTrade.Transport

/-!
# Decapsulation of UDP

`parseUdp` finds the UDP payload of an Ethernet frame: at most one 802.1Q tag, IPv4, then UDP to
one port and, when set, one address.
-/

namespace Transport

open Word

/-- Four octets. -/
structure Ipv4Addr where
  a : UInt8
  b : UInt8
  c : UInt8
  d : UInt8
  deriving DecidableEq

/-- Why a frame is filtered out. -/
inductive DecapDrop
  | notIpv4
  | fragment
  | wrongDst
  | truncated
  deriving DecidableEq

def ethHdr : ℕ := 14
def vlanTag : ℕ := 4
def ipv4Hdr : ℕ := 20
def udpHdr : ℕ := 8
def ethertypeIpv4 : ℕ := 0x0800
def ethertypeVlan : ℕ := 0x8100
def ipprotoUdp : UInt8 := 17
def fragmentBits : ℕ := 0x3fff

/-- `u16::from_be_bytes` of the bytes at `i`. -/
def be16 (bytes : List UInt8) (i : ℕ) : ℕ := fromBeBytes ((bytes.drop i).take 2)

/-- Offset of the IPv4 header and the bytes from it on. -/
def parseEth (frame : List UInt8) : Except DecapDrop (ℕ × List UInt8) := do
  let (eth, rest) ← okOr (splitFirstChunk ethHdr frame) .truncated
  if be16 eth.1 12 = ethertypeIpv4 then
    return (ethHdr, rest)
  else if be16 eth.1 12 = ethertypeVlan then
    let (tag, ip) ← okOr (splitFirstChunk vlanTag rest) .truncated
    -- a second tag lands here as inner ethertype
    if be16 tag.1 2 ≠ ethertypeIpv4 then .error .notIpv4
    else return (ethHdr + vlanTag, ip)
  else .error .notIpv4

def octet (bytes : List UInt8) (i : ℕ) : UInt8 := bytes.getD i 0

/-- The range of the payload in the frame and its sender. -/
def parseUdp (frame : List UInt8) (dstPort : ℕ) (dstIp : Option Ipv4Addr) :
    Except DecapDrop ((ℕ × ℕ) × Ipv4Addr × ℕ) := do
  let (l3, ip) ← parseEth frame
  let (hdr, _) ← okOr (splitFirstChunk ipv4Hdr ip) .truncated
  let hdr := hdr.1
  if octet hdr 0 >>> 4 ≠ 4 then .error .notIpv4 else
  let ihl := (octet hdr 0 &&& 0x0f).toNat * 4
  if ihl < ipv4Hdr ∨ ip.length < ihl then .error .truncated else
  if be16 hdr 6 &&& fragmentBits ≠ 0 then .error .fragment else
  if octet hdr 9 ≠ ipprotoUdp then .error .wrongDst else
  -- `ip.get(ihl..total)`: absent when the total length is below the header or past the frame
  let total := be16 hdr 2
  if total < ihl ∨ ip.length < total then .error .truncated else
  let segment := (ip.take total).drop ihl
  let (udp, _) ← okOr (splitFirstChunk udpHdr segment) .truncated
  let udp := udp.1
  let dst : Ipv4Addr := ⟨octet hdr 16, octet hdr 17, octet hdr 18, octet hdr 19⟩
  if be16 udp 2 ≠ dstPort ∨ dstIp.any (· ≠ dst) then .error .wrongDst else
  let udpLen := be16 udp 4
  if udpLen < udpHdr ∨ segment.length < udpLen then .error .truncated else
  let src : Ipv4Addr := ⟨octet hdr 12, octet hdr 13, octet hdr 14, octet hdr 15⟩
  return ((l3 + ihl + udpHdr, l3 + ihl + udpLen), src, be16 udp 0)

/-- One UDP datagram inside its received frame, with the range of its payload and its sender. -/
structure DecapFrame (F : Type) where
  frame : F
  payload : ℕ × ℕ
  peer : Ipv4Addr × ℕ

/-- `bytes.get(range)`. -/
def getRange (bytes : List UInt8) (range : ℕ × ℕ) : Option (List UInt8) :=
  if range.1 ≤ range.2 ∧ range.2 ≤ bytes.length then some ((bytes.take range.2).drop range.1)
  else none

instance {F : Type} [AsRef F] : AsRef (DecapFrame F) where
  asRef d := (getRange (AsRef.asRef d.frame) d.payload).getD []

/-! ## Reading at an offset -/

variable {frame bytes : List UInt8}

theorem octet_take {n i : ℕ} (hi : i < n) : octet (bytes.take n) i = octet bytes i := by
  rw [octet, octet, List.getD_eq_getElem?_getD, List.getD_eq_getElem?_getD, List.getElem?_take,
    if_pos hi]

theorem octet_drop (n i : ℕ) : octet (bytes.drop n) i = octet bytes (n + i) := by
  rw [octet, octet, List.getD_eq_getElem?_getD, List.getD_eq_getElem?_getD, List.getElem?_drop]

theorem be16_take {n i : ℕ} (hi : i + 2 ≤ n) : be16 (bytes.take n) i = be16 bytes i := by
  rw [be16, be16, List.drop_take, List.take_take, min_eq_left (by omega)]

theorem be16_drop (n i : ℕ) : be16 (bytes.drop n) i = be16 bytes (n + i) := by
  rw [be16, be16, List.drop_drop]

theorem octet_append (front : List UInt8) (i : ℕ) :
    octet (front ++ bytes) (front.length + i) = octet bytes i := by
  rw [← octet_drop, List.drop_left]

theorem be16_append (front : List UInt8) (i : ℕ) :
    be16 (front ++ bytes) (front.length + i) = be16 bytes i := by
  rw [← be16_drop, List.drop_left]

/-- Reading in the part of a buffer from `n` to `total`. -/
theorem be16_segment {n total i : ℕ} (hi : n + i + 2 ≤ total) :
    be16 ((bytes.take total).drop n) i = be16 bytes (n + i) := by
  rw [be16_drop, be16_take hi]

theorem be16_eq_iff {i : ℕ} (hi : i + 1 < bytes.length) (hi₀ lo : UInt8) :
    be16 bytes i = hi₀.toNat * 256 + lo.toNat ↔ bytes[i]? = some hi₀ ∧ bytes[i + 1]? = some lo := by
  have hpair : (bytes.drop i).take 2 = [bytes[i], bytes[i + 1]] := by
    rw [List.drop_eq_getElem_cons (by omega), List.drop_eq_getElem_cons hi]
    rfl
  have h₀ := (bytes[i]).toNat_lt
  have h₁ := (bytes[i + 1]).toNat_lt
  have h₂ := hi₀.toNat_lt
  have h₃ := lo.toNat_lt
  rw [be16, hpair, List.getElem?_eq_getElem hi, List.getElem?_eq_getElem (Nat.lt_of_succ_lt hi),
    Option.some_inj, Option.some_inj, ← UInt8.toNat_inj, ← UInt8.toNat_inj]
  simp only [fromBeBytes, List.foldl_cons, List.foldl_nil]
  omega

theorem be16_lt (i : ℕ) : be16 bytes i < 2 ^ 16 := by
  have hlt := fromBeBytes_lt ((bytes.drop i).take 2)
  have hlength : ((bytes.drop i).take 2).length ≤ 2 := List.length_take_le 2 _
  calc be16 bytes i < 256 ^ ((bytes.drop i).take 2).length := hlt
    _ ≤ 256 ^ 2 := Nat.pow_le_pow_right (by decide) hlength

/-! ## The grammar -/

/-- Ethernet II carrying IPv4, untagged or under exactly one tag; the IPv4 header is at `l3`. -/
def EthernetIi (frame : List UInt8) (l3 : ℕ) : Prop :=
  l3 = 14 ∧ be16 frame 12 = 0x0800 ∨
    l3 = 18 ∧ be16 frame 12 = 0x8100 ∧ be16 frame 16 = 0x0800

/-- Address of four octets at `at₀`. -/
def addressAt (bytes : List UInt8) (at₀ : ℕ) : Ipv4Addr :=
  ⟨octet bytes at₀, octet bytes (at₀ + 1), octet bytes (at₀ + 2), octet bytes (at₀ + 3)⟩

/-- Frames that carry a UDP datagram for `dstPort` and `dstIp`: an IPv4 header of `words`
words at `l3`, `total` bytes of IPv4 and `udpLen` of UDP. -/
structure UdpFrame (frame : List UInt8) (dstPort : ℕ) (dstIp : Option Ipv4Addr)
    (l3 words total udpLen : ℕ) : Prop where
  ethernet : EthernetIi frame l3
  version : octet frame l3 >>> 4 = 4
  ihl : (octet frame l3 &&& 0x0f).toNat = words
  five_le : 5 ≤ words
  header : l3 + words * 4 ≤ frame.length
  unfragmented : be16 frame (l3 + 6) &&& 0x3fff = 0
  protocol : octet frame (l3 + 9) = 17
  totalLength : be16 frame (l3 + 2) = total
  le_total : words * 4 + 8 ≤ total
  total_le : total ≤ frame.length - l3
  port : be16 frame (l3 + words * 4 + 2) = dstPort
  address : ∀ want ∈ dstIp, want = addressAt frame (l3 + 16)
  udpLength : be16 frame (l3 + words * 4 + 4) = udpLen
  eight_le : 8 ≤ udpLen
  le_segment : udpLen ≤ total - words * 4

/-! ## What is accepted -/

/-- A check that fails ends the parse. -/
theorem ite_error_eq_ok {ε α : Type} {c : Prop} [Decidable c] {e : ε} {x : Except ε α} {a : α} :
    (if c then .error e else x) = .ok a ↔ ¬ c ∧ x = .ok a := by
  by_cases hc : c <;> simp [hc]

theorem parseEth_eq_ok_iff {l3 : ℕ} {ip : List UInt8} :
    parseEth frame = .ok (l3, ip) ↔
      EthernetIi frame l3 ∧ l3 ≤ frame.length ∧ frame.drop l3 = ip := by
  unfold parseEth EthernetIi
  simp only [bind_eq_ok, okOr_eq_ok, exists_splitFirstChunk, ethHdr, vlanTag, ethertypeIpv4,
    ethertypeVlan, be16_take (show 12 + 2 ≤ 14 by decide)]
  constructor
  · rintro ⟨hlen, h⟩
    split at h
    · next hipv4 =>
        cases h
        exact ⟨Or.inl ⟨rfl, hipv4⟩, hlen, rfl⟩
    · split at h
      · next hvlan =>
          simp only [bind_eq_ok, okOr_eq_ok, exists_splitFirstChunk, ite_error_eq_ok, not_not,
            be16_take (show 2 + 2 ≤ 4 by decide), be16_drop, List.length_drop,
            List.drop_drop] at h
          obtain ⟨htag, hinner, h⟩ := h
          cases h
          exact ⟨Or.inr ⟨rfl, hvlan, hinner⟩, by omega, rfl⟩
      · cases h
  · rintro ⟨⟨rfl, hipv4⟩ | ⟨rfl, hvlan, hinner⟩, hlen, rfl⟩
    · refine ⟨hlen, ?_⟩
      rw [if_pos hipv4]
      rfl
    · refine ⟨by omega, ?_⟩
      rw [if_neg (by omega), if_pos hvlan]
      simp only [bind_eq_ok, okOr_eq_ok, exists_splitFirstChunk, ite_error_eq_ok, not_not,
        be16_take (show 2 + 2 ≤ 4 by decide), be16_drop, List.length_drop, List.drop_drop]
      exact ⟨by omega, hinner, rfl⟩

/-- `dst_ip.is_some_and(|want| want != dst)`, negated. -/
theorem not_any_ne_iff {dstIp : Option Ipv4Addr} {dst : Ipv4Addr} :
    ¬ dstIp.any (· ≠ dst) = true ↔ ∀ want ∈ dstIp, want = dst := by
  cases dstIp <;> simp

/-- `parseUdp` accepts exactly its grammar. -/
theorem parseUdp_eq_ok_iff {dstPort : ℕ} {dstIp : Option Ipv4Addr} {range : ℕ × ℕ}
    {peer : Ipv4Addr × ℕ} :
    parseUdp frame dstPort dstIp = .ok (range, peer) ↔
      ∃ l3 words total udpLen, UdpFrame frame dstPort dstIp l3 words total udpLen ∧
        range = (l3 + words * 4 + 8, l3 + words * 4 + udpLen) ∧
        peer = (addressAt frame (l3 + 12), be16 frame (l3 + words * 4)) := by
  unfold parseUdp
  rw [bind_eq_ok, Prod.exists]
  -- all checks in one conjunction, in the order they are made
  simp only [bind_eq_ok, okOr_eq_ok, exists_splitFirstChunk, parseEth_eq_ok_iff,
    ite_error_eq_ok, not_not, not_or, not_lt, not_any_ne_iff, ipv4Hdr, udpHdr, ipprotoUdp,
    fragmentBits, List.length_drop, List.length_take]
  simp (disch := decide) only [octet_take, be16_take]
  constructor
  · rintro ⟨l3, _, ⟨hethernet, hl3, rfl⟩, -, hversion, ⟨hfive, hheader⟩, hfragment, hprotocol,
      ⟨-, htotal⟩, hudp, ⟨hport, haddress⟩, ⟨height, hsegment⟩, h⟩
    rw [min_eq_left htotal] at hudp hsegment
    rw [be16_segment (by omega)] at hport height hsegment h
    rw [be16_segment (by omega)] at h
    simp only [octet_drop, be16_drop, List.length_drop, Nat.add_zero, ← Nat.add_assoc] at *
    cases h
    exact ⟨l3, _, _, _, ⟨hethernet, hversion, rfl, by omega, by omega, hfragment, hprotocol, rfl,
      by omega, htotal, hport, haddress, rfl, height, hsegment⟩, rfl, rfl⟩
  · rintro ⟨l3, words, total, udpLen, h, rfl, rfl⟩
    have hwords := h.ihl
    have htotal := h.totalLength
    have hfive := h.five_le
    have hheader := h.header
    have hle := h.le_total
    have htotal_le := h.total_le
    refine ⟨l3, _, ⟨h.ethernet, by omega, rfl⟩, ?_⟩
    have htotal' : be16 (frame.drop l3) 2 = total := (be16_drop l3 2).trans htotal
    rw [octet_drop, Nat.add_zero, hwords, htotal', be16_segment (by omega),
      be16_segment (by omega), be16_segment (by omega)]
    simp only [octet_drop, be16_drop, List.length_drop, ← Nat.add_assoc, Nat.add_zero,
      min_eq_left htotal_le, h.udpLength]
    exact ⟨by omega, h.version, ⟨by omega, by omega⟩, h.unfragmented, h.protocol,
      ⟨by omega, htotal_le⟩, by omega, ⟨h.port, h.address⟩, ⟨h.eight_le, h.le_segment⟩, rfl⟩

/-- An accepted frame carries IPv4, untagged or under one tag. -/
theorem parseEth_ok {l3 : ℕ} {ip : List UInt8} (h : parseEth frame = .ok (l3, ip)) :
    frame.drop l3 = ip ∧
    (l3 = 14 ∧ frame[12]? = some 0x08 ∧ frame[13]? = some 0x00 ∨
      l3 = 18 ∧ frame[12]? = some 0x81 ∧ frame[13]? = some 0x00 ∧ frame[16]? = some 0x08 ∧
        frame[17]? = some 0x00) := by
  obtain ⟨hethernet, hlen, hdrop⟩ := parseEth_eq_ok_iff.mp h
  refine ⟨hdrop, ?_⟩
  obtain ⟨rfl, hipv4⟩ | ⟨rfl, hvlan, hinner⟩ := hethernet
  · exact Or.inl ⟨rfl, (be16_eq_iff (by omega) 0x08 0x00).mp hipv4⟩
  · obtain ⟨h₀, h₁⟩ := (be16_eq_iff (by omega) 0x81 0x00).mp hvlan
    exact Or.inr ⟨rfl, h₀, h₁, (be16_eq_iff (by omega) 0x08 0x00).mp hinner⟩

/-- An accepted datagram is UDP and has room for the headers. -/
theorem parseUdp_ok {dstPort : ℕ} {dstIp : Option Ipv4Addr} {payload : (ℕ × ℕ) × Ipv4Addr × ℕ}
    (h : parseUdp frame dstPort dstIp = .ok payload) :
    ∃ l3 ip, parseEth frame = .ok (l3, ip) ∧ 28 ≤ ip.length ∧ ip[9]? = some 17 := by
  obtain ⟨l3, words, total, udpLen, hframe, -⟩ := parseUdp_eq_ok_iff.mp h
  have hfive := hframe.five_le
  have hle := hframe.le_total
  have htotal := hframe.total_le
  refine ⟨l3, frame.drop l3,
    parseEth_eq_ok_iff.mpr ⟨hframe.ethernet, by omega, rfl⟩, ?_, ?_⟩
  · rw [List.length_drop]
    omega
  · have hprotocol := hframe.protocol
    rw [octet, List.getD_eq_getElem _ _ (by omega)] at hprotocol
    rw [List.getElem?_drop, List.getElem?_eq_getElem (by omega), hprotocol]

end Transport
