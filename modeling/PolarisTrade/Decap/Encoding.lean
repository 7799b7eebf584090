import PolarisTrade.Decap

/-!
# Frames of a reference encoder

`UdpDatagram` holds the fields of a frame with one UDP datagram, those the parser does not read
included; `encode` writes them out.  What `parseUdp` returns for such a frame is the payload and
the sender the frame was built from.
-/

namespace Transport

open Word

def Ipv4Addr.octets (addr : Ipv4Addr) : List UInt8 := [addr.a, addr.b, addr.c, addr.d]

/-- One datagram and its headers.  The header length of IPv4 counts words, so options are
filled up to the next word; `flags` is the upper byte of flags and fragment offset. -/
structure UdpDatagram where
  macs : { m : List UInt8 // m.length = 12 }
  tag : Option (UInt8 × UInt8)
  tos : UInt8
  ident : UInt8 × UInt8
  flags : UInt8
  ttl : UInt8
  checksum : UInt8 × UInt8
  src : Ipv4Addr
  dst : Ipv4Addr
  options : List UInt8
  srcPort : UInt16
  dstPort : UInt16
  udpChecksum : UInt8 × UInt8
  payload : List UInt8
  unfragmented : flags &&& 0x3f = 0
  options_le : options.length ≤ 40
  fits : (5 + (options.length + 3) / 4) * 4 + (8 + payload.length) < 2 ^ 16

namespace UdpDatagram

variable (d : UdpDatagram)

/-- Words of the IPv4 header. -/
def words : ℕ := 5 + (d.options.length + 3) / 4

def udpLen : ℕ := 8 + d.payload.length

def total : ℕ := d.words * 4 + d.udpLen

def ethernet : List UInt8 :=
  d.macs.1 ++ (match d.tag with
    | none => []
    | some tci => [0x81, 0x00, tci.1, tci.2]) ++ [0x08, 0x00]

def ipv4Header : List UInt8 :=
  [0x40 ||| UInt8.ofNat d.words, d.tos] ++ toBeBytes 2 d.total ++
    [d.ident.1, d.ident.2, d.flags, 0, d.ttl, 17, d.checksum.1, d.checksum.2] ++
    d.src.octets ++ d.dst.octets

def paddedOptions : List UInt8 := d.options.rightpad ((d.words - 5) * 4) 0

def udpHeader : List UInt8 :=
  toBeBytes 2 d.srcPort.toNat ++ toBeBytes 2 d.dstPort.toNat ++ toBeBytes 2 d.udpLen ++
    [d.udpChecksum.1, d.udpChecksum.2]

/-- The frame, with `padding` behind the datagram. -/
def encode (padding : List UInt8) : List UInt8 :=
  d.ethernet ++ (d.ipv4Header ++ (d.paddedOptions ++ (d.udpHeader ++ (d.payload ++ padding))))

/-! ## Sizes -/

theorem length_ipv4Header : d.ipv4Header.length = 20 := rfl

theorem length_udpHeader : d.udpHeader.length = 8 := rfl

theorem five_le_words : 5 ≤ d.words := Nat.le_add_right 5 _

theorem words_lt : d.words < 16 := by
  have hle := d.options_le
  unfold words
  omega

theorem length_paddedOptions : d.paddedOptions.length = (d.words - 5) * 4 := by
  rw [paddedOptions, List.length_rightpad]
  unfold words
  omega

theorem length_encode (padding : List UInt8) :
    (d.encode padding).length = d.ethernet.length + d.total + padding.length := by
  have hfive := d.five_le_words
  simp only [encode, List.length_append, length_ipv4Header, length_paddedOptions,
    length_udpHeader, total, udpLen]
  omega

/-! ## The bytes of the frame -/

/-- Everything before the UDP header. -/
def headers : List UInt8 := d.ethernet ++ d.ipv4Header ++ d.paddedOptions

theorem length_headers : d.headers.length = d.ethernet.length + d.words * 4 := by
  have hfive := d.five_le_words
  simp only [headers, List.length_append, length_ipv4Header, length_paddedOptions]
  omega

theorem encode_eq_headers (padding : List UInt8) :
    d.encode padding = d.headers ++ (d.udpHeader ++ (d.payload ++ padding)) := by
  simp only [encode, headers, List.append_assoc]

theorem encode_eq_payload (padding : List UInt8) :
    d.encode padding = d.headers ++ d.udpHeader ++ (d.payload ++ padding) := by
  simp only [encode, headers, List.append_assoc]

theorem ethernetIi_encode (padding : List UInt8) :
    EthernetIi (d.encode padding) d.ethernet.length := by
  have hmacs := d.macs.2
  have hread : ∀ (rest : List UInt8) (i : ℕ), be16 (d.macs.1 ++ rest) (12 + i) = be16 rest i := by
    intro rest i
    have hread : be16 (d.macs.1 ++ rest) _ = be16 rest i := be16_append d.macs.1 i
    rwa [hmacs] at hread
  unfold encode ethernet
  cases d.tag with
  | none =>
      refine Or.inl ⟨by simp [hmacs], ?_⟩
      simp only [List.append_assoc]
      exact hread _ 0
  | some tci =>
      refine Or.inr ⟨by simp [hmacs], ?_, ?_⟩
      · simp only [List.append_assoc]
        exact hread _ 0
      · simp only [List.append_assoc]
        exact hread _ 4

theorem octet_ipv4 (padding : List UInt8) (i : ℕ) :
    octet (d.encode padding) (d.ethernet.length + i) = octet (d.ipv4Header ++
      (d.paddedOptions ++ (d.udpHeader ++ (d.payload ++ padding)))) i :=
  octet_append d.ethernet i

theorem be16_ipv4 (padding : List UInt8) (i : ℕ) :
    be16 (d.encode padding) (d.ethernet.length + i) = be16 (d.ipv4Header ++
      (d.paddedOptions ++ (d.udpHeader ++ (d.payload ++ padding)))) i :=
  be16_append d.ethernet i

theorem be16_udp (padding : List UInt8) (i : ℕ) :
    be16 (d.encode padding) (d.ethernet.length + d.words * 4 + i) =
      be16 (d.udpHeader ++ (d.payload ++ padding)) i := by
  rw [encode_eq_headers, ← length_headers]
  exact be16_append d.headers i

theorem port_lt (port : UInt16) : port.toNat < 256 ^ 2 := port.toNat_lt

theorem total_lt : d.total < 256 ^ 2 := d.fits

theorem udpLen_lt : d.udpLen < 256 ^ 2 := lt_of_le_of_lt (Nat.le_add_left _ _) d.total_lt

/-- Version and header length share the first octet. -/
theorem versionIhl {words : ℕ} (hfive : 5 ≤ words) (hlt : words < 16) :
    (0x40 ||| UInt8.ofNat words) >>> 4 = 4 ∧
      ((0x40 ||| UInt8.ofNat words) &&& 0x0f).toNat = words := by
  interval_cases words <;> decide

theorem fragmentBits_flags : ∀ flags : UInt8, flags &&& 0x3f = 0 →
    fromBeBytes [flags, 0] &&& 0x3fff = 0 := by
  decide +kernel

/-- An encoded datagram is in the grammar. -/
theorem udpFrame_encode (padding : List UInt8) {dstIp : Option Ipv4Addr}
    (haddress : ∀ want ∈ dstIp, want = d.dst) :
    UdpFrame (d.encode padding) d.dstPort.toNat dstIp d.ethernet.length d.words d.total
      d.udpLen where
  ethernet := d.ethernetIi_encode padding
  version := by
    rw [← Nat.add_zero d.ethernet.length, octet_ipv4]
    exact (versionIhl d.five_le_words d.words_lt).1
  ihl := by
    rw [← Nat.add_zero d.ethernet.length, octet_ipv4]
    exact (versionIhl d.five_le_words d.words_lt).2
  five_le := d.five_le_words
  header := by
    rw [length_encode, total]
    omega
  unfragmented := by
    rw [be16_ipv4]
    exact fragmentBits_flags d.flags d.unfragmented
  protocol := by
    rw [octet_ipv4]
    rfl
  totalLength := by
    rw [be16_ipv4]
    exact fromBeBytes_toBeBytes d.total_lt
  le_total := Nat.add_le_add_left (Nat.le_add_right 8 _) _
  total_le := by
    rw [length_encode]
    omega
  port := by
    rw [be16_udp]
    exact fromBeBytes_toBeBytes (port_lt d.dstPort)
  address := by
    unfold addressAt
    simp only [Nat.add_assoc, octet_ipv4]
    exact haddress
  udpLength := by
    rw [be16_udp]
    exact fromBeBytes_toBeBytes d.udpLen_lt
  eight_le := Nat.le_add_right 8 _
  le_segment := by
    rw [total]
    omega

theorem getRange_encode (padding : List UInt8) :
    getRange (d.encode padding) (d.ethernet.length + d.words * 4 + 8,
      d.ethernet.length + d.words * 4 + d.udpLen) = some d.payload := by
  have hfront : (d.headers ++ d.udpHeader).length = d.ethernet.length + d.words * 4 + 8 := by
    rw [List.length_append, length_headers, length_udpHeader]
  have hlength := d.length_encode padding
  rw [total] at hlength
  have hpayload : d.ethernet.length + d.words * 4 + d.udpLen -
      (d.ethernet.length + d.words * 4 + 8) = d.payload.length := by
    rw [udpLen]
    omega
  rw [getRange, if_pos ⟨by rw [udpLen]; omega, by omega⟩, List.drop_take, hpayload,
    encode_eq_payload, ← hfront, List.drop_left, List.take_left]

theorem peer_encode (padding : List UInt8) :
    (addressAt (d.encode padding) (d.ethernet.length + 12),
      be16 (d.encode padding) (d.ethernet.length + d.words * 4)) = (d.src, d.srcPort.toNat) := by
  have hport := d.be16_udp padding 0
  unfold addressAt
  simp only [Nat.add_assoc, octet_ipv4, Nat.add_zero] at hport ⊢
  rw [hport]
  exact congrArg (Prod.mk d.src) (fromBeBytes_toBeBytes (port_lt d.srcPort))

/-- What an accepted frame is built from comes back. -/
theorem parseUdp_encode (padding : List UInt8) {dstIp : Option Ipv4Addr}
    (haddress : ∀ want ∈ dstIp, want = d.dst) :
    parseUdp (d.encode padding) d.dstPort.toNat dstIp =
      .ok ((d.ethernet.length + d.words * 4 + 8, d.ethernet.length + d.words * 4 + d.udpLen),
        d.src, d.srcPort.toNat) :=
  parseUdp_eq_ok_iff.mpr ⟨_, _, _, _, d.udpFrame_encode padding haddress, rfl,
    (d.peer_encode padding).symm⟩

end UdpDatagram

/-- The payload of a frame of the grammar ends inside the IPv4 datagram, so inside the frame and
before all padding; the offsets fit the 32 bits they are kept in. -/
theorem UdpFrame.bounds {frame : List UInt8} {dstPort l3 words total udpLen : ℕ}
    {dstIp : Option Ipv4Addr} (h : UdpFrame frame dstPort dstIp l3 words total udpLen) :
    l3 + words * 4 + 8 ≤ l3 + words * 4 + udpLen ∧ l3 + words * 4 + udpLen ≤ l3 + total ∧
      l3 + total ≤ frame.length ∧ l3 + words * 4 + udpLen < 2 ^ 32 := by
  have height := h.eight_le
  have hsegment := h.le_segment
  have hle := h.le_total
  have htotal := h.total_le
  have hheader := h.header
  have hfive := h.five_le
  have hlt : total < 2 ^ 16 := h.totalLength ▸ be16_lt (l3 + 2)
  have hl3 : l3 ≤ 18 := by
    obtain ⟨rfl, -⟩ | ⟨rfl, -⟩ := h.ethernet <;> decide
  omega

/-- `parse_udp` accepts exactly its grammar.  It returns a range and a sender iff the frame is in
the grammar: the range is the UDP datagram without its header, inside the IPv4 datagram and the
frame.  Decoding an encoded datagram, whatever follows it, returns its payload and sender. -/
theorem parse_udp_exact (dstPort : ℕ) (dstIp : Option Ipv4Addr) :
    (∀ (frame : List UInt8) range peer, parseUdp frame dstPort dstIp = .ok (range, peer) ↔
      ∃ l3 words total udpLen, UdpFrame frame dstPort dstIp l3 words total udpLen ∧
        range = (l3 + words * 4 + 8, l3 + words * 4 + udpLen) ∧
        peer = (addressAt frame (l3 + 12), be16 frame (l3 + words * 4))) ∧
    (∀ (frame : List UInt8) l3 words total udpLen,
      UdpFrame frame dstPort dstIp l3 words total udpLen →
        (l3 + words * 4 + 8 ≤ l3 + words * 4 + udpLen ∧ l3 + words * 4 + udpLen ≤ l3 + total ∧
          l3 + total ≤ frame.length ∧ l3 + words * 4 + udpLen < 2 ^ 32) ∧
        ∀ peer, (AsRef.asRef (⟨frame, (l3 + words * 4 + 8, l3 + words * 4 + udpLen), peer⟩ :
          DecapFrame (List UInt8))).length = udpLen - 8) ∧
    ∀ (d : UdpDatagram) (padding : List UInt8), d.dstPort.toNat = dstPort →
      (∀ want ∈ dstIp, want = d.dst) →
      ∃ range, parseUdp (d.encode padding) dstPort dstIp = .ok (range, d.src, d.srcPort.toNat) ∧
        AsRef.asRef (⟨d.encode padding, range, d.src, d.srcPort.toNat⟩ :
          DecapFrame (List UInt8)) = d.payload := by
  refine ⟨fun frame range peer ↦ parseUdp_eq_ok_iff, ?_, ?_⟩
  · intro frame l3 words total udpLen h
    refine ⟨h.bounds, fun peer ↦ ?_⟩
    obtain ⟨hlo, htotal, hhi, -⟩ := h.bounds
    change (((getRange frame _).getD [])).length = udpLen - 8
    rw [getRange, if_pos ⟨hlo, htotal.trans hhi⟩, Option.getD_some, List.length_drop,
      List.length_take]
    dsimp only
    omega
  · rintro d padding rfl haddress
    refine ⟨_, d.parseUdp_encode padding haddress, ?_⟩
    change (getRange (d.encode padding) _).getD [] = d.payload
    rw [d.getRange_encode padding, Option.getD_some]

/-- A tagged datagram with one byte of options. -/
def sampleDatagram : UdpDatagram where
  macs := ⟨[2, 0, 0, 0, 0, 2, 2, 0, 0, 0, 0, 1], rfl⟩
  tag := some (0, 100)
  tos := 0
  ident := (0, 0)
  flags := 0x40
  ttl := 64
  checksum := (0, 0)
  src := ⟨10, 0, 0, 1⟩
  dst := ⟨239, 1, 1, 1⟩
  options := [1]
  srcPort := 40000
  dstPort := 30001
  udpChecksum := (0, 0)
  payload := [104, 105]
  unfragmented := by decide
  options_le := by decide
  fits := by decide

theorem parse_udp_exact_tagged :
    ∃ range, parseUdp (sampleDatagram.encode [0, 0, 0]) 30001 (some ⟨239, 1, 1, 1⟩) =
        .ok (range, ⟨10, 0, 0, 1⟩, 40000) ∧
      AsRef.asRef (⟨sampleDatagram.encode [0, 0, 0], range, ⟨10, 0, 0, 1⟩, 40000⟩ :
        DecapFrame (List UInt8)) = [104, 105] :=
  (parse_udp_exact 30001 (some ⟨239, 1, 1, 1⟩)).2.2 sampleDatagram [0, 0, 0] (by decide)
    (by rintro _ ⟨⟩; rfl)

end Transport
