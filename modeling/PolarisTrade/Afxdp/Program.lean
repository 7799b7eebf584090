import PolarisTrade.Lib.Ebpf
import PolarisTrade.Decap

/-!
# The built-in redirect program

Raw eBPF that sends IPv4 UDP frames, untagged or under one 802.1Q tag, to
`bpf_redirect_map` and passes every other frame to the kernel's stack.  It redirects every
frame `parseUdp` accepts.
-/

namespace Afxdp

open Ebpf

/-! ## The bytes -/

namespace Opcode

def ldxWMem : UInt8 := 0x61
def ldxHMem : UInt8 := 0x69
def ldxBMem : UInt8 := 0x71
def ldDwImm : UInt8 := 0x18
def mov64K : UInt8 := 0xb7
def mov64X : UInt8 := 0xbf
def add64K : UInt8 := 0x07
def ja : UInt8 := 0x05
def jeqK : UInt8 := 0x15
def jgtX : UInt8 := 0x2d
def jneK : UInt8 := 0x55
def call : UInt8 := 0x85
def exit : UInt8 := 0x95
def pseudoMapFd : UInt8 := 1

end Opcode

-- `struct xdp_md` field offsets
def mdData : BitVec 16 := 0
def mdDataEnd : BitVec 16 := 4
def mdRxQueueIndex : BitVec 16 := 16

def xdpPass : BitVec 32 := 2
def fnRedirectMap : BitVec 32 := 51

-- offsets in an untagged frame
def ethType : BitVec 16 := 12
def ipProto : BitVec 16 := 14 + 9
def vlanTag : BitVec 16 := 4
def headers : BitVec 32 := 14 + 20 + 8

def swapBytes (v : BitVec 16) : BitVec 16 := v.extractLsb' 0 8 ++ v.extractLsb' 8 8

def ethPIp : BitVec 32 := (swapBytes 0x0800).zeroExtend 32
def ethP8021q : BitVec 32 := (swapBytes 0x8100).zeroExtend 32
def ipprotoUdp : BitVec 32 := 17

-- jump targets in `instructions`
def untaggedProto : BitVec 16 := 15
def udpCheck : BitVec 16 := 16
def pass : BitVec 16 := 23

def insns : ℕ := 25

/-- Byte `i` of a word, low byte first. -/
def leByte {w : ℕ} (v : BitVec w) (i : ℕ) : UInt8 := UInt8.ofBitVec (v.extractLsb' (8 * i) 8)

def insn (code dst src : UInt8) (off : BitVec 16) (imm : BitVec 32) : List UInt8 :=
  [code, (src <<< 4) ||| dst, leByte off 0, leByte off 1, leByte imm 0, leByte imm 1, leByte imm 2,
    leByte imm 3]

/-- Jump offset from instruction `pc` to `target`, counted from the next instruction. -/
def jump (pc target : BitVec 16) : BitVec 16 := target - pc - 1

def instructions (mapFd : BitVec 32) : List (List UInt8) :=
  [ -- 0: r2 = ctx->data, r3 = ctx->data_end
    insn Opcode.ldxWMem 2 1 mdData 0,
    insn Opcode.ldxWMem 3 1 mdDataEnd 0,
    -- 2: untagged headers in frame, else pass
    insn Opcode.mov64X 4 2 0 0,
    insn Opcode.add64K 4 0 0 headers,
    insn Opcode.jgtX 4 3 (jump 4 pass) 0,
    -- 5: IPv4 to untagged protocol, 802.1Q on to tagged checks, rest pass
    insn Opcode.ldxHMem 4 2 ethType 0,
    insn Opcode.jeqK 4 0 (jump 6 untaggedProto) ethPIp,
    insn Opcode.jneK 4 0 (jump 7 pass) ethP8021q,
    -- 8: tagged headers in frame and inner ethertype IPv4, else pass
    insn Opcode.mov64X 4 2 0 0,
    insn Opcode.add64K 4 0 0 (headers + vlanTag.signExtend 32),
    insn Opcode.jgtX 4 3 (jump 10 pass) 0,
    insn Opcode.ldxHMem 4 2 (ethType + vlanTag) 0,
    insn Opcode.jneK 4 0 (jump 12 pass) ethPIp,
    insn Opcode.ldxBMem 4 2 (ipProto + vlanTag) 0,
    insn Opcode.ja 0 0 (jump 14 udpCheck) 0,
    -- 15: untagged protocol byte
    insn Opcode.ldxBMem 4 2 ipProto 0,
    -- 16: UDP, else pass
    insn Opcode.jneK 4 0 (jump 16 pass) ipprotoUdp,
    -- 17: r0 = bpf_redirect_map(map, ctx->rx_queue_index, XDP_PASS)
    insn Opcode.ldxWMem 2 1 mdRxQueueIndex 0,
    insn Opcode.ldDwImm 1 Opcode.pseudoMapFd 0 mapFd,
    insn 0 0 0 0 0,
    insn Opcode.mov64K 3 0 0 xdpPass,
    insn Opcode.call 0 0 0 fnRedirectMap,
    insn Opcode.exit 0 0 0 0,
    -- 23: pass
    insn Opcode.mov64K 0 0 0 xdpPass,
    insn Opcode.exit 0 0 0 0 ]

/-! ## The instructions -/

theorem le32_leByte (v : BitVec 32) :
    le32 (leByte v 0) (leByte v 1) (leByte v 2) (leByte v 3) = v := by
  change v.extractLsb' 24 8 ++ v.extractLsb' 16 8 ++ v.extractLsb' 8 8 ++ v.extractLsb' 0 8 = v
  rw [BitVec.extractLsb'_append_extractLsb'_eq_extractLsb' (by rfl),
    BitVec.extractLsb'_append_extractLsb'_eq_extractLsb' (by rfl),
    BitVec.extractLsb'_append_extractLsb'_eq_extractLsb' (by rfl)]
  exact BitVec.extractLsb'_eq_self

/-- What the bytes decode to. -/
def filter (mapFd : BitVec 32) : List (Option Insn) :=
  [ some (.ldx 4 2 1 0), some (.ldx 4 3 1 4),
    some (.movX 4 2), some (.addK 4 42), some (.jgtX 4 3 18),
    some (.ldx 2 4 2 12), some (.jeqK 4 8 0x0008), some (.jneK 4 15 0x0081),
    some (.movX 4 2), some (.addK 4 46), some (.jgtX 4 3 12),
    some (.ldx 2 4 2 16), some (.jneK 4 10 0x0008), some (.ldx 1 4 2 27), some (.ja 1),
    some (.ldx 1 4 2 23),
    some (.jneK 4 6 17),
    some (.ldx 4 2 1 16), some (.ldImm64 1 1 mapFd), some (.imm64 0), some (.movK 3 2),
    some (.call 51), some .exit,
    some (.movK 0 2), some .exit ]

theorem decode_instructions (mapFd : BitVec 32) :
    (instructions mapFd).map decode = filter mapFd := by
  have hmap : decode (insn Opcode.ldDwImm 1 Opcode.pseudoMapFd 0 mapFd) =
      some (.ldImm64 1 1 mapFd) := by
    change some (Insn.ldImm64 1 1 (le32 _ _ _ _)) = _
    rw [le32_leByte]
  rw [instructions, filter]
  simp only [List.map_cons, List.map_nil, hmap]
  rfl

/-! ## What the program does -/

/-- A frame on receive queue `queue`; `action` is what `bpf_redirect_map` answers. -/
def xdpEnv (frame : List UInt8) (queue : BitVec 32) (action : BitVec 64) : Env where
  packet := frame
  field
    | 0 => some (.packet 0)
    | 4 => some .packetEnd
    | 16 => some (.scalar (queue.zeroExtend 64))
    | _ => none
  helper
    | 51, [.map _, .scalar _, .scalar _] => some action
    | _, _ => none

/-- IPv4 UDP as far as the program looks, the protocol byte being at `proto`. -/
def UdpAt (frame : List UInt8) (etherType proto headers : ℕ) : Prop :=
  headers ≤ frame.length ∧ frame[etherType]? = some 0x08 ∧ frame[etherType + 1]? = some 0x00 ∧
    frame[proto]? = some 17

instance (frame : List UInt8) (etherType proto headers : ℕ) :
    Decidable (UdpAt frame etherType proto headers) :=
  inferInstanceAs (Decidable (_ ∧ _))

theorem udpAt_iff {frame : List UInt8} {etherType proto headers : ℕ}
    (hlength : headers ≤ frame.length) (htype : etherType + 1 < frame.length)
    (hproto : proto < frame.length) :
    UdpAt frame etherType proto headers ↔
      (frame[etherType] = 0x08 ∧ frame[etherType + 1] = 0x00) ∧ frame[proto] = 17 := by
  simp only [UdpAt, hlength, true_and, List.getElem?_eq_getElem hproto,
    List.getElem?_eq_getElem htype,
    List.getElem?_eq_getElem (Nat.lt_of_succ_lt htype), Option.some.injEq, and_assoc]

/-- IPv4 UDP, untagged or under one 802.1Q tag. -/
def Redirects (frame : List UInt8) : Prop :=
  UdpAt frame 12 23 42 ∨
    frame[12]? = some 0x81 ∧ frame[13]? = some 0x00 ∧ UdpAt frame 16 27 46

instance (frame : List UInt8) : Decidable (Redirects frame) :=
  inferInstanceAs (Decidable (_ ∨ _))

section Runs

variable {frame : List UInt8} {queue mapFd : BitVec 32} {action : BitVec 64} {s : State} {pc : ℕ}

/-- The result of a run: `bpf_redirect_map` called once, or `XDP_PASS`. -/
def verdict (queue mapFd : BitVec 32) (action : BitVec 64) (redirects : Prop)
    [Decidable redirects] : BitVec 64 × List (BitVec 32 × List Value) :=
  if redirects then
    (action, [(fnRedirectMap,
      [.map mapFd, .scalar (queue.zeroExtend 64), .scalar (xdpPass.zeroExtend 64)])])
  else (xdpPass.zeroExtend 64, [])

theorem verdict_congr {p q : Prop} [Decidable p] [Decidable q] (h : p ↔ q) :
    verdict queue mapFd action p = verdict queue mapFd action q :=
  if_congr h rfl rfl

/-- What the checks of the program leave alone. -/
structure Checking (pc : ℕ) (s : State) : Prop where
  pc_eq : s.pc = pc
  ctx : s.regs 1 = .ctx 0
  data : s.regs 2 = .packet 0
  dataEnd : s.regs 3 = .packetEnd
  calls : s.calls = []

theorem Checking.write (h : Checking pc s) (v : Value) : Checking (pc + 1) (s.write 4 v) where
  pc_eq := congrArg (· + 1) h.pc_eq
  ctx := (State.regs_write_of_ne (by decide) s v).trans h.ctx
  data := (State.regs_write_of_ne (by decide) s v).trans h.data
  dataEnd := (State.regs_write_of_ne (by decide) s v).trans h.dataEnd
  calls := h.calls

theorem Checking.advance (h : Checking pc s) : Checking (pc + 1) s.advance :=
  ⟨congrArg (· + 1) h.pc_eq, h.ctx, h.data, h.dataEnd, h.calls⟩

theorem Checking.goto (h : Checking pc s) (target : ℕ) : Checking target { s with pc := target } :=
  ⟨rfl, h.ctx, h.data, h.dataEnd, h.calls⟩

/-- The instruction at the program counter of a state that is at `pc`. -/
theorem Checking.insn (h : Checking pc s) : (filter mapFd)[s.pc]? = (filter mapFd)[pc]? :=
  congrArg ((filter mapFd)[·]?) h.pc_eq

theorem Checking.target (h : Checking pc s) {off : ℤ} (target : ℕ)
    (htarget : (pc : ℤ) + 1 + off = target) : (s.pc : ℤ) + 1 + off = target := by
  rw [h.pc_eq, htarget]

/-- 23: pass. -/
theorem run_pass (h : Checking 23 s) (fuel : ℕ) :
    run (xdpEnv frame queue action) (filter mapFd) (fuel + 2) s
      = some (verdict queue mapFd action False) := by
  rw [run_movK (h.insn.trans rfl) (by decide),
    run_exit (by rw [State.pc_write, h.pc_eq]; rfl) (State.regs_write_self ..)]
  exact congrArg (fun calls ↦ some (_, calls)) h.calls

/-- 17: redirect. -/
theorem run_redirect (h : Checking 17 s) (fuel : ℕ) :
    run (xdpEnv frame queue action) (filter mapFd) (fuel + 5) s
      = some (verdict queue mapFd action True) := by
  have hload : load (xdpEnv frame queue action) 4 16 (s.regs 1)
      = some (.scalar (queue.zeroExtend 64)) := by
    rw [h.ctx]
    rfl
  rw [run_ldx (h.insn.trans rfl) hload (by decide) nofun,
    run_ldMap (by rw [State.pc_write, h.pc_eq]; rfl) (by rw [State.pc_write, h.pc_eq]; rfl)
      (by decide),
    run_movK (by rw [State.pc_write, State.pc_advance, State.pc_write, h.pc_eq]; rfl) (by decide)]
  set s' := ((s.write 2 (.scalar (queue.zeroExtend 64))).advance.write 1 (.map mapFd)).write 3
    (.scalar ((2 : BitVec 32).signExtend 64)) with hs'
  have hpc : s'.pc = 21 := by simp [hs', h.pc_eq]
  have hcalls : s'.calls = [] := h.calls
  have hmap : s'.regs 1 = .map mapFd := by simp [hs', State.regs_write_of_ne]
  have hkey : s'.regs 2 = .scalar (queue.zeroExtend 64) := by simp [hs', State.regs_write_of_ne]
  have hflags : s'.regs 3 = .scalar ((2 : BitVec 32).signExtend 64) := State.regs_write_self ..
  have hhelper : (xdpEnv frame queue action).helper 51 [s'.regs 1, s'.regs 2, s'.regs 3]
      = some action := by
    rw [hmap, hkey, hflags]
    rfl
  rw [run_call (by rw [hpc]; rfl) hhelper, run_exit (by rw [hpc]; rfl)
      (show _ = Value.scalar action from rfl), hcalls, hmap, hkey, hflags]
  rfl

/-- 16: the protocol byte is in register 4. -/
theorem run_udpCheck {b : UInt8} (h : Checking 16 s)
    (hproto : s.regs 4 = .scalar (BitVec.ofNat 64 (leNat [b]))) (fuel : ℕ) :
    run (xdpEnv frame queue action) (filter mapFd) (fuel + 6) s
      = some (verdict queue mapFd action (b = 17)) := by
  have hudp : BitVec.ofNat 64 (leNat [b]) = (17 : BitVec 32).signExtend 64 ↔ b = 17 := by
    rw [show (17 : BitVec 32).signExtend 64 = BitVec.ofNat 64 (leNat [17]) by decide]
    exact ofNat_leNat_byte
  rw [run_jneK (h.insn.trans rfl) hproto (h.target 23 rfl)]
  by_cases hb : b = 17
  · rw [if_pos (hudp.mpr hb), run_redirect h.advance fuel, verdict_congr (iff_true_intro hb)]
  · rw [if_neg (mt hudp.mp hb), run_pass (h.goto 23) (fuel + 3),
      verdict_congr (iff_false_intro hb)]

/-- 15: an untagged frame. -/
theorem run_untagged (h : Checking 15 s) (hlength : 42 ≤ frame.length) (fuel : ℕ) :
    run (xdpEnv frame queue action) (filter mapFd) (fuel + 7) s
      = some (verdict queue mapFd action (frame[23] = 17)) := by
  have hload : load (xdpEnv frame queue action) 1 23 (s.regs 2)
      = some (.scalar (BitVec.ofNat 64 (leNat [frame[23]]))) := by
    rw [h.data]
    exact @load_byte (xdpEnv frame queue action) 23 (show 23 < frame.length by omega)
  rw [run_ldx (h.insn.trans rfl) hload (by decide) nofun]
  exact run_udpCheck (h.write _) (State.regs_write_self ..) fuel

theorem half_eq_iff (b₀ b₁ : UInt8) (imm : BitVec 32) (c₀ c₁ : UInt8)
    (himm : imm.signExtend 64 = BitVec.ofNat 64 (leNat [c₀, c₁])) :
    BitVec.ofNat 64 (leNat [b₀, b₁]) = imm.signExtend 64 ↔ b₀ = c₀ ∧ b₁ = c₁ := by
  rw [himm]
  exact ofNat_leNat_half

/-- 8: a frame under an 802.1Q tag. -/
theorem run_tagged (h : Checking 8 s) (fuel : ℕ) :
    run (xdpEnv frame queue action) (filter mapFd) (fuel + 13) s
      = some (verdict queue mapFd action (UdpAt frame 16 27 46)) := by
  have hmov := h.write (.packet 0)
  have hadd := hmov.write (.packet 46)
  have hpointer : add 46 ((s.write 4 (.packet 0)).regs 4) = some (.packet 46) := by
    rw [State.regs_write_self]
    rfl
  rw [run_movX (h.insn.trans rfl) h.data (by decide) nofun,
    run_addK (hmov.insn.trans rfl) hpointer (by decide) nofun,
    run_jgtX_packet (hadd.insn.trans rfl) (State.regs_write_self ..) hadd.dataEnd
      (hadd.target 23 rfl)]
  change run _ _ _ (if (frame.length : ℤ) < 46 then _ else _) = _
  by_cases hlength : 46 ≤ frame.length
  · rw [if_neg (by omega)]
    have hcheck := hadd.advance
    generalize ((s.write 4 (.packet 0)).write 4 (.packet 46)).advance = s at hcheck
    have hload : load (xdpEnv frame queue action) 2 16 (s.regs 2)
        = some (.scalar (BitVec.ofNat 64 (leNat [frame[16], frame[17]]))) := by
      rw [hcheck.data]
      exact @load_half (xdpEnv frame queue action) 16
        (show 17 < frame.length by omega)
    have htype := hcheck.write (.scalar (BitVec.ofNat 64 (leNat [frame[16], frame[17]])))
    rw [run_ldx (hcheck.insn.trans rfl) hload (by decide) nofun,
      run_jneK (htype.insn.trans rfl) (State.regs_write_self ..)
        (htype.target 23 rfl)]
    have hip := half_eq_iff frame[16] frame[17] 0x0008 0x08 0x00
      (by decide)
    have hudp := @udpAt_iff frame 16 27 _ hlength (by omega)
      (by omega)
    by_cases hipv4 : frame[16] = 0x08 ∧ frame[17] = 0x00
    · rw [if_pos (hip.mpr hipv4)]
      have hproto := htype.advance
      generalize (s.write 4 (.scalar (BitVec.ofNat 64 (leNat [frame[16], frame[17]])))).advance
        = s at hproto
      have hbyte : load (xdpEnv frame queue action) 1 27 (s.regs 2)
          = some (.scalar (BitVec.ofNat 64 (leNat [frame[27]]))) := by
        rw [hproto.data]
        exact @load_byte (xdpEnv frame queue action) 27
          (show 27 < frame.length by omega)
      have hcheck' := hproto.write (.scalar (BitVec.ofNat 64 (leNat [frame[27]])))
      rw [run_ldx (hproto.insn.trans rfl) hbyte (by decide) nofun,
        run_ja (hcheck'.insn.trans rfl) (hcheck'.target 16 rfl),
        run_udpCheck (hcheck'.goto 16) (State.regs_write_self s 4 _) fuel]
      exact congrArg some (verdict_congr ⟨fun h ↦ hudp.mpr ⟨hipv4, h⟩, fun h ↦ (hudp.mp h).2⟩)
    · rw [if_neg (mt hip.mp hipv4), run_pass (htype.goto 23)]
      exact congrArg some (verdict_congr ⟨False.elim, fun h ↦ hipv4 (hudp.mp h).1⟩)
  · rw [if_pos (by omega), run_pass (hadd.goto 23)]
    exact congrArg some (verdict_congr ⟨False.elim, fun h ↦ hlength h.1⟩)

/-- 5: a frame that holds the untagged headers. -/
theorem run_etherType (h : Checking 5 s) (hlength : 42 ≤ frame.length) (fuel : ℕ) :
    run (xdpEnv frame queue action) (filter mapFd) (fuel + 16) s
      = some (verdict queue mapFd action (Redirects frame)) := by
  have hload : load (xdpEnv frame queue action) 2 12 (s.regs 2)
      = some (.scalar (BitVec.ofNat 64 (leNat [frame[12], frame[13]]))) := by
    rw [h.data]
    exact @load_half (xdpEnv frame queue action) 12 (show 13 < frame.length by omega)
  have htype := h.write (.scalar (BitVec.ofNat 64 (leNat [frame[12], frame[13]])))
  have hip := half_eq_iff frame[12] frame[13] 0x0008 0x08 0x00 (by decide)
  have hvlan := half_eq_iff frame[12] frame[13] 0x0081 0x81 0x00
    (by decide)
  have hudp := @udpAt_iff frame 12 23 _ hlength (by omega)
    (by omega)
  rw [run_ldx (h.insn.trans rfl) hload (by decide) nofun,
    run_jeqK (htype.insn.trans rfl) (State.regs_write_self ..) (htype.target 15 rfl)]
  by_cases hipv4 : frame[12] = 0x08 ∧ frame[13] = 0x00
  · rw [if_pos (hip.mpr hipv4), run_untagged (htype.goto 15) hlength (fuel + 7)]
    refine congrArg some (verdict_congr ⟨fun h ↦ Or.inl (hudp.mpr ⟨hipv4, h⟩), ?_⟩)
    rintro (h | ⟨h, -⟩)
    · exact (hudp.mp h).2
    · rw [List.getElem?_eq_getElem (show 12 < frame.length by omega), hipv4.1] at h
      exact absurd h (by decide)
  · rw [if_neg (mt hip.mp hipv4),
      run_jneK (htype.advance.insn.trans rfl) (State.regs_write_self s 4 _)
        (htype.advance.target 23 rfl)]
    by_cases htagged : frame[12] = 0x81 ∧ frame[13] = 0x00
    · rw [if_pos (hvlan.mpr htagged), run_tagged htype.advance.advance fuel]
      refine congrArg some (verdict_congr ⟨fun h ↦ Or.inr ⟨?_, ?_, h⟩, ?_⟩)
      · rw [List.getElem?_eq_getElem (show 12 < frame.length by omega), htagged.1]
      · rw [List.getElem?_eq_getElem (show 13 < frame.length by omega), htagged.2]
      · rintro (h | ⟨-, -, h⟩)
        · exact absurd (hudp.mp h).1 hipv4
        · exact h
    · rw [if_neg (mt hvlan.mp htagged), run_pass (htype.advance.goto 23)]
      refine congrArg some (verdict_congr ⟨False.elim, ?_⟩)
      rintro (h | ⟨h₀, h₁, -⟩)
      · exact hipv4 (hudp.mp h).1
      · rw [List.getElem?_eq_getElem (show 12 < frame.length by omega)] at h₀
        rw [List.getElem?_eq_getElem (show 13 < frame.length by omega)] at h₁
        exact htagged ⟨Option.some.inj h₀, Option.some.inj h₁⟩

theorem not_redirects_of_short (hlength : frame.length < 42) : ¬ Redirects frame := by
  rintro (⟨h, -⟩ | ⟨-, -, h, -⟩)
  · omega
  · omega

/-- The whole program: loads of the packet's bounds, then the check of its length. -/
theorem run_filter (fuel : ℕ) :
    run (xdpEnv frame queue action) (filter mapFd) (fuel + 21) entry
      = some (verdict queue mapFd action (Redirects frame)) := by
  rw [run_ldx (v := .packet 0) rfl rfl (by decide) nofun,
    run_ldx (v := .packetEnd) rfl rfl (by decide) nofun]
  have h : Checking 2 ((entry.write 2 (.packet 0)).write 3 .packetEnd) := by
    constructor
    all_goals simp [entry, State.regs_write_of_ne]
  generalize (entry.write 2 (.packet 0)).write 3 .packetEnd = s at h
  have hmov := h.write (.packet 0)
  have hadd := hmov.write (.packet 42)
  have hpointer : add 42 ((s.write 4 (.packet 0)).regs 4) = some (.packet 42) := by
    rw [State.regs_write_self]
    rfl
  rw [run_movX (h.insn.trans rfl) h.data (by decide) nofun,
    run_addK (hmov.insn.trans rfl) hpointer (by decide) nofun,
    run_jgtX_packet (hadd.insn.trans rfl) (State.regs_write_self ..) hadd.dataEnd
      (hadd.target 23 rfl)]
  change run _ _ _ (if (frame.length : ℤ) < 42 then _ else _) = _
  by_cases hlength : 42 ≤ frame.length
  · rw [if_neg (by omega)]
    exact run_etherType hadd.advance hlength fuel
  · rw [if_pos (by omega), run_pass (hadd.goto 23)]
    exact congrArg some (verdict_congr ⟨False.elim, not_redirects_of_short (by omega)⟩)

/-- The same of the bytes the kernel is given. -/
theorem runBytes_instructions :
    runBytes (xdpEnv frame queue action) (instructions mapFd) insns
      = some (verdict queue mapFd action (Redirects frame)) := by
  rw [runBytes, decode_instructions]
  exact run_filter 4

end Runs

/-! ## The parser behind it -/

theorem redirects_of_parseUdp {frame : List UInt8} {dstPort : ℕ}
    {dstIp : Option Transport.Ipv4Addr} {payload : (ℕ × ℕ) × Transport.Ipv4Addr × ℕ}
    (h : Transport.parseUdp frame dstPort dstIp = .ok payload) : Redirects frame := by
  obtain ⟨l3, ip, heth, hlength, hproto⟩ := Transport.parseUdp_ok h
  obtain ⟨rfl, htype⟩ := Transport.parseEth_ok heth
  rw [List.length_drop] at hlength
  rw [List.getElem?_drop] at hproto
  rcases htype with ⟨rfl, h₀, h₁⟩ | ⟨rfl, h₀, h₁, h₂, h₃⟩
  · exact Or.inl ⟨by omega, h₀, h₁, hproto⟩
  · exact Or.inr ⟨h₀, h₁, by omega, h₂, h₃, hproto⟩

/-- Filter and parser agree.  On every frame the program exits within its length without a
fault, that is without a load outside the context's fields or the frame and without leaving its
instructions; it calls `bpf_redirect_map` with the map, the receive queue and `XDP_PASS`
exactly for IPv4 UDP, untagged or under one tag, and returns `XDP_PASS` otherwise; and it
redirects every frame the parser accepts. -/
theorem filter_agrees (frame : List UInt8) (mapFd queue : BitVec 32) (action : BitVec 64) :
    runBytes (xdpEnv frame queue action) (instructions mapFd) insns
      = some (if Redirects frame then
          (action, [(fnRedirectMap,
            [.map mapFd, .scalar (queue.zeroExtend 64), .scalar (xdpPass.zeroExtend 64)])])
        else (xdpPass.zeroExtend 64, [])) ∧
    ∀ dstPort dstIp payload, Transport.parseUdp frame dstPort dstIp = .ok payload →
      Redirects frame :=
  ⟨runBytes_instructions, fun _ _ _ h ↦ redirects_of_parseUdp h⟩

/-- A tagged datagram of two bytes to port 30001. -/
def sampleFrame : List UInt8 :=
  List.replicate 12 2 ++ [0x81, 0, 0, 100, 0x08, 0] ++
    [0x45, 0, 0, 30, 0, 0, 0x40, 0, 64, 17, 0, 0, 10, 0, 0, 1, 239, 1, 1, 1] ++
    [0x9c, 0x40, 0x75, 0x31, 0, 10, 0, 0] ++ [1, 2]

theorem filter_agrees_tagged :
    Transport.parseUdp sampleFrame 30001 none = .ok ((46, 48), ⟨10, 0, 0, 1⟩, 40000) ∧
      Redirects sampleFrame := by
  have hparse : Transport.parseUdp sampleFrame 30001 none
      = .ok ((46, 48), ⟨10, 0, 0, 1⟩, 40000) := by decide +kernel
  exact ⟨hparse, (filter_agrees sampleFrame 7 0 4).2 30001 none _ hparse⟩

end Afxdp
