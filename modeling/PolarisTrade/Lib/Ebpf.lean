import Mathlib

/-!
# eBPF programs over a packet

Little-endian eBPF restricted to what packet filters use: loads, 64-bit moves and additions,
jumps, helper calls.  A register holds a number or a pointer with the object it points into,
and a pointer keeps its object: a load outside the context or the packet, a jump outside the
program, an unknown opcode or the use of a register that was never written is a fault.  One rule per
instruction says what a run goes on with behind it.
-/

namespace Ebpf

inductive Value
  | uninit
  | scalar (v : BitVec 64)
  | ctx (off : ℤ)
  | packet (off : ℤ)
  | packetEnd
  | map (fd : BitVec 32)
  deriving DecidableEq

/-! ## Instructions -/

/-- Registers are numbered; offsets of jumps count from the next instruction. -/
inductive Insn
  | ldx (size dst src : ℕ) (off : ℤ)
  | ldImm64 (dst src : ℕ) (imm : BitVec 32)
  /-- second half of the instruction before -/
  | imm64 (imm : BitVec 32)
  | movK (dst : ℕ) (imm : BitVec 32)
  | movX (dst src : ℕ)
  | addK (dst : ℕ) (imm : BitVec 32)
  | ja (off : ℤ)
  | jeqK (dst : ℕ) (off : ℤ) (imm : BitVec 32)
  | jneK (dst : ℕ) (off : ℤ) (imm : BitVec 32)
  | jgtX (dst src : ℕ) (off : ℤ)
  | call (helper : BitVec 32)
  | exit
  deriving DecidableEq

def le16 (b₀ b₁ : UInt8) : BitVec 16 := b₁.toBitVec ++ b₀.toBitVec

def le32 (b₀ b₁ b₂ b₃ : UInt8) : BitVec 32 :=
  b₃.toBitVec ++ b₂.toBitVec ++ b₁.toBitVec ++ b₀.toBitVec

/-- `struct bpf_insn`: opcode, registers in one byte with `dst` low, offset, immediate. -/
def decode : List UInt8 → Option Insn
  | [code, regs, o₀, o₁, i₀, i₁, i₂, i₃] =>
      let dst := regs.toNat % 16
      let src := regs.toNat / 16
      let off := (le16 o₀ o₁).toInt
      let imm := le32 i₀ i₁ i₂ i₃
      match code with
      | 0x61 => some (.ldx 4 dst src off)
      | 0x69 => some (.ldx 2 dst src off)
      | 0x71 => some (.ldx 1 dst src off)
      | 0x18 => some (.ldImm64 dst src imm)
      | 0x00 => some (.imm64 imm)
      | 0xb7 => some (.movK dst imm)
      | 0xbf => some (.movX dst src)
      | 0x07 => some (.addK dst imm)
      | 0x05 => some (.ja off)
      | 0x15 => some (.jeqK dst off imm)
      | 0x55 => some (.jneK dst off imm)
      | 0x2d => some (.jgtX dst src off)
      | 0x85 => some (.call imm)
      | 0x95 => some .exit
      | _ => none
  | _ => none

/-! ## Steps -/

/-- What a program runs on: the packet, the word fields of the context and the helpers. -/
structure Env where
  packet : List UInt8
  field : ℤ → Option Value
  helper : BitVec 32 → List Value → Option (BitVec 64)

structure State where
  pc : ℕ
  regs : ℕ → Value
  /-- helper calls so far, with their arguments -/
  calls : List (BitVec 32 × List Value)

inductive Outcome
  | next (s : State)
  | exit (r0 : BitVec 64)
  | fault

namespace State

/-- Go on behind an instruction of one slot. -/
def advance (s : State) : State := { s with pc := s.pc + 1 }

/-- Write a register and go on. -/
def write (s : State) (r : ℕ) (v : Value) : State :=
  { s with pc := s.pc + 1, regs := Function.update s.regs r v }

@[simp] theorem pc_advance (s : State) : s.advance.pc = s.pc + 1 := rfl

@[simp] theorem regs_advance (s : State) : s.advance.regs = s.regs := rfl

@[simp] theorem calls_advance (s : State) : s.advance.calls = s.calls := rfl

@[simp] theorem pc_write (s : State) (r : ℕ) (v : Value) : (s.write r v).pc = s.pc + 1 := rfl

@[simp] theorem calls_write (s : State) (r : ℕ) (v : Value) : (s.write r v).calls = s.calls := rfl

@[simp] theorem regs_write_self (s : State) (r : ℕ) (v : Value) : (s.write r v).regs r = v :=
  Function.update_self ..

theorem regs_write_of_ne {r r' : ℕ} (h : r' ≠ r) (s : State) (v : Value) :
    (s.write r v).regs r' = s.regs r' :=
  Function.update_of_ne h ..

end State

/-- The number a list of bytes stands for, low byte first. -/
def leNat (bytes : List UInt8) : ℕ := Nat.ofDigits 256 (bytes.map UInt8.toNat)

/-- Load `size` bytes behind a pointer. -/
def load (env : Env) (size : ℕ) (off : ℤ) : Value → Option Value
  | .ctx base => if size = 4 then env.field (base + off) else none
  | .packet base =>
      if 0 ≤ base + off ∧ base + off + size ≤ env.packet.length then
        some (.scalar (BitVec.ofNat 64
          (leNat ((env.packet.drop (base + off).toNat).take size))))
      else none
  | _ => none

def add (imm : BitVec 32) : Value → Option Value
  | .scalar v => some (.scalar (v + imm.signExtend 64))
  | .packet off => some (.packet (off + imm.toInt))
  | _ => none

def equals (imm : BitVec 32) : Value → Option Bool
  | .scalar v => some (v = imm.signExtend 64)
  | _ => none

def greater (env : Env) : Value → Value → Option Bool
  | .scalar a, .scalar b => some (b < a)
  | .packet off, .packetEnd => some (env.packet.length < off)
  | _, _ => none

/-- Jump by `off` from the next instruction when `taken`. -/
def jump (s : State) (off : ℤ) (taken : Bool) : Outcome :=
  if taken then
    if 0 ≤ (s.pc : ℤ) + 1 + off then .next { s with pc := ((s.pc : ℤ) + 1 + off).toNat }
    else .fault
  else .next s.advance

/-- Write a result, or fault without one; only registers 0 to 9 are written. -/
def assign (s : State) (dst : ℕ) : Option Value → Outcome
  | some v => if dst < 10 ∧ v ≠ .uninit then .next (s.write dst v) else .fault
  | none => .fault

def exec (env : Env) (prog : List (Option Insn)) (s : State) : Insn → Outcome
  | .ldx size dst src off => assign s dst (load env size off (s.regs src))
  | .ldImm64 dst src imm =>
      match prog[s.pc + 1]? with
      | some (some (.imm64 high)) =>
          -- a source register of one marks the immediate as a map
          if src = 0 then assign s.advance dst (some (.scalar (high ++ imm)))
          else if src = 1 then assign s.advance dst (some (.map imm))
          else .fault
      | _ => .fault
  | .imm64 _ => .fault
  | .movK dst imm => assign s dst (some (.scalar (imm.signExtend 64)))
  | .movX dst src => assign s dst (some (s.regs src))
  | .addK dst imm => assign s dst (add imm (s.regs dst))
  | .ja off => jump s off true
  | .jeqK dst off imm =>
      match equals imm (s.regs dst) with
      | some b => jump s off b
      | none => .fault
  | .jneK dst off imm =>
      match equals imm (s.regs dst) with
      | some b => jump s off !b
      | none => .fault
  | .jgtX dst src off =>
      match greater env (s.regs dst) (s.regs src) with
      | some b => jump s off b
      | none => .fault
  | .call helper =>
      let args := [s.regs 1, s.regs 2, s.regs 3]
      match env.helper helper args with
      | some r0 =>
          -- the argument registers are lost
          .next
            { pc := s.pc + 1
              regs := fun r ↦ if r = 0 then .scalar r0 else if r ≤ 5 then .uninit else s.regs r
              calls := s.calls ++ [(helper, args)] }
      | none => .fault
  | .exit =>
      match s.regs 0 with
      | .scalar r0 => .exit r0
      | _ => .fault

def step (env : Env) (prog : List (Option Insn)) (s : State) : Outcome :=
  match prog[s.pc]? with
  | some (some insn) => exec env prog s insn
  | _ => .fault

/-- Result and calls of a program that exits within `fuel` steps and does not fault. -/
def run (env : Env) (prog : List (Option Insn)) : ℕ → State →
    Option (BitVec 64 × List (BitVec 32 × List Value))
  | 0, _ => none
  | fuel + 1, s =>
      match step env prog s with
      | .next s' => run env prog fuel s'
      | .exit r0 => some (r0, s.calls)
      | .fault => none

/-! ## Rules -/

section Rules

variable {env : Env} {prog : List (Option Insn)} {s : State} {fuel dst src size : ℕ} {off : ℤ}
  {imm : BitVec 32} {v : Value}

theorem run_next {insn : Insn} {s' : State} (hinsn : prog[s.pc]? = some (some insn))
    (hexec : exec env prog s insn = .next s') :
    run env prog (fuel + 1) s = run env prog fuel s' := by
  simp only [run, step, hinsn, hexec]

theorem run_assign {insn : Insn} (hinsn : prog[s.pc]? = some (some insn))
    (hexec : exec env prog s insn = assign s dst (some v)) (hdst : dst < 10)
    (hv : v ≠ .uninit) :
    run env prog (fuel + 1) s = run env prog fuel (s.write dst v) :=
  run_next hinsn (hexec.trans (if_pos ⟨hdst, hv⟩))

theorem run_ldx (hinsn : prog[s.pc]? = some (some (.ldx size dst src off)))
    (hload : load env size off (s.regs src) = some v) (hdst : dst < 10) (hv : v ≠ .uninit) :
    run env prog (fuel + 1) s = run env prog fuel (s.write dst v) :=
  run_assign hinsn (congrArg (assign s dst) hload) hdst hv

theorem run_movX (hinsn : prog[s.pc]? = some (some (.movX dst src))) (hsrc : s.regs src = v)
    (hdst : dst < 10) (hv : v ≠ .uninit) :
    run env prog (fuel + 1) s = run env prog fuel (s.write dst v) :=
  run_assign hinsn (congrArg (fun v ↦ assign s dst (some v)) hsrc) hdst hv

theorem run_movK (hinsn : prog[s.pc]? = some (some (.movK dst imm))) (hdst : dst < 10) :
    run env prog (fuel + 1) s
      = run env prog fuel (s.write dst (.scalar (imm.signExtend 64))) :=
  run_assign hinsn rfl hdst nofun

theorem run_addK (hinsn : prog[s.pc]? = some (some (.addK dst imm)))
    (hadd : add imm (s.regs dst) = some v) (hdst : dst < 10) (hv : v ≠ .uninit) :
    run env prog (fuel + 1) s = run env prog fuel (s.write dst v) :=
  run_assign hinsn (congrArg (assign s dst) hadd) hdst hv

theorem run_ldMap {fd high : BitVec 32}
    (hinsn : prog[s.pc]? = some (some (.ldImm64 dst 1 fd)))
    (hnext : prog[s.pc + 1]? = some (some (.imm64 high))) (hdst : dst < 10) :
    run env prog (fuel + 1) s = run env prog fuel (s.advance.write dst (.map fd)) := by
  refine run_next hinsn ?_
  simp [exec, hnext, assign, hdst]

/-- A jump that leads to instruction `target`. -/
theorem jump_eq {target : ℕ} (htarget : (s.pc : ℤ) + 1 + off = target) (taken : Bool) :
    jump s off taken = .next (if taken then { s with pc := target } else s.advance) := by
  unfold jump
  rw [htarget, if_pos (Int.natCast_nonneg _), Int.toNat_natCast]
  cases taken with
  | true => rfl
  | false => rfl

theorem run_ja {target : ℕ} (hinsn : prog[s.pc]? = some (some (.ja off)))
    (htarget : (s.pc : ℤ) + 1 + off = target) :
    run env prog (fuel + 1) s = run env prog fuel { s with pc := target } :=
  run_next hinsn (jump_eq htarget true)

theorem run_jeqK {target : ℕ} {x : BitVec 64}
    (hinsn : prog[s.pc]? = some (some (.jeqK dst off imm))) (hdst : s.regs dst = .scalar x)
    (htarget : (s.pc : ℤ) + 1 + off = target) :
    run env prog (fuel + 1) s
      = run env prog fuel
        (if x = imm.signExtend 64 then { s with pc := target } else s.advance) := by
  refine run_next hinsn ?_
  simp only [exec, hdst, equals, jump_eq htarget, decide_eq_true_eq]

theorem run_jneK {target : ℕ} {x : BitVec 64}
    (hinsn : prog[s.pc]? = some (some (.jneK dst off imm))) (hdst : s.regs dst = .scalar x)
    (htarget : (s.pc : ℤ) + 1 + off = target) :
    run env prog (fuel + 1) s
      = run env prog fuel
        (if x = imm.signExtend 64 then s.advance else { s with pc := target }) := by
  refine run_next hinsn ?_
  simp only [exec, hdst, equals, jump_eq htarget, Bool.not_eq_true', decide_eq_false_iff_not,
    ite_not]

/-- The check of a packet pointer against the end of the packet. -/
theorem run_jgtX_packet {target : ℕ} {at_ : ℤ}
    (hinsn : prog[s.pc]? = some (some (.jgtX dst src off)))
    (hdst : s.regs dst = .packet at_) (hsrc : s.regs src = .packetEnd)
    (htarget : (s.pc : ℤ) + 1 + off = target) :
    run env prog (fuel + 1) s
      = run env prog fuel
        (if env.packet.length < at_ then { s with pc := target } else s.advance) := by
  refine run_next hinsn ?_
  simp only [exec, hdst, hsrc, greater, jump_eq htarget, decide_eq_true_eq]

theorem run_call {helper : BitVec 32} {r0 : BitVec 64}
    (hinsn : prog[s.pc]? = some (some (.call helper)))
    (hhelper : env.helper helper [s.regs 1, s.regs 2, s.regs 3] = some r0) :
    run env prog (fuel + 1) s
      = run env prog fuel
        { pc := s.pc + 1
          regs := fun r ↦ if r = 0 then .scalar r0 else if r ≤ 5 then .uninit else s.regs r
          calls := s.calls ++ [(helper, [s.regs 1, s.regs 2, s.regs 3])] } := by
  refine run_next hinsn ?_
  simp only [exec, hhelper]

theorem run_exit {r0 : BitVec 64} (hinsn : prog[s.pc]? = some (some .exit))
    (hr0 : s.regs 0 = .scalar r0) : run env prog (fuel + 1) s = some (r0, s.calls) := by
  simp only [run, step, hinsn, exec, hr0]

/-- A load of one byte inside the packet. -/
theorem load_byte {i : ℕ} (hi : i < env.packet.length) :
    load env 1 i (.packet 0) = some (.scalar (BitVec.ofNat 64 (leNat [env.packet[i]]))) := by
  have hbytes : (env.packet.drop i).take 1 = [env.packet[i]] := by
    rw [List.drop_eq_getElem_cons hi]
    rfl
  rw [load, if_pos (by omega), zero_add, Int.toNat_natCast, hbytes]

/-- A load of two bytes inside the packet. -/
theorem load_half {i : ℕ} (hi : i + 1 < env.packet.length) :
    load env 2 i (.packet 0)
      = some (.scalar (BitVec.ofNat 64 (leNat [env.packet[i], env.packet[i + 1]]))) := by
  have hbytes : (env.packet.drop i).take 2 = [env.packet[i], env.packet[i + 1]] := by
    rw [List.drop_eq_getElem_cons (by omega), List.drop_eq_getElem_cons hi]
    rfl
  rw [load, if_pos (by omega), zero_add, Int.toNat_natCast, hbytes]

theorem ofNat_leNat_byte {b c : UInt8} :
    BitVec.ofNat 64 (leNat [b]) = BitVec.ofNat 64 (leNat [c]) ↔ b = c := by
  have hb := b.toNat_lt
  have hc := c.toNat_lt
  simp only [leNat, List.map_cons, List.map_nil, Nat.ofDigits_singleton, ← BitVec.toNat_inj,
    BitVec.toNat_ofNat, ← UInt8.toNat_inj]
  omega

theorem ofNat_leNat_half {b₀ b₁ c₀ c₁ : UInt8} :
    BitVec.ofNat 64 (leNat [b₀, b₁]) = BitVec.ofNat 64 (leNat [c₀, c₁]) ↔ b₀ = c₀ ∧ b₁ = c₁ := by
  have hb₀ := b₀.toNat_lt
  have hb₁ := b₁.toNat_lt
  have hc₀ := c₀.toNat_lt
  have hc₁ := c₁.toNat_lt
  simp only [leNat, List.map_cons, List.map_nil, Nat.ofDigits_cons, Nat.ofDigits_nil,
    ← BitVec.toNat_inj, BitVec.toNat_ofNat, ← UInt8.toNat_inj]
  omega

end Rules

/-- Register 1 points to the context at entry. -/
def entry : State where
  pc := 0
  regs := fun r ↦ if r = 1 then .ctx 0 else .uninit
  calls := []

/-- A program given by the bytes of its instructions. -/
def runBytes (env : Env) (prog : List (List UInt8)) (fuel : ℕ) :
    Option (BitVec 64 × List (BitVec 32 × List Value)) :=
  run env (prog.map decode) fuel entry

end Ebpf
