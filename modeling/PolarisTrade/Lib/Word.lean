import Mathlib

/-!
# Machine words as bounded naturals

Unsigned 64-bit quantities are naturals here.  The two additions a program may
use at the top of the range are spelled out: `wrappingAdd` is the plain `+` of a
build without overflow checks, `saturatingAdd` stops at the largest word.  Big
endian words are read and written one byte at a time.
-/

namespace Word

/-- Largest 64-bit word. -/
abbrev max64 : ℕ := 2 ^ 64 - 1

def wrappingAdd (a b : ℕ) : ℕ := (a + b) % 2 ^ 64

def saturatingAdd (a b : ℕ) : ℕ := min (a + b) max64

theorem wrappingAdd_of_lt {a b : ℕ} (h : a + b < 2 ^ 64) : wrappingAdd a b = a + b :=
  Nat.mod_eq_of_lt h

theorem wrappingAdd_lt (a b : ℕ) : wrappingAdd a b < 2 ^ 64 :=
  Nat.mod_lt _ (by norm_num)

/-- Numbering by repeated increments agrees with adding once. -/
theorem wrappingAdd_add (a b c : ℕ) :
    wrappingAdd (wrappingAdd a b) c = wrappingAdd a (b + c) := by
  unfold wrappingAdd
  rw [Nat.mod_add_mod, Nat.add_assoc]

theorem saturatingAdd_of_le {a b : ℕ} (h : a + b ≤ max64) : saturatingAdd a b = a + b :=
  min_eq_left h

theorem saturatingAdd_le (a b : ℕ) : saturatingAdd a b ≤ max64 := min_le_right _ _

/-! ## Big-endian bytes -/

def fromBeBytes (bytes : List UInt8) : ℕ :=
  bytes.foldl (fun acc b ↦ acc * 256 + b.toNat) 0

/-- The low `width` bytes of `n`, most significant first. -/
def toBeBytes : ℕ → ℕ → List UInt8
  | 0, _ => []
  | width + 1, n => toBeBytes width (n / 256) ++ [UInt8.ofNat (n % 256)]

@[simp] theorem fromBeBytes_nil : fromBeBytes [] = 0 := rfl

@[simp] theorem fromBeBytes_append_singleton (bytes : List UInt8) (b : UInt8) :
    fromBeBytes (bytes ++ [b]) = fromBeBytes bytes * 256 + b.toNat := by
  simp [fromBeBytes]

@[simp] theorem length_toBeBytes (width n : ℕ) : (toBeBytes width n).length = width := by
  induction width generalizing n with
  | zero => rfl
  | succ width ih => simp [toBeBytes, ih]

theorem fromBeBytes_lt (bytes : List UInt8) : fromBeBytes bytes < 256 ^ bytes.length := by
  induction bytes using List.reverseRecOn with
  | nil => simp
  | append_singleton bytes b ih =>
      have hb : b.toNat < 256 := b.toNat_lt
      rw [fromBeBytes_append_singleton, List.length_append, List.length_singleton, pow_succ]
      omega

theorem fromBeBytes_toBeBytes {width n : ℕ} (h : n < 256 ^ width) :
    fromBeBytes (toBeBytes width n) = n := by
  induction width generalizing n with
  | zero =>
      rw [pow_zero] at h
      simp [toBeBytes]
      omega
  | succ width ih =>
      have hq : n / 256 < 256 ^ width := by
        rw [pow_succ] at h
        exact Nat.div_lt_of_lt_mul (by rwa [Nat.mul_comm])
      have hr : (UInt8.ofNat (n % 256)).toNat = n % 256 := by
        simp [UInt8.toNat_ofNat']
      rw [toBeBytes, fromBeBytes_append_singleton, ih hq, hr]
      omega

theorem toBeBytes_fromBeBytes (bytes : List UInt8) :
    toBeBytes bytes.length (fromBeBytes bytes) = bytes := by
  induction bytes using List.reverseRecOn with
  | nil => rfl
  | append_singleton bytes b ih =>
      have hb : b.toNat < 256 := b.toNat_lt
      have hq : (fromBeBytes bytes * 256 + b.toNat) / 256 = fromBeBytes bytes := by omega
      have hr : (fromBeBytes bytes * 256 + b.toNat) % 256 = b.toNat := by omega
      rw [fromBeBytes_append_singleton, List.length_append, List.length_singleton, toBeBytes, hq,
        hr, ih, UInt8.ofNat_toNat]

end Word
