import Mathlib

/-!
# Ring buffers with free-running indices

A ring of `2 ^ k` cells is addressed by words of `w` bits that only ever count up and wrap.
The word of index `i` is `BitVec.ofNat w i`, its cell is `i % 2 ^ k`.  `Window` says that the
ring holds the entries of an unbounded stream that are written and not yet released.
-/

namespace RingBuffer

variable {w : ℕ} {a b i : ℕ}

/-! ## Words of indices -/

/-- Masking a word gives the cell of its index. -/
theorem toNat_and_mask {k : ℕ} (hk : k ≤ w) {mask : BitVec w} (hmask : mask.toNat + 1 = 2 ^ k)
    (i : ℕ) : (BitVec.ofNat w i &&& mask).toNat = i % 2 ^ k := by
  have hmask' : mask.toNat = 2 ^ k - 1 := by omega
  rw [BitVec.toNat_and, hmask', Nat.and_two_pow_sub_one_eq_mod, BitVec.toNat_ofNat,
    Nat.mod_mod_of_dvd _ (pow_dvd_pow 2 hk)]

theorem and_mask_le (word mask : BitVec w) : (word &&& mask).toNat ≤ mask.toNat := by
  rw [BitVec.toNat_and]
  exact Nat.and_le_right

theorem eq_zero_of_not_pos {word : BitVec w} (h : ¬ 0#w < word) : word = 0#w := by
  rw [BitVec.lt_def, BitVec.toNat_zero, Nat.pos_iff_ne_zero, not_not] at h
  exact BitVec.eq_of_toNat_eq (h.trans BitVec.toNat_zero.symm)

theorem ofNat_succ (i : ℕ) : BitVec.ofNat w (i + 1) = BitVec.ofNat w i + 1 :=
  BitVec.ofNat_add i 1

/-- The distance of two indices less than one turn apart. -/
theorem toNat_ofNat_sub (hle : b ≤ a) (hlt : a - b < 2 ^ w) :
    (BitVec.ofNat w a - BitVec.ofNat w b).toNat = a - b := by
  have h : BitVec.ofNat w a = BitVec.ofNat w (a - b) + BitVec.ofNat w b := by
    rw [← BitVec.ofNat_add, Nat.sub_add_cancel hle]
  rw [h, BitVec.add_sub_cancel, BitVec.toNat_ofNat, Nat.mod_eq_of_lt hlt]

/-- Counting up towards a word brings it nearer. -/
theorem toNat_sub_add {goal word : BitVec w} {n : ℕ} (hle : n ≤ (goal - word).toNat) :
    (goal - (word + BitVec.ofNat w n)).toNat + n = (goal - word).toNat := by
  have hn : (BitVec.ofNat w n).toNat = n := by
    rw [BitVec.toNat_ofNat, Nat.mod_eq_of_lt (hle.trans_lt (goal - word).isLt)]
  have hword : BitVec.ofNat w n ≤ goal - word := by
    rw [BitVec.le_def, hn]
    exact hle
  rw [← BitVec.sub_sub, BitVec.toNat_sub_of_le hword, hn, Nat.sub_add_cancel hle]

/-! ## Cells of a stream -/

/-- Two indices less than one lap apart lie in different cells. -/
theorem cell_ne {n : ℕ} (hab : a < b) (hlt : b < a + n) (start : ℕ) :
    (start + a) % n ≠ (start + b) % n := by
  intro h
  have hdvd : n ∣ (start + b) - (start + a) := (Nat.modEq_iff_dvd' (by omega)).mp h
  have hle := Nat.le_of_dvd (by omega) hdvd
  omega

variable {α : Type*} {cells : List α} {start released : ℕ} {stream : List α}

/-- The cells hold the entries of the stream from `released` on; entry `i` has index
`start + i`. -/
structure Window (cells : List α) (start released : ℕ) (stream : List α) : Prop where
  length_le : stream.length ≤ released + cells.length
  get : ∀ i, released ≤ i → i < stream.length →
    cells[(start + i) % cells.length]? = stream[i]?

namespace Window

theorem nil (cells : List α) (start : ℕ) : Window cells start 0 [] :=
  ⟨Nat.zero_le _, fun _ _ h ↦ absurd h (Nat.not_lt_zero _)⟩

/-- Writing the next entry of the stream into a cell that is free. -/
theorem push (h : Window cells start released stream)
    (hfree : stream.length < released + cells.length) (x : α) :
    Window (cells.set ((start + stream.length) % cells.length) x) start released
      (stream ++ [x]) := by
  refine ⟨by rw [List.length_append, List.length_set]; exact hfree, fun i hi hlt ↦ ?_⟩
  rw [List.length_set]
  rw [List.length_append, List.length_singleton] at hlt
  rcases Nat.lt_succ_iff_lt_or_eq.mp hlt with hlt | rfl
  · rw [List.getElem?_set_ne (cell_ne hlt (by omega) start).symm,
      List.getElem?_append_left hlt]
    exact h.get i hi hlt
  · have hcell : (start + stream.length) % cells.length < cells.length :=
      Nat.mod_lt _ (by omega)
    rw [List.getElem?_set_self hcell, List.getElem?_concat_length]

/-- Releasing entries. -/
theorem release (h : Window cells start released stream) {released' : ℕ}
    (hle : released ≤ released') : Window cells start released' stream :=
  ⟨h.length_le.trans (Nat.add_le_add_right hle _), fun i hi ↦ h.get i (hle.trans hi)⟩

end Window

end RingBuffer
