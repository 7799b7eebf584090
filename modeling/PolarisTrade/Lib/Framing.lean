import Mathlib

/-!
# Cutting a growing buffer into items

A framer looks at the front of a buffer and finds an item, asks for more, or gives up.
What it finds is decided by the bytes it has seen: bytes that arrive behind them change
neither an item nor a failure.  Cutting a buffer as far as it goes can then be done in any
number of pieces: first what has arrived, later the rest of it together with what follows.
-/

/-- What a framer finds at the front of a buffer. -/
inductive Framed (α ε : Type*)
  | more
  | item (a : α) (consumed : ℕ)
  | bad (e : ε)

/-- A framer, with the laws that make cutting independent of how the input arrives. -/
structure Framer (β α ε : Type*) where
  frame : List β → Framed α ε
  consumed_pos : ∀ {buf a n}, frame buf = .item a n → 0 < n
  consumed_le : ∀ {buf a n}, frame buf = .item a n → n ≤ buf.length
  item_append : ∀ {buf a n} (tail : List β), frame buf = .item a n →
    frame (buf ++ tail) = .item a n
  bad_append : ∀ {buf e} (tail : List β), frame buf = .bad e → frame (buf ++ tail) = .bad e

namespace Framer

variable {β α ε : Type*} (f : Framer β α ε)

/-- The items at the front of the buffer, at most `fuel` of them, with the failure that
stopped the cutting, if one did, and what is left. -/
def cutFuel : ℕ → List β → List α × Option ε × List β
  | 0, buf => ([], none, buf)
  | fuel + 1, buf =>
      match f.frame buf with
      | .more => ([], none, buf)
      | .bad e => ([], some e, buf)
      | .item a n =>
          let r := cutFuel fuel (buf.drop n)
          (a :: r.1, r.2)

/-- All items at the front of the buffer: each takes at least one element of it. -/
def cut (buf : List β) : List α × Option ε × List β := f.cutFuel (buf.length + 1) buf

variable {f}

theorem length_drop_lt {buf : List β} {a : α} {n : ℕ} (h : f.frame buf = .item a n) :
    (buf.drop n).length < buf.length := by
  have hpos := f.consumed_pos h
  have hle := f.consumed_le h
  rw [List.length_drop]
  omega

theorem cutFuel_eq_cut {fuel : ℕ} {buf : List β} (hfuel : buf.length < fuel) :
    f.cutFuel fuel buf = f.cut buf := by
  -- both sides unfold alike, and an item leaves a shorter buffer to each
  have h : ∀ (n m : ℕ) (buf : List β), buf.length < n → buf.length < m →
      f.cutFuel n buf = f.cutFuel m buf := by
    intro n
    induction n with
    | zero => exact fun m buf hn _ ↦ absurd hn (Nat.not_lt_zero _)
    | succ n ih =>
        intro m buf hn hm
        obtain ⟨m, rfl⟩ := Nat.exists_eq_succ_of_ne_zero (Nat.ne_zero_of_lt hm)
        unfold cutFuel
        cases hframe : f.frame buf with
        | more => rfl
        | bad e => rfl
        | item a k =>
            have hlt := length_drop_lt hframe
            dsimp only
            rw [ih m (buf.drop k) (by omega) (by omega)]
  exact h _ _ _ hfuel (Nat.lt_succ_self _)

theorem cut_of_more {buf : List β} (h : f.frame buf = .more) : f.cut buf = ([], none, buf) := by
  rw [cut, cutFuel, h]

theorem cut_of_bad {buf : List β} {e : ε} (h : f.frame buf = .bad e) :
    f.cut buf = ([], some e, buf) := by
  rw [cut, cutFuel, h]

theorem cut_of_item {buf : List β} {a : α} {n : ℕ} (h : f.frame buf = .item a n) :
    f.cut buf = (a :: (f.cut (buf.drop n)).1, (f.cut (buf.drop n)).2) := by
  rw [cut, cutFuel, h]
  dsimp only
  rw [cutFuel_eq_cut (length_drop_lt h)]

/-- Items written one after another, each found at its own encoding, are what the whole is
cut into. -/
theorem cut_flatMap (encode : α → List β) (hempty : f.frame [] = .more) {items : List α}
    (hencode : ∀ a ∈ items, ∀ tail : List β,
      f.frame (encode a ++ tail) = .item a (encode a).length) :
    f.cut (items.flatMap encode) = (items, none, []) := by
  induction items with
  | nil => exact cut_of_more hempty
  | cons a items ih =>
      rw [List.flatMap_cons, cut_of_item (hencode a List.mem_cons_self _), List.drop_left,
        ih fun b hb ↦ hencode b (List.mem_cons_of_mem a hb)]

/-- Of items written one after another and cut off anywhere, a front part is found. -/
theorem cut_isPrefix (encode : α → List β) (hempty : f.frame [] = .more) {items : List α}
    (hencode : ∀ a ∈ items, ∀ (tail : List β) (b : α) (n : ℕ),
      f.frame (encode a ++ tail) = .item b n → b = a ∧ n = (encode a).length)
    {buf : List β} (hbuf : buf <+: items.flatMap encode) : (f.cut buf).1 <+: items := by
  induction items generalizing buf with
  | nil =>
      rw [List.flatMap_nil, List.prefix_nil] at hbuf
      rw [hbuf, cut_of_more hempty]
  | cons a items ih =>
      cases hframe : f.frame buf with
      | more =>
          rw [cut_of_more hframe]
          exact List.nil_prefix
      | bad e =>
          rw [cut_of_bad hframe]
          exact List.nil_prefix
      | item b n =>
          obtain ⟨tail, htail⟩ := hbuf
          -- what is found in the part is found in the whole
          have hwhole := f.item_append tail hframe
          rw [htail, List.flatMap_cons] at hwhole
          obtain ⟨rfl, rfl⟩ := hencode a List.mem_cons_self _ b n hwhole
          rw [cut_of_item hframe]
          refine List.cons_prefix_cons.mpr ⟨rfl, ih (fun c hc ↦ hencode c ?_) ⟨tail, ?_⟩⟩
          · exact List.mem_cons_of_mem b hc
          · have hle := f.consumed_le hframe
            rw [← List.drop_append_of_le_length hle, htail, List.flatMap_cons, List.drop_left]

end Framer
