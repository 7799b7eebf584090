import Mathlib

/-!
# Text as bytes

Lists of characters under UTF-8: every such list is read back from its bytes, decimal digits take
one byte each, and padding around a field that has none of its own is stripped off again.
-/

namespace Text

/-- The bytes of some characters. -/
def encode (cs : List Char) : List UInt8 := cs.flatMap String.utf8EncodeChar

theorem encode_append (cs ds : List Char) : encode (cs ++ ds) = encode cs ++ encode ds :=
  List.flatMap_append

/-- What was encoded is valid and decodes to itself. -/
theorem fromUTF8?_encode (cs : List Char) :
    String.fromUTF8? ⟨(encode cs).toArray⟩ = some (String.ofList cs) := by
  have hbytes : (⟨(encode cs).toArray⟩ : ByteArray) = cs.utf8Encode := by
    apply ByteArray.ext
    exact List.data_toByteArray.symm
  have hvalid : (⟨(encode cs).toArray⟩ : ByteArray).IsValidUTF8 := ⟨cs, hbytes⟩
  unfold String.fromUTF8?
  rw [dif_pos hvalid]
  congr 1
  rw [← String.toByteArray_inj, String.toByteArray_ofList, ← hbytes]
  rfl

/-- The bytes of a string are those of its characters. -/
theorem toList_data_toByteArray (s : String) : s.toByteArray.data.toList = encode s.toList := by
  conv_lhs => rw [← @String.ofList_toList s, String.toByteArray_ofList]
  exact congrArg Array.toList List.data_toByteArray

theorem encode_replicate {c : Char} (hc : c.val ≤ 127) (k : ℕ) :
    encode (List.replicate k c) = List.replicate k c.val.toUInt8 := by
  rw [encode, List.flatMap_replicate,
    String.utf8EncodeChar_eq_singleton (Char.utf8Size_eq_one_iff.mpr hc)]
  simp

/-! ## Decimal digits -/

theorem length_encode_of_isDigit {cs : List Char} (h : ∀ c ∈ cs, c.isDigit = true) :
    (encode cs).length = cs.length := by
  have hone : ∀ c ∈ cs, (String.utf8EncodeChar c).length = 1 := by
    intro c hc
    have hdigit := h c hc
    simp only [Char.isDigit, Bool.and_eq_true, decide_eq_true_eq] at hdigit
    rw [String.utf8EncodeChar_eq_singleton (Char.utf8Size_eq_one_iff.mpr ?_)]
    · rfl
    · exact UInt32.le_trans hdigit.2 (by decide)
  rw [encode, List.length_flatMap, List.map_congr_left hone]
  simp

/-- Digits read from the left give the number they were printed from. -/
theorem foldl_toDigits (n : ℕ) :
    (Nat.toDigits 10 n).foldl (fun acc d ↦ acc * 10 + (d.toNat - '0'.toNat)) 0 = n := by
  have hread := @Nat.ofDigitChars_toDigits 10 n (by decide) le_rfl
  unfold Nat.ofDigitChars at hread
  simpa only [Nat.mul_comm] using hread

/-! ## Padding -/

section Padding

variable {α : Type*} {p : α → Bool} {xs ys zs : List α}

/-- `xs` neither starts nor ends with something to strip. -/
def Bare (p : α → Bool) (xs : List α) : Prop :=
  (∀ a ∈ xs.head?, p a = false) ∧ ∀ a ∈ xs.getLast?, p a = false

theorem dropWhile_append_bare (hpad : ∀ a ∈ ys, p a = true)
    (hbare : ∀ a ∈ xs.head?, p a = false) :
    (ys ++ xs).dropWhile p = xs := by
  rw [List.dropWhile_append_of_pos hpad]
  cases xs with
  | nil => rfl
  | cons a xs => rw [List.dropWhile_cons_of_neg (by rw [hbare a rfl]; exact Bool.false_ne_true)]

/-- Padding on both sides comes off, and nothing else. -/
theorem strip_padded (hleft : ∀ a ∈ ys, p a = true) (hright : ∀ a ∈ zs, p a = true)
    (hbare : Bare p xs) : ((ys ++ xs ++ zs).dropWhile p).rdropWhile p = xs := by
  obtain ⟨hhead, hlast⟩ := hbare
  cases xs with
  | nil =>
      have hall : ∀ a ∈ ys ++ [] ++ zs, p a = true := by
        intro a ha
        rw [List.append_nil] at ha
        exact (List.mem_append.mp ha).elim (hleft a) (hright a)
      rw [List.dropWhile_eq_nil_iff.mpr hall]
      rfl
  | cons a xs =>
      have hright' : ∀ b ∈ zs.reverse, p b = true := fun b hb ↦ hright b (List.mem_reverse.mp hb)
      have hlast' : ∀ b ∈ (a :: xs).reverse.head?, p b = false := by
        rw [List.head?_reverse]
        exact hlast
      have hhead' : ∀ b ∈ (a :: xs ++ zs).head?, p b = false := hhead
      rw [List.append_assoc, dropWhile_append_bare hleft hhead', List.rdropWhile,
        List.reverse_append, dropWhile_append_bare hright' hlast', List.reverse_reverse]

end Padding

end Text
