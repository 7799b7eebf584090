import Mathlib

/-!
# Compacting an array in place

One pass over an array moves some of its entries to the front, over entries it has read already.
As long as no more is moved than was read, an entry is read as it was at first: the array is its
first state with the front overwritten by what was moved.
-/

namespace Compact

variable {α β : Type*}

/-! ## A front written onto an array -/

/-- `xs` with its first entries overwritten by `front`. -/
def onto (front xs : List α) : List α := front ++ xs.drop front.length

variable {front xs : List α}

@[simp] theorem nil_onto (xs : List α) : onto [] xs = xs := rfl

theorem length_onto (hfits : front.length ≤ xs.length) : (onto front xs).length = xs.length := by
  rw [onto, List.length_append, List.length_drop]
  omega

@[simp] theorem take_onto (front xs : List α) : (onto front xs).take front.length = front :=
  List.take_left

/-- Behind the front nothing has changed. -/
theorem getElem?_onto {i : ℕ} (hle : front.length ≤ i) : (onto front xs)[i]? = xs[i]? := by
  rw [onto, List.getElem?_append_right hle, List.getElem?_drop, Nat.add_sub_cancel' hle]

/-- The next entry moved makes the front longer. -/
theorem set_onto (hfits : front.length < xs.length) (x : α) :
    (onto front xs).set front.length x = onto (front ++ [x]) xs := by
  rw [onto, List.set_append_right _ _ le_rfl, Nat.sub_self, List.drop_eq_getElem_cons hfits,
    List.set_cons_zero, onto, List.length_append, List.length_singleton, List.append_assoc,
    List.singleton_append]

theorem take_onto_map (f : β → α) (items : List β) (xs : List α) :
    (onto (items.map f) xs).take items.length = items.map f := by
  rw [← List.length_map f, take_onto]

theorem getElem?_onto_map (f : β → α) {items : List β} {item : β} {j : ℕ}
    (hitem : items[j]? = some item) (xs : List α) :
    (onto (items.map f) xs)[j]? = some (f item) := by
  obtain ⟨hj, -⟩ := List.getElem?_eq_some_iff.mp hitem
  rw [onto, List.getElem?_append_left (by rwa [List.length_map]), List.getElem?_map, hitem,
    Option.map_some]

/-! ## Entries picked by their marks -/

/-- The entries of `xs` whose mark satisfies `p`, with their indices counted from `start`. -/
def pick (p : β → Bool) (marks : List β) (xs : List α) (start : ℕ) : List (ℕ × α) :=
  (((xs.zip marks).zipIdx start).filter fun e ↦ p e.1.2).map fun e ↦ (e.2, e.1.1)

variable {p : β → Bool} {mark : β} {marks : List β} {x : α} {start : ℕ}

@[simp] theorem pick_nil : pick p [] xs start = [] := by
  simp [pick]

theorem pick_cons_of_pos (hp : p mark = true) :
    pick p (mark :: marks) (x :: xs) start = (start, x) :: pick p marks xs (start + 1) := by
  simp [pick, hp]

theorem pick_cons_of_neg (hp : p mark = false) :
    pick p (mark :: marks) (x :: xs) start = pick p marks xs (start + 1) := by
  simp [pick, hp]

/-- The indices picked are those of the marks, and the entries those at the indices. -/
theorem map_pick (hlength : marks.length = xs.length) (start : ℕ) :
    (pick p marks xs start).map (fun e ↦ (e.1, some e.2)) =
      (marks.findIdxs p start).map fun i ↦ (i, xs[i - start]?) := by
  induction marks generalizing xs start with
  | nil => rw [pick_nil, List.findIdxs_nil, List.map_nil, List.map_nil]
  | cons mark marks ih =>
      obtain ⟨x, xs, rfl⟩ := List.exists_cons_of_length_eq_add_one hlength.symm
      have hrest := ih (Nat.succ.inj hlength) (start + 1)
      -- an index of the rest is one further in the whole
      have hshift : (marks.findIdxs p (start + 1)).map (fun i ↦ (i, (x :: xs)[i - start]?)) =
          (marks.findIdxs p (start + 1)).map fun i ↦ (i, xs[i - (start + 1)]?) := by
        apply List.map_congr_left
        intro i hi
        have hle := List.ge_of_mem_findIdxs i hi
        rw [show i - start = i - (start + 1) + 1 by omega, List.getElem?_cons_succ]
      rw [List.findIdxs_cons]
      cases hp : p mark with
      | false => rw [pick_cons_of_neg hp, hrest, if_neg Bool.false_ne_true, hshift]
      | true =>
          rw [pick_cons_of_pos hp, if_pos rfl, List.map_cons, List.map_cons, hrest, hshift,
            Nat.sub_self, List.getElem?_cons_zero]

/-- What satisfies `p` and what does not is everything, each entry once. -/
theorem pick_append_perm {q : β → Bool} (hq : ∀ mark, q mark = !p mark)
    (hlength : marks.length = xs.length) (start : ℕ) :
    ((pick p marks xs start).map Prod.snd ++ (pick q marks xs start).map Prod.snd).Perm xs := by
  induction marks generalizing xs start with
  | nil =>
      obtain rfl := List.length_eq_zero_iff.mp hlength.symm
      rw [pick_nil, pick_nil]
      exact .refl _
  | cons mark marks ih =>
      obtain ⟨x, xs, rfl⟩ := List.exists_cons_of_length_eq_add_one hlength.symm
      have hrest := ih (Nat.succ.inj hlength) (start + 1)
      have hmark := hq mark
      cases hp : p mark with
      | false =>
          rw [hp] at hmark
          rw [pick_cons_of_neg hp, pick_cons_of_pos hmark, List.map_cons]
          exact List.perm_middle.trans (hrest.cons x)
      | true =>
          rw [hp] at hmark
          rw [pick_cons_of_pos hp, pick_cons_of_neg hmark, List.map_cons]
          exact hrest.cons x

/-- Marks and entries that come from one list. -/
theorem map_snd_pick_map {γ : Type*} (f : γ → β) (g : γ → α) (items : List γ) (start : ℕ) :
    (pick p (items.map f) (items.map g) start).map Prod.snd =
      (items.filter fun item ↦ p (f item)).map g := by
  induction items generalizing start with
  | nil => rw [List.map_nil, pick_nil, List.filter_nil, List.map_nil, List.map_nil]
  | cons item items ih =>
      rw [List.map_cons, List.map_cons, List.filter_cons]
      cases hp : p (f item) with
      | false => rw [pick_cons_of_neg hp, ih, if_neg Bool.false_ne_true]
      | true => rw [pick_cons_of_pos hp, List.map_cons, ih, if_pos rfl, List.map_cons]

end Compact
