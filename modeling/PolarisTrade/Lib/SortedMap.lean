import Mathlib

/-!
# Ordered maps as sorted association lists

A finite map from a linear order, kept as a list with strictly increasing keys.
The operations are those of an ordered tree map: insertion, removal, and the
nearest entry on either side of a key.  Every lemma speaks about membership in
`entries`, so users never see how the list is rebuilt.
-/

/-- Association list with strictly increasing keys. -/
structure SortedMap (α β : Type*) [LinearOrder α] where
  entries : List (α × β)
  sorted : entries.Pairwise fun p q ↦ p.1 < q.1

namespace SortedMap

variable {α β : Type*} [LinearOrder α]

instance : Membership α (SortedMap α β) where
  mem m k := ∃ v, (k, v) ∈ m.entries

theorem mem_iff {m : SortedMap α β} {k : α} : k ∈ m ↔ ∃ v, (k, v) ∈ m.entries := Iff.rfl

/-- Whether `k` has an entry. -/
def contains (m : SortedMap α β) (k : α) : Bool := m.entries.any fun p ↦ p.1 = k

theorem contains_iff {m : SortedMap α β} {k : α} : m.contains k = true ↔ k ∈ m := by
  simp [contains, mem_iff]

instance (m : SortedMap α β) (k : α) : Decidable (k ∈ m) :=
  decidable_of_iff _ contains_iff

def empty : SortedMap α β := ⟨[], List.Pairwise.nil⟩

@[simp] theorem entries_empty : (empty : SortedMap α β).entries = [] := rfl

@[simp] theorem not_mem_empty (k : α) : k ∉ (empty : SortedMap α β) := by
  simp [mem_iff]

/-- Set the value of `k`, replacing an earlier one. -/
def insert (m : SortedMap α β) (k : α) (v : β) : SortedMap α β where
  entries := m.entries.filter (fun p ↦ p.1 < k) ++
    (k, v) :: m.entries.filter fun p ↦ k < p.1
  sorted := by
    refine List.pairwise_append.mpr ⟨m.sorted.filter _, ?_, ?_⟩
    · refine List.pairwise_cons.mpr ⟨?_, m.sorted.filter _⟩
      intro p hp
      simpa using (List.mem_filter.mp hp).2
    · intro p hp q hq
      have hpk : p.1 < k := by simpa using (List.mem_filter.mp hp).2
      rcases List.mem_cons.mp hq with rfl | hq
      · exact hpk
      · exact hpk.trans (by simpa using (List.mem_filter.mp hq).2)

def erase (m : SortedMap α β) (k : α) : SortedMap α β where
  entries := m.entries.filter fun p ↦ p.1 ≠ k
  sorted := m.sorted.filter _

/-- Insert unless the key is already there. -/
def orInsert (m : SortedMap α β) (k : α) (v : β) : SortedMap α β :=
  if m.contains k then m else m.insert k v

@[simp] theorem mem_entries_insert {m : SortedMap α β} {k : α} {v : β} {p : α × β} :
    p ∈ (m.insert k v).entries ↔ p = (k, v) ∨ p ∈ m.entries ∧ p.1 ≠ k := by
  simp only [insert, List.mem_append, List.mem_filter, List.mem_cons, decide_eq_true_eq]
  constructor
  · rintro (⟨hp, hlt⟩ | rfl | ⟨hp, hlt⟩)
    · exact Or.inr ⟨hp, hlt.ne⟩
    · exact Or.inl rfl
    · exact Or.inr ⟨hp, hlt.ne'⟩
  · rintro (rfl | ⟨hp, hne⟩)
    · exact Or.inr (Or.inl rfl)
    · rcases lt_or_gt_of_ne hne with hlt | hgt
      · exact Or.inl ⟨hp, hlt⟩
      · exact Or.inr (Or.inr ⟨hp, hgt⟩)

@[simp] theorem mem_entries_erase {m : SortedMap α β} {k : α} {p : α × β} :
    p ∈ (m.erase k).entries ↔ p ∈ m.entries ∧ p.1 ≠ k := by
  simp [erase]

@[simp] theorem mem_insert {m : SortedMap α β} {k j : α} {v : β} :
    j ∈ m.insert k v ↔ j = k ∨ j ∈ m := by
  simp only [mem_iff, mem_entries_insert, Prod.mk.injEq]
  constructor
  · rintro ⟨w, ⟨rfl, -⟩ | ⟨hw, -⟩⟩
    · exact Or.inl rfl
    · exact Or.inr ⟨w, hw⟩
  · rintro (rfl | ⟨w, hw⟩)
    · exact ⟨v, Or.inl ⟨rfl, rfl⟩⟩
    · by_cases hj : j = k
      · exact ⟨v, Or.inl ⟨hj, rfl⟩⟩
      · exact ⟨w, Or.inr ⟨hw, hj⟩⟩

@[simp] theorem mem_erase {m : SortedMap α β} {k j : α} :
    j ∈ m.erase k ↔ j ∈ m ∧ j ≠ k := by
  simp [mem_iff]

@[simp] theorem mem_orInsert {m : SortedMap α β} {k j : α} {v : β} :
    j ∈ m.orInsert k v ↔ j = k ∨ j ∈ m := by
  unfold orInsert
  split
  · next h =>
      have hk : k ∈ m := contains_iff.mp h
      constructor
      · exact Or.inr
      · rintro (rfl | hj)
        · exact hk
        · exact hj
  · exact mem_insert

/-- An entry of `orInsert` is an old one or the new one. -/
theorem mem_entries_of_orInsert {m : SortedMap α β} {k : α} {v : β} {p : α × β}
    (h : p ∈ (m.orInsert k v).entries) : p ∈ m.entries ∨ p = (k, v) := by
  unfold orInsert at h
  split at h
  · exact Or.inl h
  · rcases mem_entries_insert.mp h with rfl | ⟨hp, -⟩
    · exact Or.inr rfl
    · exact Or.inl hp

theorem mem_entries_foldl_erase {ks : List α} {m : SortedMap α β} {p : α × β} :
    p ∈ (ks.foldl erase m).entries ↔ p ∈ m.entries ∧ p.1 ∉ ks := by
  induction ks generalizing m with
  | nil => simp
  | cons k ks ih =>
      rw [List.foldl_cons, ih, mem_entries_erase, List.mem_cons]
      tauto

theorem nodup_keys (m : SortedMap α β) : (m.entries.map Prod.fst).Nodup :=
  List.pairwise_map.mpr (m.sorted.imp fun h ↦ h.ne)

/-! ## Neighbours of a key -/

/-- Last entry with a key below `k`. -/
def lastBelow (m : SortedMap α β) (k : α) : Option (α × β) :=
  (m.entries.filter fun p ↦ p.1 < k).getLast?

/-- Last entry with a key at most `k`. -/
def lastUpTo (m : SortedMap α β) (k : α) : Option (α × β) :=
  (m.entries.filter fun p ↦ p.1 ≤ k).getLast?

/-- First entry with a key at least `k`. -/
def firstFrom (m : SortedMap α β) (k : α) : Option (α × β) :=
  (m.entries.filter fun p ↦ k ≤ p.1).head?

section Neighbours

variable {m : SortedMap α β} {k : α} {p q : α × β}

/-- The last element of a strictly sorted list is its greatest. -/
theorem le_getLast {l : List (α × β)} (hl : l.Pairwise fun p q ↦ p.1 < q.1)
    (hp : l.getLast? = some p) (hq : q ∈ l) : q.1 ≤ p.1 := by
  obtain ⟨init, rfl⟩ := List.getLast?_eq_some_iff.mp hp
  rcases List.mem_append.mp hq with hq | hq
  · exact ((List.pairwise_append.mp hl).2.2 q hq p (List.mem_singleton_self p)).le
  · rw [List.mem_singleton.mp hq]

theorem head_le {l : List (α × β)} (hl : l.Pairwise fun p q ↦ p.1 < q.1)
    (hp : l.head? = some p) (hq : q ∈ l) : p.1 ≤ q.1 := by
  obtain ⟨tail, rfl⟩ := List.head?_eq_some_iff.mp hp
  rcases List.mem_cons.mp hq with rfl | hq
  · exact le_rfl
  · exact ((List.pairwise_cons.mp hl).1 q hq).le

theorem lastBelow_mem (h : m.lastBelow k = some p) : p ∈ m.entries ∧ p.1 < k := by
  simpa using List.mem_filter.mp (List.mem_of_getLast? h)

theorem le_lastBelow (h : m.lastBelow k = some p) (hq : q ∈ m.entries) (hqk : q.1 < k) :
    q.1 ≤ p.1 :=
  le_getLast (m.sorted.filter _) h (List.mem_filter.mpr ⟨hq, by simpa using hqk⟩)

theorem le_of_lastBelow_none (h : m.lastBelow k = none) (hq : q ∈ m.entries) : k ≤ q.1 := by
  have hnil := List.getLast?_eq_none_iff.mp h
  by_contra hlt
  have hmem : q ∈ m.entries.filter fun p ↦ p.1 < k :=
    List.mem_filter.mpr ⟨hq, by simpa using hlt⟩
  simp [hnil] at hmem

theorem lastUpTo_mem (h : m.lastUpTo k = some p) : p ∈ m.entries ∧ p.1 ≤ k := by
  simpa using List.mem_filter.mp (List.mem_of_getLast? h)

theorem le_lastUpTo (h : m.lastUpTo k = some p) (hq : q ∈ m.entries) (hqk : q.1 ≤ k) :
    q.1 ≤ p.1 :=
  le_getLast (m.sorted.filter _) h (List.mem_filter.mpr ⟨hq, by simpa using hqk⟩)

theorem lt_of_lastUpTo_none (h : m.lastUpTo k = none) (hq : q ∈ m.entries) : k < q.1 := by
  have hnil := List.getLast?_eq_none_iff.mp h
  by_contra hle
  have hmem : q ∈ m.entries.filter fun p ↦ p.1 ≤ k :=
    List.mem_filter.mpr ⟨hq, by simpa using hle⟩
  simp [hnil] at hmem

theorem firstFrom_mem (h : m.firstFrom k = some p) : p ∈ m.entries ∧ k ≤ p.1 := by
  simpa using List.mem_filter.mp (List.mem_of_head? h)

theorem firstFrom_le (h : m.firstFrom k = some p) (hq : q ∈ m.entries) (hkq : k ≤ q.1) :
    p.1 ≤ q.1 :=
  head_le (m.sorted.filter _) h (List.mem_filter.mpr ⟨hq, by simpa using hkq⟩)

theorem lt_of_firstFrom_none (h : m.firstFrom k = none) (hq : q ∈ m.entries) : q.1 < k := by
  have hnil := List.head?_eq_none_iff.mp h
  by_contra hle
  have hmem : q ∈ m.entries.filter fun p ↦ k ≤ p.1 :=
    List.mem_filter.mpr ⟨hq, by simpa using hle⟩
  simp [hnil] at hmem

/-- Keys determine entries. -/
theorem entry_unique (hp : p ∈ m.entries) (hq : q ∈ m.entries) (h : p.1 = q.1) : p = q := by
  have hkeys : (m.entries.map Prod.fst).Nodup := by
    refine List.pairwise_map.mpr (m.sorted.imp ?_)
    exact fun hlt ↦ hlt.ne
  exact List.inj_on_of_nodup_map hkeys hp hq h

end Neighbours

theorem length_erase_lt {m : SortedMap α β} {p : α × β} (hp : p ∈ m.entries) :
    (m.erase p.1).entries.length < m.entries.length := by
  refine List.length_filter_lt_length_iff_exists.mpr ⟨p, hp, ?_⟩
  simp

end SortedMap
