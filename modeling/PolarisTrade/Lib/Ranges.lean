import Mathlib

/-!
# Lists of half-open ranges

A list of ranges `[lo, hi)` over a linear order, read as the set of points it covers.  In
canonical form the ranges are non-empty, in order, and neither overlap nor touch; a set has
at most one canonical form.
-/

namespace Ranges

variable {α : Type*} [LinearOrder α]

/-- Some range contains `s`. -/
def Covers (l : List (α × α)) (s : α) : Prop := ∃ p ∈ l, p.1 ≤ s ∧ s < p.2

/-- Non-empty ranges, each ending before the next one starts. -/
structure Canonical (l : List (α × α)) : Prop where
  nonempty : ∀ p ∈ l, p.1 < p.2
  apart : l.Pairwise fun p q ↦ p.2 < q.1

/-- `[lo, hi)` is a non-empty range inside a set and in no larger one. -/
def Maximal (S : α → Prop) (lo hi : α) : Prop :=
  lo < hi ∧ (∀ s, lo ≤ s → s < hi → S s) ∧
    ∀ lo' hi', lo' ≤ lo → hi ≤ hi' → (∀ s, lo' ≤ s → s < hi' → S s) → lo' = lo ∧ hi' = hi

variable {l m : List (α × α)} {p q : α × α} {s : α}

theorem covers_cons : Covers (p :: l) s ↔ (p.1 ≤ s ∧ s < p.2) ∨ Covers l s := by
  simp [Covers]

namespace Canonical

theorem tail (h : Canonical (p :: l)) : Canonical l :=
  ⟨fun q hq ↦ h.nonempty q (List.mem_cons_of_mem p hq), (List.pairwise_cons.mp h.apart).2⟩

/-- What the later ranges cover lies past the end of the first. -/
theorem lt_of_covers_tail (h : Canonical (p :: l)) (hs : Covers l s) : p.2 < s := by
  obtain ⟨q, hq, hle, -⟩ := hs
  exact ((List.pairwise_cons.mp h.apart).1 q hq).trans_le hle

/-- The first range starts at the least point covered. -/
theorem le_of_covers (h : Canonical (p :: l)) (hs : Covers (p :: l) s) : p.1 ≤ s := by
  rcases covers_cons.mp hs with ⟨hle, -⟩ | htail
  · exact hle
  · exact ((h.nonempty p List.mem_cons_self).trans (h.lt_of_covers_tail htail)).le

theorem covers_head (h : Canonical (p :: l)) : Covers (p :: l) p.1 :=
  ⟨p, List.mem_cons_self, le_rfl, h.nonempty p List.mem_cons_self⟩

/-- The end of the first range is not covered. -/
theorem not_covers_end (h : Canonical (p :: l)) : ¬ Covers (p :: l) p.2 := by
  intro hs
  rcases covers_cons.mp hs with ⟨-, hlt⟩ | htail
  · exact lt_irrefl _ hlt
  · exact lt_irrefl _ (h.lt_of_covers_tail htail)

/-- The end of the first range is determined by its start and what is covered. -/
theorem end_le (hq : Canonical (q :: m)) (hstart : q.1 = p.1)
    (h : ∀ s, Covers (p :: l) s → Covers (q :: m) s) : p.2 ≤ q.2 := by
  by_contra hlt
  refine hq.not_covers_end (h q.2 ⟨p, List.mem_cons_self, ?_, lt_of_not_ge hlt⟩)
  exact hstart ▸ (hq.nonempty q List.mem_cons_self).le

theorem covers_tail_iff (h : Canonical (p :: l)) :
    Covers l s ↔ Covers (p :: l) s ∧ p.2 < s := by
  refine ⟨fun hs ↦ ⟨covers_cons.mpr (Or.inr hs), h.lt_of_covers_tail hs⟩, fun ⟨hs, hlt⟩ ↦ ?_⟩
  rcases covers_cons.mp hs with ⟨-, hlt'⟩ | htail
  · exact (lt_asymm hlt hlt').elim
  · exact htail

/-- A set has at most one canonical form. -/
theorem eq_of_covers (hl : Canonical l) (hm : Canonical m) (h : ∀ s, Covers l s ↔ Covers m s) :
    l = m := by
  induction l generalizing m with
  | nil =>
      cases m with
      | nil => rfl
      | cons q m =>
          obtain ⟨r, hr, -⟩ := (h q.1).mpr hm.covers_head
          cases hr
  | cons p l ih =>
      cases m with
      | nil =>
          obtain ⟨r, hr, -⟩ := (h p.1).mp hl.covers_head
          cases hr
      | cons q m =>
          have hstart : p.1 = q.1 := le_antisymm (hl.le_of_covers ((h q.1).mpr hm.covers_head))
            (hm.le_of_covers ((h p.1).mp hl.covers_head))
          have hend : p.2 = q.2 := le_antisymm (hm.end_le hstart.symm fun s ↦ (h s).mp)
            (hl.end_le hstart fun s ↦ (h s).mpr)
          have hhead : p = q := Prod.ext hstart hend
          have htail : ∀ s, Covers l s ↔ Covers m s := fun s ↦ by
            rw [hl.covers_tail_iff, hm.covers_tail_iff, h, hend]
          rw [hhead, ih hl.tail hm.tail htail]

/-- Of two ranges one ends before the other starts. -/
theorem apart_of_mem (h : Canonical l) (hp : p ∈ l) (hq : q ∈ l) (hne : p ≠ q) :
    p.2 < q.1 ∨ q.2 < p.1 := by
  have hsymm : Std.Symm fun p q : α × α ↦ p.2 < q.1 ∨ q.2 < p.1 := ⟨fun _ _ ↦ Or.symm⟩
  have hpair : l.Pairwise fun p q ↦ p.2 < q.1 ∨ q.2 < p.1 := h.apart.imp Or.inl
  exact hpair.forall hp hq hne

/-- The end of a range is not covered. -/
theorem not_covers_end_of_mem (h : Canonical l) (hp : p ∈ l) : ¬ Covers l p.2 := by
  rintro ⟨q, hq, hle, hlt⟩
  rcases eq_or_ne p q with rfl | hne
  · exact lt_irrefl _ hlt
  · rcases h.apart_of_mem hp hq hne with hapart | hapart
    · exact (hapart.trans_le hle).false
    · exact ((h.nonempty p hp).trans hlt |>.trans hapart).false

/-- The ranges of a canonical list are the maximal ranges of the set it covers. -/
theorem mem_iff_maximal (h : Canonical l) : p ∈ l ↔ Maximal (Covers l) p.1 p.2 := by
  constructor
  · intro hp
    refine ⟨h.nonempty p hp, fun s hlo hhi ↦ ⟨p, hp, hlo, hhi⟩, fun lo hi hlo hhi hsub ↦ ⟨?_, ?_⟩⟩
    · by_contra hne
      have hlt : lo < p.1 := lt_of_le_of_ne hlo hne
      have hlt' : p.1 < hi := (h.nonempty p hp).trans_le hhi
      obtain ⟨q, hq, hle, hend⟩ := hsub lo le_rfl (hlt.trans hlt')
      have hqp : p ≠ q := by
        rintro rfl
        exact (hlt.trans_le hle).false
      rcases h.apart_of_mem hp hq hqp with hapart | hapart
      · exact ((h.nonempty p hp).trans (hapart.trans_le hle) |>.trans hlt).false
      · exact h.not_covers_end_of_mem hq (hsub q.2 hend.le (hapart.trans hlt'))
    · by_contra hne
      have hlt : p.2 < hi := lt_of_le_of_ne hhi (Ne.symm hne)
      exact h.not_covers_end_of_mem hp (hsub p.2 (hlo.trans (h.nonempty p hp).le) hlt)
  · rintro ⟨hlt, hsub, hmax⟩
    obtain ⟨q, hq, hlo, hhi⟩ := hsub p.1 le_rfl hlt
    have hend : p.2 ≤ q.2 := by
      by_contra hout
      exact h.not_covers_end_of_mem hq (hsub q.2 hhi.le (lt_of_not_ge hout))
    obtain ⟨h₁, h₂⟩ := hmax q.1 q.2 hlo hend fun s hs hs' ↦ ⟨q, hq, hs, hs'⟩
    exact Prod.ext h₁ h₂ ▸ hq

end Canonical

end Ranges
