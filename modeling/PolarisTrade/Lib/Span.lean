import Mathlib

/-!
# Half-open spans that are kept apart

Spans of a linear order, each with a tag.  A list of spans no two of which touch covers an
interval exactly when one of its spans does.  Absorbing every span that touches an interval,
widening the interval on the way, keeps the rest apart from it and from each other: one pass
through the list is enough, since what touches the widened interval has touched it before.
-/

/-- `[lo, hi)` with a tag. -/
structure Span (α τ : Type*) where
  lo : α
  hi : α
  tag : τ
  deriving DecidableEq

namespace Span

variable {α τ : Type*} [LinearOrder α]

def Has (r : Span α τ) (x : α) : Prop := r.lo ≤ x ∧ x < r.hi

instance (r : Span α τ) (x : α) : Decidable (r.Has x) :=
  inferInstanceAs (Decidable (_ ∧ _))

/-- Something lies between the two: they neither meet nor follow each other. -/
def Apart (p q : Span α τ) : Prop := p.hi < q.lo ∨ q.hi < p.lo

instance (p q : Span α τ) : Decidable (p.Apart q) := inferInstanceAs (Decidable (_ ∨ _))

instance : Std.Symm (@Apart α τ _) := ⟨fun _ _ h ↦ Or.symm h⟩

/-- Spans that are apart cover an interval only one at a time. -/
theorem exists_covering {l : List (Span α τ)} (hapart : l.Pairwise Apart) {a b : α} (hab : a < b)
    (hcover : ∀ x, a ≤ x → x < b → ∃ r ∈ l, r.Has x) : ∃ r ∈ l, r.lo ≤ a ∧ b ≤ r.hi := by
  obtain ⟨r, hr, hlo, hlt⟩ := hcover a le_rfl hab
  refine ⟨r, hr, hlo, ?_⟩
  by_contra hshort
  -- the end of this span lies in another one, which then touches it
  obtain ⟨q, hq, hqlo, hqhi⟩ := hcover r.hi hlt.le (lt_of_not_ge hshort)
  have hne : r ≠ q := by
    rintro rfl
    exact lt_irrefl _ hqhi
  rcases hapart.forall hr hq hne with h | h
  · exact absurd hqlo (not_le_of_gt h)
  · exact absurd (h.trans_le hlo) (not_lt_of_ge (hlt.trans hqhi).le)

/-- The spans of `l` that `[a, b)` does not touch, in order, and `[a, b)` widened by the
others, each met with what was widened before it. -/
def absorb : List (Span α τ) → α → α → List (Span α τ) × α × α
  | [], a, b => ([], a, b)
  | r :: l, a, b =>
      if b < r.lo ∨ r.hi < a then (r :: (absorb l a b).1, (absorb l a b).2)
      else absorb l (min a r.lo) (max b r.hi)

theorem absorb_cons_of_apart {r : Span α τ} {l : List (Span α τ)} {a b : α}
    (h : b < r.lo ∨ r.hi < a) : absorb (r :: l) a b = (r :: (absorb l a b).1, (absorb l a b).2) :=
  if_pos h

theorem absorb_cons_of_touch {r : Span α τ} {l : List (Span α τ)} {a b : α}
    (h : ¬ (b < r.lo ∨ r.hi < a)) : absorb (r :: l) a b = absorb l (min a r.lo) (max b r.hi) :=
  if_neg h

theorem absorb_sublist (l : List (Span α τ)) (a b : α) : (absorb l a b).1.Sublist l := by
  induction l generalizing a b with
  | nil => exact List.Sublist.refl []
  | cons r l ih =>
      by_cases h : b < r.lo ∨ r.hi < a
      · rw [absorb_cons_of_apart h]
        exact (ih a b).cons_cons r
      · rw [absorb_cons_of_touch h]
        exact (ih _ _).cons r

theorem absorb_widens (l : List (Span α τ)) (a b : α) :
    (absorb l a b).2.1 ≤ a ∧ b ≤ (absorb l a b).2.2 := by
  induction l generalizing a b with
  | nil => exact ⟨le_rfl, le_rfl⟩
  | cons r l ih =>
      by_cases h : b < r.lo ∨ r.hi < a
      · rw [absorb_cons_of_apart h]
        exact ih a b
      · rw [absorb_cons_of_touch h]
        exact ⟨(ih _ _).1.trans (min_le_left _ _), (le_max_left _ _).trans (ih _ _).2⟩

/-- The interval is widened no further than the spans reach. -/
theorem absorb_hi_le {l : List (Span α τ)} {a b c : α} (hl : ∀ r ∈ l, r.hi ≤ c) (hb : b ≤ c) :
    (absorb l a b).2.2 ≤ c := by
  induction l generalizing a b with
  | nil => exact hb
  | cons r l ih =>
      rw [List.forall_mem_cons] at hl
      by_cases h : b < r.lo ∨ r.hi < a
      · rw [absorb_cons_of_apart h]
        exact ih hl.2 hb
      · rw [absorb_cons_of_touch h]
        exact ih hl.2 (max_le hb hl.1)

/-- What is not kept lies in the widened interval. -/
theorem absorb_removed {l : List (Span α τ)} {p : Span α τ} (hp : p ∈ l) (a b : α) :
    p ∈ (absorb l a b).1 ∨ (absorb l a b).2.1 ≤ p.lo ∧ p.hi ≤ (absorb l a b).2.2 := by
  induction l generalizing a b with
  | nil => cases hp
  | cons r l ih =>
      by_cases h : b < r.lo ∨ r.hi < a
      · rw [absorb_cons_of_apart h]
        rcases List.mem_cons.mp hp with rfl | hp
        · exact Or.inl List.mem_cons_self
        · exact (ih hp a b).imp_left (List.mem_cons_of_mem r)
      · rw [absorb_cons_of_touch h]
        rcases List.mem_cons.mp hp with rfl | hp
        · obtain ⟨hlo, hhi⟩ := absorb_widens l (min a p.lo) (max b p.hi)
          exact Or.inr ⟨hlo.trans (min_le_right _ _), (le_max_right _ _).trans hhi⟩
        · exact ih hp _ _

/-- A span that is apart from an interval and from one that touches it is apart from both
together. -/
theorem apart_widened {p r : Span α τ} {a b : α} (hordered : p.lo ≤ p.hi)
    (hp : b < p.lo ∨ p.hi < a) (hpr : p.Apart r) (hr : ¬ (b < r.lo ∨ r.hi < a)) :
    max b r.hi < p.lo ∨ p.hi < min a r.lo := by
  push Not at hr
  rcases hp with hp | hp
  · rcases hpr with h | h
    · exact absurd (hp.trans_le (hordered.trans h.le)) (not_lt_of_ge hr.1)
    · exact Or.inl (max_lt hp h)
  · rcases hpr with h | h
    · exact Or.inr (lt_min hp h)
    · exact absurd ((h.trans_le hordered).trans hp) (not_lt_of_ge hr.2)

/-- A span apart from the rest of the list and from the interval stays apart from it. -/
theorem absorb_apart {l : List (Span α τ)} {p : Span α τ} (hordered : p.lo ≤ p.hi)
    (hl : ∀ r ∈ l, p.Apart r) {a b : α} (hp : b < p.lo ∨ p.hi < a) :
    (absorb l a b).2.2 < p.lo ∨ p.hi < (absorb l a b).2.1 := by
  induction l generalizing a b with
  | nil => exact hp
  | cons r l ih =>
      rw [List.forall_mem_cons] at hl
      by_cases h : b < r.lo ∨ r.hi < a
      · rw [absorb_cons_of_apart h]
        exact ih hl.2 hp
      · rw [absorb_cons_of_touch h]
        exact ih hl.2 (apart_widened hordered hp hl.1 h)

/-- What is kept is apart from the widened interval. -/
theorem absorb_kept {l : List (Span α τ)} (hapart : l.Pairwise Apart)
    (hordered : ∀ r ∈ l, r.lo ≤ r.hi) {p : Span α τ} {a b : α} (hp : p ∈ (absorb l a b).1) :
    (absorb l a b).2.2 < p.lo ∨ p.hi < (absorb l a b).2.1 := by
  induction l generalizing a b with
  | nil => cases hp
  | cons r l ih =>
      rw [List.pairwise_cons] at hapart
      rw [List.forall_mem_cons] at hordered
      by_cases h : b < r.lo ∨ r.hi < a
      · rw [absorb_cons_of_apart h] at hp ⊢
        rcases List.mem_cons.mp hp with rfl | hp
        · exact absorb_apart hordered.1 hapart.1 h
        · exact ih hapart.2 hordered.2 hp
      · rw [absorb_cons_of_touch h] at hp ⊢
        exact ih hapart.2 hordered.2 hp

/-- Every point of the widened interval comes from `[a, b)` or from a span that touches
it. -/
theorem absorb_covers {l : List (Span α τ)} (hapart : l.Pairwise Apart)
    (hordered : ∀ r ∈ l, r.lo ≤ r.hi) {a b x : α} (hlo : (absorb l a b).2.1 ≤ x)
    (hhi : x < (absorb l a b).2.2) :
    (a ≤ x ∧ x < b) ∨ ∃ p ∈ l, p.Has x ∧ ¬ (b < p.lo ∨ p.hi < a) := by
  induction l generalizing a b with
  | nil => exact Or.inl ⟨hlo, hhi⟩
  | cons r l ih =>
      rw [List.pairwise_cons] at hapart
      rw [List.forall_mem_cons] at hordered
      by_cases h : b < r.lo ∨ r.hi < a
      · rw [absorb_cons_of_apart h] at hlo hhi
        rcases ih hapart.2 hordered.2 hlo hhi with hx | ⟨p, hp, hx, htouch⟩
        · exact Or.inl hx
        · exact Or.inr ⟨p, List.mem_cons_of_mem r hp, hx, htouch⟩
      · rw [absorb_cons_of_touch h] at hlo hhi
        rcases ih hapart.2 hordered.2 hlo hhi with ⟨hmin, hmax⟩ | ⟨p, hp, hx, htouch⟩
        · -- between the two there is no room
          have hr := h
          push Not at hr
          rcases lt_or_ge x a with hxa | hax
          · have hrlo : r.lo ≤ x := (min_le_iff.mp hmin).resolve_left (not_le_of_gt hxa)
            exact Or.inr ⟨r, List.mem_cons_self, ⟨hrlo, hxa.trans_le hr.2⟩, h⟩
          · rcases lt_or_ge x b with hxb | hbx
            · exact Or.inl ⟨hax, hxb⟩
            · have hrhi : x < r.hi := (lt_max_iff.mp hmax).resolve_left (not_lt_of_ge hbx)
              exact Or.inr ⟨r, List.mem_cons_self, ⟨hr.1.trans hbx, hrhi⟩, h⟩
        · refine Or.inr ⟨p, List.mem_cons_of_mem r hp, hx, fun hapart' ↦ htouch ?_⟩
          exact apart_widened (hordered.2 p hp) hapart' (Or.symm (hapart.1 p hp)) h

end Span
