import Mathlib

/-!
# Scripts

An environment that answers each call with the next entry of a list, and with a fixed answer
once the list is used up.  The answers given so far are kept, oldest first.
-/

/-- Answers to come and answers given. -/
structure Script (α : Type*) where
  coming : List α
  given : List α

namespace Script

variable {α : Type*} {s : Script α} {a rest : α}

/-- The next answer; `rest` when the script is over. -/
def next (s : Script α) (rest : α) : α × Script α :=
  match s.coming with
  | [] => (rest, { s with given := s.given ++ [rest] })
  | a :: coming => (a, ⟨coming, s.given ++ [a]⟩)

theorem given_next (s : Script α) (rest : α) :
    (s.next rest).2.given = s.given ++ [(s.next rest).1] := by
  unfold next
  split <;> rfl

theorem mem_coming_of_next (h : a ∈ (s.next rest).2.coming) : a ∈ s.coming := by
  unfold next at h
  split at h
  · exact h
  · next hcoming =>
      rw [hcoming]
      exact List.mem_cons_of_mem _ h

/-- Any answer but the last resort was in the script, which is shorter afterwards. -/
theorem next_mem (h : (s.next rest).1 ≠ rest) :
    (s.next rest).1 ∈ s.coming ∧ (s.next rest).2.coming.length < s.coming.length := by
  unfold next at h ⊢
  split at h
  · exact (h rfl).elim
  · next hcoming =>
      rw [hcoming]
      exact ⟨List.mem_cons_self, Nat.lt_succ_self _⟩

end Script
