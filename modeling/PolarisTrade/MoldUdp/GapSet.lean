import PolarisTrade.Lib.Ranges
import PolarisTrade.MoldUdp.Gap

/-!
# The gap handler as a set of sequences

What a caller means by the handler: the set of missing sequences, to which recording adds a
range and from which receiving removes a sequence.  The stored map is the canonical form of
that set after any calls, so it depends on the set alone and not on the order of the calls
that led to it.
-/

namespace MoldUdp

open Word

/-- One call on the handler; `record_gap` of the last word has no successor to end at. -/
inductive GapCall where
  | recordMissingRange (start endExclusive : UInt64)
  | recordGap (seq : UInt64) (h : seq.toNat < max64)
  | markReceived (seq : UInt64)

namespace GapCall

def apply : GapRequestHandler → GapCall → GapRequestHandler
  | g, recordMissingRange start endExclusive =>
      g.recordMissingRange start.toNat endExclusive.toNat
  | g, recordGap seq _ => g.recordGap seq.toNat
  | g, markReceived seq => g.markReceived seq.toNat

/-- The missing sequences after a call, given those before it. -/
def missing : Set ℕ → GapCall → Set ℕ
  | s, recordMissingRange start endExclusive => s ∪ Set.Ico start.toNat endExclusive.toNat
  | s, recordGap seq _ => s ∪ {seq.toNat}
  | s, markReceived seq => s \ {seq.toNat}

/-- Marks remove the sequences they name, in whatever order. -/
theorem foldl_missing_markReceived (s : Set ℕ) (marks : List UInt64) :
    (marks.map markReceived).foldl missing s = s \ { n | n ∈ marks.map UInt64.toNat } := by
  induction marks generalizing s with
  | nil => simp
  | cons mark marks ih =>
      rw [List.map_cons, List.foldl_cons, ih]
      refine Set.ext fun n ↦ ?_
      change (n ∈ s ∧ n ≠ mark.toNat) ∧ n ∉ marks.map UInt64.toNat ↔
        n ∈ s ∧ n ∉ (mark :: marks).map UInt64.toNat
      rw [List.map_cons, List.mem_cons, not_or, and_assoc]

end GapCall

namespace GapRequestHandler

variable {g g' : GapRequestHandler}

/-- The sequences the stored ranges denote. -/
def tracked (g : GapRequestHandler) : Set ℕ := { s | g.Tracks s }

theorem WellFormed.canonical (h : g.WellFormed) : Ranges.Canonical g.gaps.entries :=
  ⟨h.nonempty, g.gaps.sorted.imp_of_mem fun hp hq hlt ↦ h.apart _ hp _ hq hlt⟩

/-- Handlers that denote the same set are the same. -/
theorem WellFormed.eq_of_tracked (h : g.WellFormed) (h' : g'.WellFormed)
    (heq : g.tracked = g'.tracked) : g = g' := by
  have hentries : g.gaps.entries = g'.gaps.entries :=
    h.canonical.eq_of_covers h'.canonical fun s ↦ Set.ext_iff.mp heq s
  obtain ⟨⟨entries, sorted⟩⟩ := g
  obtain ⟨⟨entries', sorted'⟩⟩ := g'
  cases hentries
  rfl

/-- A call keeps the map canonical and changes the denoted set as it should. -/
theorem WellFormed.apply (h : g.WellFormed) (call : GapCall) :
    (call.apply g).WellFormed ∧ (call.apply g).tracked = call.missing g.tracked := by
  cases call with
  | recordMissingRange start endExclusive =>
      obtain ⟨hwf, hiff⟩ := @recordMissingRange_spec g h start.toNat _ endExclusive.toNat_lt
      exact ⟨hwf, Set.ext hiff⟩
  | recordGap seq hseq =>
      rw [max64] at hseq
      obtain ⟨hwf, hiff⟩ := @recordGap_spec g h seq.toNat (by omega)
      exact ⟨hwf, Set.ext hiff⟩
  | markReceived seq =>
      obtain ⟨hwf, hiff⟩ := markReceived_spec h seq.toNat
      exact ⟨hwf, Set.ext hiff⟩

theorem WellFormed.foldl_apply (h : g.WellFormed) (calls : List GapCall) :
    (calls.foldl GapCall.apply g).WellFormed ∧
      (calls.foldl GapCall.apply g).tracked = calls.foldl GapCall.missing g.tracked := by
  induction calls generalizing g with
  | nil => exact ⟨h, rfl⟩
  | cons call calls ih =>
      obtain ⟨hwf, hset⟩ := h.apply call
      rw [List.foldl_cons, List.foldl_cons, ← hset]
      exact ih hwf

theorem tracked_new : new.tracked = ∅ :=
  Set.eq_empty_of_forall_notMem not_tracks_new

/-- Something is pending when the denoted set is not empty. -/
theorem WellFormed.hasPending_iff (h : g.WellFormed) :
    g.hasPending = true ↔ g.tracked.Nonempty := by
  unfold hasPending
  constructor
  · intro hpending
    obtain ⟨p, hp⟩ := List.exists_mem_of_ne_nil g.gaps.entries (by simpa using hpending)
    exact ⟨p.1, p, hp, le_rfl, h.nonempty p hp⟩
  · rintro ⟨s, p, hp, -⟩
    simpa using List.ne_nil_of_mem hp

end GapRequestHandler

/-- After any calls on an empty handler the map is the canonical form of the set got by
union and removal; pending means that set is not empty, and marking sequences received
gives the same map in any order. -/
theorem gap_map_denotes (calls : List GapCall) :
    Ranges.Canonical (calls.foldl GapCall.apply .new).gaps.entries ∧
      (∀ s, (calls.foldl GapCall.apply .new).Tracks s ↔ s ∈ calls.foldl GapCall.missing ∅) ∧
      ((calls.foldl GapCall.apply .new).hasPending = true ↔
        (calls.foldl GapCall.missing ∅).Nonempty) ∧
      ∀ marks marks' : List UInt64, marks.Perm marks' →
        (marks.map GapCall.markReceived).foldl GapCall.apply (calls.foldl GapCall.apply .new) =
          (marks'.map GapCall.markReceived).foldl GapCall.apply
            (calls.foldl GapCall.apply .new) := by
  obtain ⟨hwf, hset⟩ := GapRequestHandler.wellFormed_new.foldl_apply calls
  rw [GapRequestHandler.tracked_new] at hset
  refine ⟨hwf.canonical, fun s ↦ Set.ext_iff.mp hset s, hset ▸ hwf.hasPending_iff,
    fun marks marks' hperm ↦ ?_⟩
  obtain ⟨hwf₁, hset₁⟩ := hwf.foldl_apply (marks.map .markReceived)
  obtain ⟨hwf₂, hset₂⟩ := hwf.foldl_apply (marks'.map .markReceived)
  refine hwf₁.eq_of_tracked hwf₂ ?_
  rw [hset₁, hset₂, GapCall.foldl_missing_markReceived, GapCall.foldl_missing_markReceived]
  simp only [(hperm.map UInt64.toNat).mem_iff]

theorem gap_map_denotes_swapped :
    ([1, 3] : List UInt64).Perm [3, 1] ∧
      (([1, 3] : List UInt64).map GapCall.markReceived).foldl GapCall.apply
          ([GapCall.recordMissingRange 1 5].foldl GapCall.apply .new) =
        (([3, 1] : List UInt64).map GapCall.markReceived).foldl GapCall.apply
          ([GapCall.recordMissingRange 1 5].foldl GapCall.apply .new) := by
  have hperm : ([1, 3] : List UInt64).Perm [3, 1] := by decide
  exact ⟨hperm, (gap_map_denotes [.recordMissingRange 1 5]).2.2.2 _ _ hperm⟩

end MoldUdp
