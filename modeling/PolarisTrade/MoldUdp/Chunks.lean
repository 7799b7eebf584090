import PolarisTrade.MoldUdp.Emitter
import PolarisTrade.MoldUdp.GapSet

/-!
# Requests for the missing sequences

`pending_gaps_into` cuts every tracked range into requests of at most 65535 sequences.  The
requests cover the missing sequences, each of them once and in order, and only the last request
of a range is not a full one.
-/

namespace MoldUdp

open Word

namespace GapRequestHandler

/-- The handlers that calls on an empty one lead to. -/
inductive Reachable : GapRequestHandler → Prop
  | new : Reachable .new
  | recordMissingRange {g : GapRequestHandler} (h : Reachable g) (start endExclusive : UInt64) :
      Reachable (g.recordMissingRange start.toNat endExclusive.toNat)
  | recordGap {g : GapRequestHandler} (h : Reachable g) (seq : UInt64) :
      Reachable (g.recordGap seq.toNat)
  | markReceived {g : GapRequestHandler} (h : Reachable g) (seq : UInt64) :
      Reachable (g.markReceived seq.toNat)

theorem Reachable.wellFormed {g : GapRequestHandler} (h : g.Reachable) : g.WellFormed := by
  induction h with
  | new => exact wellFormed_new
  | recordMissingRange _ start endExclusive ih =>
      exact (recordMissingRange_spec ih endExclusive.toNat_lt).1
  | recordGap _ seq ih => exact (recordMissingRange_spec ih (wrappingAdd_lt seq.toNat 1)).1
  | markReceived _ seq ih => exact (markReceived_spec ih seq.toNat).1

end GapRequestHandler

/-! ## The loop -/

/-- The inner loop of `pending_gaps_into`; `none` when `fuel` rounds do not reach the end. -/
def pushChunks : ℕ → ℕ → ℕ → List GapRequest → Option (List GapRequest)
  | fuel, cur, stop, out =>
      if cur < stop then
        match fuel with
        | 0 => none
        | fuel + 1 =>
            let count := min (stop - cur) 65535
            pushChunks fuel (wrappingAdd cur count) stop
              (out ++ [⟨UInt64.ofNat cur, UInt16.ofNat count⟩])
      else some out

/-- What is in the buffer is cleared first. -/
def GapRequestHandler.pendingGapsInto (g : GapRequestHandler) (fuel : ℕ) (_out : List GapRequest) :
    Option (List GapRequest) :=
  g.gaps.entries.foldlM (fun out p ↦ pushChunks fuel p.1 p.2 out) []

/-- With a round for every sequence of the range the loop ends. -/
theorem pushChunks_eq {fuel cur stop : ℕ} (hfuel : stop - cur ≤ fuel) (hstop : stop < 2 ^ 64)
    (out : List GapRequest) :
    pushChunks fuel cur stop out = some (out ++ chunks fuel cur stop) := by
  induction fuel generalizing cur out with
  | zero =>
      rw [pushChunks, if_neg (by omega), chunks, List.append_nil]
  | succ fuel ih =>
      rw [pushChunks, chunks]
      by_cases hlt : cur < stop
      · rw [if_pos hlt, if_pos hlt]
        dsimp only
        rw [wrappingAdd_of_lt (by omega), ih (by omega), List.append_assoc, List.singleton_append]
      · rw [if_neg hlt, if_neg hlt, List.append_nil]

/-! ## One range -/

/-- Full requests from `lo` on and a last one that reaches `hi`. -/
def splitRange (lo hi : ℕ) : List GapRequest :=
  (List.range ((hi - lo - 1) / 65535)).map
      (fun i ↦ ⟨UInt64.ofNat (lo + i * 65535), UInt16.ofNat 65535⟩) ++
    [⟨UInt64.ofNat (lo + (hi - lo - 1) / 65535 * 65535),
      UInt16.ofNat ((hi - lo - 1) % 65535 + 1)⟩]

theorem splitRange_of_le {lo hi : ℕ} (hlt : lo < hi) (hle : hi - lo ≤ 65535) :
    splitRange lo hi = [⟨UInt64.ofNat lo, UInt16.ofNat (hi - lo)⟩] := by
  have hdiv : (hi - lo - 1) / 65535 = 0 := by omega
  have hmod : (hi - lo - 1) % 65535 + 1 = hi - lo := by omega
  rw [splitRange, hdiv, hmod, List.range_zero, List.map_nil, List.nil_append, Nat.zero_mul,
    Nat.add_zero]

/-- A longer range starts with a full request. -/
theorem splitRange_of_lt {lo hi : ℕ} (hlt : 65535 < hi - lo) :
    splitRange lo hi =
      ⟨UInt64.ofNat lo, UInt16.ofNat 65535⟩ :: splitRange (lo + 65535) hi := by
  have hdiv : (hi - lo - 1) / 65535 = (hi - (lo + 65535) - 1) / 65535 + 1 := by omega
  have hmod : (hi - lo - 1) % 65535 = (hi - (lo + 65535) - 1) % 65535 := by omega
  have hstart : ∀ i, lo + (i + 1) * 65535 = lo + 65535 + i * 65535 := fun i ↦ by ring
  rw [splitRange, hdiv, hmod, List.range_succ_eq_map, List.map_cons, List.map_map, hstart,
    List.cons_append, Nat.zero_mul, Nat.add_zero, splitRange]
  congr 3
  funext i
  rw [Function.comp_apply, Nat.succ_eq_add_one, hstart]

theorem chunks_eq_splitRange {fuel lo hi : ℕ} (hlt : lo < hi) (hfuel : hi - lo ≤ fuel) :
    chunks fuel lo hi = splitRange lo hi := by
  induction fuel generalizing lo with
  | zero => omega
  | succ fuel ih =>
      rw [chunks, if_pos hlt]
      dsimp only
      by_cases hle : hi - lo ≤ 65535
      · have hend : chunks fuel (lo + (hi - lo)) hi = [] := by
          cases fuel with
          | zero => rfl
          | succ fuel => rw [chunks, if_neg (by omega)]
        rw [min_eq_left hle, hend, splitRange_of_le hlt hle]
      · rw [min_eq_right (by omega), ih (by omega) (by omega),
          @splitRange_of_lt lo hi (by omega)]

/-- The first request is over before the second starts. -/
def GapRequest.Before (a b : GapRequest) : Prop :=
  a.startSeq.toNat + a.count.toNat ≤ b.startSeq.toNat

/-- The requests of one range follow each other inside it. -/
theorem splitRange_spec {lo hi : ℕ} (hlt : lo < hi) (hhi : hi < 2 ^ 64) :
    (splitRange lo hi).Pairwise GapRequest.Before ∧
      ∀ gap ∈ splitRange lo hi, lo ≤ gap.startSeq.toNat ∧
        gap.startSeq.toNat + gap.count.toNat ≤ hi := by
  -- the first and the last sequence of a request are covered, so they lie in the range
  have hinside : ∀ fuel cur, hi - cur ≤ fuel → ∀ gap ∈ chunks fuel cur hi,
      cur ≤ gap.startSeq.toNat ∧ gap.startSeq.toNat + gap.count.toNat ≤ hi := by
    intro fuel cur hfuel gap hgap
    obtain ⟨hfits, hiff⟩ := chunks_spec hfuel hhi
    have hpos := (hfits gap hgap).2
    have hfirst := (hiff gap.startSeq.toNat).mp ⟨gap, hgap, le_rfl, by omega⟩
    have hlast := (hiff (gap.startSeq.toNat + gap.count.toNat - 1)).mp
      ⟨gap, hgap, by omega, by omega⟩
    omega
  have hbefore : ∀ fuel cur, hi - cur ≤ fuel → (chunks fuel cur hi).Pairwise GapRequest.Before := by
    intro fuel
    induction fuel with
    | zero => exact fun cur _ ↦ List.Pairwise.nil
    | succ fuel ih =>
        intro cur hfuel
        unfold chunks
        split
        · dsimp only
          have hcur : (UInt64.ofNat cur).toNat = cur :=
            UInt64.toNat_ofNat_of_lt' (show cur < 2 ^ 64 by omega)
          have hcount : (UInt16.ofNat (min (hi - cur) 65535)).toNat = min (hi - cur) 65535 :=
            UInt16.toNat_ofNat_of_lt' (show _ < 2 ^ 16 by omega)
          refine List.pairwise_cons.mpr ⟨fun gap hgap ↦ ?_, ih _ (by omega)⟩
          have hle := (hinside fuel _ (by omega) gap hgap).1
          unfold GapRequest.Before
          rw [hcur, hcount]
          exact hle
        · exact List.Pairwise.nil
  rw [← chunks_eq_splitRange hlt le_rfl]
  exact ⟨hbefore _ _ le_rfl, hinside _ _ le_rfl⟩

/-! ## All ranges -/

namespace GapRequestHandler

variable {g : GapRequestHandler}

theorem WellFormed.pendingGapsInto_eq (hg : g.WellFormed) {fuel : ℕ} (hfuel : 2 ^ 64 ≤ fuel)
    (out : List GapRequest) :
    g.pendingGapsInto fuel out =
      some (g.gaps.entries.flatMap fun p ↦ splitRange p.1 p.2) := by
  have hfold : ∀ (entries : List (ℕ × ℕ)) (out : List GapRequest),
      (∀ p ∈ entries, p.1 < p.2 ∧ p.2 < 2 ^ 64) →
      entries.foldlM (fun out p ↦ pushChunks fuel p.1 p.2 out) out =
        some (out ++ entries.flatMap fun p ↦ splitRange p.1 p.2) := by
    intro entries
    induction entries with
    | nil => exact fun out _ ↦ congrArg some (List.append_nil out).symm
    | cons p entries ih =>
        intro out hentries
        obtain ⟨⟨hlt, hhi⟩, hrest⟩ := List.forall_mem_cons.mp hentries
        rw [List.foldlM_cons, pushChunks_eq (by omega) hhi,
          chunks_eq_splitRange hlt (by omega), Option.bind_eq_bind, Option.bind_some,
          ih _ hrest, List.flatMap_cons, List.append_assoc]
  exact hfold _ [] fun p hp ↦ ⟨hg.nonempty p hp, hg.bounded p hp⟩

theorem WellFormed.pendingGaps_eq (hg : g.WellFormed) :
    g.pendingGaps = g.gaps.entries.flatMap fun p ↦ splitRange p.1 p.2 :=
  List.flatMap_congr fun p hp ↦ chunks_eq_splitRange (hg.nonempty p hp) le_rfl

/-- The requests of a later range start behind those of an earlier one. -/
theorem WellFormed.pairwise_before (hg : g.WellFormed) :
    g.pendingGaps.Pairwise GapRequest.Before := by
  have hspec := fun p hp ↦ splitRange_spec (hg.nonempty p hp) (hg.bounded p hp)
  rw [hg.pendingGaps_eq, List.pairwise_flatMap]
  refine ⟨fun p hp ↦ (hspec p hp).1, ?_⟩
  apply hg.canonical.apart.imp_of_mem
  intro p q hp hq hlt a ha b hb
  have hend := ((hspec p hp).2 a ha).2
  have hstart := ((hspec q hq).2 b hb).1
  unfold GapRequest.Before
  omega

end GapRequestHandler

/-- The requests cover the missing sequences exactly.  From any reachable handler and whatever
the buffer held, `pending_gaps_into` ends; its requests are in order and disjoint, hold between
1 and 65535 sequences each, and cover what is tracked.  A maximal missing range is cut into full
requests and a last one. -/
theorem pending_gaps_exact {g : GapRequestHandler} (hg : g.Reachable) (out : List GapRequest) :
    ∃ gaps, (∀ fuel, 2 ^ 64 ≤ fuel → g.pendingGapsInto fuel out = some gaps) ∧
      gaps.Pairwise (fun a b ↦ a.startSeq < b.startSeq ∧ ∀ s, ¬ (a.Has s ∧ b.Has s)) ∧
      (∀ gap ∈ gaps, 1 ≤ gap.count.toNat ∧ gap.count.toNat ≤ 65535 ∧
        gap.startSeq.toNat + gap.count.toNat ≤ max64) ∧
      (∀ s, (∃ gap ∈ gaps, gap.Has s) ↔ g.Tracks s) ∧
      ∃ ranges : List (ℕ × ℕ), ranges.Pairwise (fun p q ↦ p.2 < q.1) ∧
        (∀ lo hi, (lo, hi) ∈ ranges ↔ Ranges.Maximal g.Tracks lo hi) ∧
        gaps = ranges.flatMap fun p ↦ splitRange p.1 p.2 := by
  have hwf := hg.wellFormed
  obtain ⟨hfits, hiff⟩ := pendingGaps_spec hwf
  refine ⟨g.pendingGaps, fun fuel hfuel ↦ ?_, ?_, fun gap hgap ↦ ?_, hiff, g.gaps.entries,
    hwf.canonical.apart, fun lo hi ↦ hwf.canonical.mem_iff_maximal, hwf.pendingGaps_eq⟩
  · rw [hwf.pendingGaps_eq]
    exact hwf.pendingGapsInto_eq hfuel out
  · refine hwf.pairwise_before.imp_of_mem fun {a b} ha hb hbefore ↦ ?_
    have hpos := (hfits a ha).2
    unfold GapRequest.Before at hbefore
    refine ⟨UInt64.lt_iff_toNat_lt.mpr (by omega), fun s ⟨hs, hs'⟩ ↦ ?_⟩
    unfold GapRequest.Has at hs hs'
    omega
  · obtain ⟨hfit, hpos⟩ := hfits gap hgap
    have hcount := gap.count.toNat_lt
    unfold GapRequest.Fits at hfit
    rw [max64]
    omega

/-- With 1 to 70000 missing, some request of at most 65535 sequences asks for the last one,
whatever was in the buffer. -/
theorem pending_gaps_exact_long :
    ∃ gaps, (∀ fuel, 2 ^ 64 ≤ fuel →
        (GapRequestHandler.new.recordMissingRange 1 70001).pendingGapsInto fuel [⟨9, 9⟩] =
          some gaps) ∧
      ∃ gap ∈ gaps, gap.Has 70000 ∧ gap.count.toNat ≤ 65535 := by
  obtain ⟨gaps, hgaps, -, hcount, hcovers, -⟩ :=
    pending_gaps_exact (.recordMissingRange .new 1 70001) [⟨9, 9⟩]
  obtain ⟨gap, hgap, hhas⟩ := (hcovers 70000).mpr (by decide +kernel)
  exact ⟨gaps, hgaps, gap, hgap, hhas, (hcount gap hgap).2.1⟩

end MoldUdp
