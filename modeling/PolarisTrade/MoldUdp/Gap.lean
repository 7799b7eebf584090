import PolarisTrade.Lib.SortedMap
import PolarisTrade.MoldUdp.Types

/-!
# Tracking missing sequence ranges

`GapRequestHandler` keeps the missing sequences as half-open ranges, start to end.
Recording a range absorbs every stored range it touches; receiving a sequence
cuts it out of the range that covers it.  The stored ranges stay non-empty and
apart from each other, and the set they denote changes by exactly the recorded
range or the received sequence.
-/

namespace MoldUdp

open Word

structure GapRequestHandler where
  gaps : SortedMap ℕ ℕ

namespace GapRequestHandler

def new : GapRequestHandler := ⟨.empty⟩

/-- The loop of `recordMissingRange`: drop every range from `start` on that touches
`[start, stop)`, widening `stop` as it goes.  One range goes per round, so as many
rounds as there are ranges suffice. -/
def absorb : ℕ → SortedMap ℕ ℕ → ℕ → ℕ → SortedMap ℕ ℕ × ℕ
  | 0, gaps, _, stop => (gaps, stop)
  | fuel + 1, gaps, start, stop =>
      match gaps.firstFrom start with
      | none => (gaps, stop)
      | some (nextStart, nextEnd) =>
          if stop < nextStart then (gaps, stop)
          else absorb fuel (gaps.erase nextStart) start (max stop nextEnd)

/-- Range the predecessor of `start` extends `[start, stop)` to. -/
def extendLeft (gaps : SortedMap ℕ ℕ) (start stop : ℕ) : ℕ × ℕ :=
  match gaps.lastBelow start with
  | some (prevStart, prevEnd) =>
      if start ≤ prevEnd then (prevStart, max stop prevEnd) else (start, stop)
  | none => (start, stop)

def recordMissingRange (g : GapRequestHandler) (start endExclusive : ℕ) : GapRequestHandler :=
  if endExclusive ≤ start then g
  else
    let (start, stop) := extendLeft g.gaps start endExclusive
    let (gaps, stop) := absorb g.gaps.entries.length g.gaps start stop
    ⟨gaps.insert start stop⟩

def recordGap (g : GapRequestHandler) (seq : ℕ) : GapRequestHandler :=
  g.recordMissingRange seq (wrappingAdd seq 1)

def markReceived (g : GapRequestHandler) (seq : ℕ) : GapRequestHandler :=
  match g.gaps.lastUpTo seq with
  | none => g
  | some (start, stop) =>
      if stop ≤ seq then g
      else
        let gaps := g.gaps.erase start
        let gaps := if start < seq then gaps.insert start seq else gaps
        let gaps := if wrappingAdd seq 1 < stop then gaps.insert (wrappingAdd seq 1) stop else gaps
        ⟨gaps⟩

def hasPending (g : GapRequestHandler) : Bool := !g.gaps.entries.isEmpty

/-! ## What the map means -/

/-- `s` lies in a stored range. -/
def Tracks (g : GapRequestHandler) (s : ℕ) : Prop :=
  ∃ p ∈ g.gaps.entries, p.1 ≤ s ∧ s < p.2

instance (g : GapRequestHandler) (s : ℕ) : Decidable (g.Tracks s) :=
  inferInstanceAs (Decidable (∃ p ∈ g.gaps.entries, p.1 ≤ s ∧ s < p.2))

/-- Ranges are non-empty, keep at least one sequence between each other, and fit
64 bits. -/
structure WellFormed (g : GapRequestHandler) : Prop where
  nonempty : ∀ p ∈ g.gaps.entries, p.1 < p.2
  apart : ∀ p ∈ g.gaps.entries, ∀ q ∈ g.gaps.entries, p.1 < q.1 → p.2 < q.1
  bounded : ∀ p ∈ g.gaps.entries, p.2 < 2 ^ 64

@[simp] theorem not_tracks_new (s : ℕ) : ¬ new.Tracks s := by
  simp [new, Tracks]

theorem wellFormed_new : new.WellFormed where
  nonempty := by simp [new]
  apart := by simp [new]
  bounded := by simp [new]

/-! ## Recording -/

/-- Outcome `r` of the loop started on `gaps` with `[start, stop)`: what it removed
lies in the widened range, and nothing it kept from `start` on touches that range. -/
structure Absorbed (gaps : SortedMap ℕ ℕ) (start stop : ℕ) (r : SortedMap ℕ ℕ × ℕ) : Prop where
  sub : ∀ p ∈ r.1.entries, p ∈ gaps.entries
  below : ∀ p ∈ gaps.entries, p.1 < start → p ∈ r.1.entries
  clear : ∀ p ∈ r.1.entries, start ≤ p.1 → r.2 < p.1
  covers : ∀ s, start ≤ s ∧ s < r.2 ↔ (start ≤ s ∧ s < stop) ∨
    ∃ p ∈ gaps.entries, p ∉ r.1.entries ∧ p.1 ≤ s ∧ s < p.2
  bounded : stop < 2 ^ 64 → (∀ p ∈ gaps.entries, p.2 < 2 ^ 64) → r.2 < 2 ^ 64

theorem absorbed_self {gaps : SortedMap ℕ ℕ} {start stop : ℕ}
    (h : ∀ p ∈ gaps.entries, start ≤ p.1 → stop < p.1) :
    Absorbed gaps start stop (gaps, stop) where
  sub _ hp := hp
  below _ hp _ := hp
  clear := h
  covers s := by
    constructor
    · exact Or.inl
    · rintro (hs | ⟨p, hp, hnot, -⟩)
      · exact hs
      · exact (hnot hp).elim
  bounded hstop _ := hstop

/-- One round removes the first range from `start` on and widens up to its end. -/
theorem Absorbed.step {gaps : SortedMap ℕ ℕ} {start stop : ℕ} {p : ℕ × ℕ}
    {r : SortedMap ℕ ℕ × ℕ} (hp : gaps.firstFrom start = some p) (htouch : p.1 ≤ stop)
    (h : Absorbed (gaps.erase p.1) start (max stop p.2) r) : Absorbed gaps start stop r where
  sub q hq := (SortedMap.mem_entries_erase.mp (h.sub q hq)).1
  below q hq hlt := by
    have hpstart := (SortedMap.firstFrom_mem hp).2
    exact h.below q (SortedMap.mem_entries_erase.mpr ⟨hq, by omega⟩) hlt
  clear := h.clear
  covers s := by
    obtain ⟨hpmem, hpstart⟩ := SortedMap.firstFrom_mem hp
    have hpgone : p ∉ r.1.entries := fun hpr ↦
      (SortedMap.mem_entries_erase.mp (h.sub p hpr)).2 rfl
    rw [h.covers s]
    constructor
    · rintro (⟨hs, hlt⟩ | ⟨q, hq, hqr, hqs⟩)
      · rcases lt_max_iff.mp hlt with hlt | hlt
        · exact Or.inl ⟨hs, hlt⟩
        · by_cases hstop : s < stop
          · exact Or.inl ⟨hs, hstop⟩
          · exact Or.inr ⟨p, hpmem, hpgone, by omega, hlt⟩
      · exact Or.inr ⟨q, (SortedMap.mem_entries_erase.mp hq).1, hqr, hqs⟩
    · rintro (⟨hs, hlt⟩ | ⟨q, hq, hqr, hqs⟩)
      · exact Or.inl ⟨hs, lt_max_of_lt_left hlt⟩
      · by_cases hqp : q.1 = p.1
        · obtain rfl := SortedMap.entry_unique hq hpmem hqp
          exact Or.inl ⟨by omega, lt_max_of_lt_right hqs.2⟩
        · exact Or.inr ⟨q, SortedMap.mem_entries_erase.mpr ⟨hq, hqp⟩, hqr, hqs⟩
  bounded hstop hall := by
    refine h.bounded (max_lt hstop (hall p (SortedMap.firstFrom_mem hp).1)) ?_
    exact fun q hq ↦ hall q (SortedMap.mem_entries_erase.mp hq).1

theorem absorb_absorbed {fuel : ℕ} {gaps : SortedMap ℕ ℕ} {start stop : ℕ}
    (hfuel : gaps.entries.length ≤ fuel) :
    Absorbed gaps start stop (absorb fuel gaps start stop) := by
  induction fuel generalizing gaps stop with
  | zero =>
      have hnil : gaps.entries = [] := List.length_eq_zero_iff.mp (Nat.le_zero.mp hfuel)
      exact absorbed_self (by simp [hnil])
  | succ fuel ih =>
      rw [absorb]
      cases hfirst : gaps.firstFrom start with
      | none =>
          refine absorbed_self fun p hp hle ↦ ?_
          have := SortedMap.lt_of_firstFrom_none hfirst hp
          omega
      | some p =>
          simp only
          split
          · next hlt =>
              refine absorbed_self fun q hq hle ↦ ?_
              have := SortedMap.firstFrom_le hfirst hq hle
              omega
          · next hge =>
              refine Absorbed.step hfirst (by omega) (ih ?_)
              have := SortedMap.length_erase_lt (SortedMap.firstFrom_mem hfirst).1
              omega

/-- The leftward extension: everything that starts before the new range also ends
before it, and it grows only over the predecessor. -/
theorem extendLeft_spec {g : GapRequestHandler} (hg : g.WellFormed) {start stop : ℕ}
    (hlt : start < stop) :
    (extendLeft g.gaps start stop).1 ≤ start ∧ start < (extendLeft g.gaps start stop).2 ∧
    (∀ p ∈ g.gaps.entries, p.1 < (extendLeft g.gaps start stop).1 →
      p.2 < (extendLeft g.gaps start stop).1) ∧
    (∀ s, (extendLeft g.gaps start stop).1 ≤ s ∧ s < (extendLeft g.gaps start stop).2 →
      (start ≤ s ∧ s < stop) ∨ g.Tracks s) ∧
    (∀ s, start ≤ s ∧ s < stop → (extendLeft g.gaps start stop).1 ≤ s ∧
      s < (extendLeft g.gaps start stop).2) ∧
    (stop < 2 ^ 64 → (extendLeft g.gaps start stop).2 < 2 ^ 64) := by
  have hkeep (hprev : ∀ p ∈ g.gaps.entries, p.1 < start → p.2 < start) :
      start ≤ start ∧ start < stop ∧ (∀ p ∈ g.gaps.entries, p.1 < start → p.2 < start) ∧
      (∀ s, start ≤ s ∧ s < stop → (start ≤ s ∧ s < stop) ∨ g.Tracks s) ∧
      (∀ s, start ≤ s ∧ s < stop → start ≤ s ∧ s < stop) ∧ (stop < 2 ^ 64 → stop < 2 ^ 64) :=
    ⟨le_rfl, hlt, hprev, fun _ hs ↦ Or.inl hs, fun _ hs ↦ hs, id⟩
  unfold extendLeft
  cases hprev : g.gaps.lastBelow start with
  | none =>
      refine hkeep fun p hp hps ↦ ?_
      have := SortedMap.le_of_lastBelow_none hprev hp
      omega
  | some q =>
      obtain ⟨hq, hqs⟩ := SortedMap.lastBelow_mem hprev
      have hbefore (p : ℕ × ℕ) (hp : p ∈ g.gaps.entries) (hps : p.1 < start) :
          p = q ∨ p.2 < q.1 := by
        rcases (SortedMap.le_lastBelow hprev hp hps).eq_or_lt with heq | hlt'
        · exact Or.inl (SortedMap.entry_unique hp hq heq)
        · exact Or.inr (hg.apart p hp q hq hlt')
      simp only
      split
      · next htouch =>
          refine ⟨hqs.le, lt_max_of_lt_left hlt, ?_, ?_, ?_, ?_⟩
          · intro p hp hpq
            exact hg.apart p hp q hq hpq
          · rintro s ⟨hs, hmax⟩
            by_cases hmid : start ≤ s ∧ s < stop
            · exact Or.inl hmid
            · refine Or.inr ⟨q, hq, hs, ?_⟩
              rcases lt_max_iff.mp hmax with h | h <;> omega
          · rintro s ⟨hs, hstop⟩
            exact ⟨by omega, lt_max_of_lt_left hstop⟩
          · exact fun hstop ↦ max_lt hstop (hg.bounded q hq)
      · next hfar =>
          refine hkeep fun p hp hps ↦ ?_
          rcases hbefore p hp hps with rfl | hpq
          · omega
          · omega

/-- Putting the widened range back: the map is well formed again, and it denotes the
old ranges together with `[lo, hi)`. -/
theorem insert_absorbed {g : GapRequestHandler} (hg : g.WellFormed) {lo hi hi' : ℕ}
    {rest : SortedMap ℕ ℕ} (hlt : lo < hi) (hhi : hi < 2 ^ 64)
    (hbelow : ∀ p ∈ g.gaps.entries, p.1 < lo → p.2 < lo)
    (habs : Absorbed g.gaps lo hi (rest, hi')) :
    WellFormed ⟨rest.insert lo hi'⟩ ∧
      ∀ s, Tracks ⟨rest.insert lo hi'⟩ s ↔ g.Tracks s ∨ (lo ≤ s ∧ s < hi) := by
  obtain ⟨hsub, -, hclear, hcovers, hbounded⟩ := habs
  simp only at hsub hclear hcovers hbounded
  have hlt' : lo < hi' := ((hcovers lo).mpr (Or.inl ⟨le_rfl, hlt⟩)).2
  -- a kept range is either wholly below the new one or wholly above it
  have hsides (p : ℕ × ℕ) (hp : p ∈ rest.entries) : p.2 < lo ∨ hi' < p.1 := by
    rcases Nat.lt_or_ge p.1 lo with hplo | hplo
    · exact Or.inl (hbelow p (hsub p hp) hplo)
    · exact Or.inr (hclear p hp hplo)
  refine ⟨⟨?_, ?_, ?_⟩, ?_⟩
  · intro p hp
    rcases SortedMap.mem_entries_insert.mp hp with rfl | ⟨hp, -⟩
    · exact hlt'
    · exact hg.nonempty p (hsub p hp)
  · intro p hp q hq hpq
    rcases SortedMap.mem_entries_insert.mp hp with rfl | ⟨hp, -⟩
    · rcases SortedMap.mem_entries_insert.mp hq with rfl | ⟨hq, -⟩
      · exact absurd hpq (lt_irrefl _)
      · exact hclear q hq (le_of_lt hpq)
    · rcases SortedMap.mem_entries_insert.mp hq with rfl | ⟨hq, -⟩
      · exact hbelow p (hsub p hp) hpq
      · exact hg.apart p (hsub p hp) q (hsub q hq) hpq
  · intro p hp
    rcases SortedMap.mem_entries_insert.mp hp with rfl | ⟨hp, -⟩
    · exact hbounded hhi hg.bounded
    · exact hg.bounded p (hsub p hp)
  · intro s
    constructor
    · rintro ⟨p, hp, hps⟩
      rcases SortedMap.mem_entries_insert.mp hp with rfl | ⟨hp, -⟩
      · rcases (hcovers s).mp hps with hs | ⟨q, hq, -, hqs⟩
        · exact Or.inr hs
        · exact Or.inl ⟨q, hq, hqs⟩
      · exact Or.inl ⟨p, hsub p hp, hps⟩
    · intro h
      have hnew : lo ≤ s ∧ s < hi' → Tracks ⟨rest.insert lo hi'⟩ s := fun hs ↦
        ⟨(lo, hi'), SortedMap.mem_entries_insert.mpr (Or.inl rfl), hs⟩
      rcases h with ⟨p, hp, hps⟩ | hs
      · by_cases hkept : p ∈ rest.entries
        · refine ⟨p, SortedMap.mem_entries_insert.mpr (Or.inr ⟨hkept, ?_⟩), hps⟩
          intro heq
          have := hg.nonempty p hp
          rcases hsides p hkept with h | h <;> omega
        · exact hnew ((hcovers s).mpr (Or.inr ⟨p, hp, hkept, hps⟩))
      · exact hnew ((hcovers s).mpr (Or.inl hs))

theorem recordMissingRange_spec {g : GapRequestHandler} (hg : g.WellFormed) {start stop : ℕ}
    (hstop : stop < 2 ^ 64) :
    (g.recordMissingRange start stop).WellFormed ∧
      ∀ s, (g.recordMissingRange start stop).Tracks s ↔
        g.Tracks s ∨ (start ≤ s ∧ s < stop) := by
  by_cases hempty : stop ≤ start
  · rw [recordMissingRange, if_pos hempty]
    exact ⟨hg, fun s ↦ ⟨Or.inl, fun h ↦ h.elim id fun hs ↦ by omega⟩⟩
  · obtain ⟨hle, hin, hbelow, hto, hfrom, hbound⟩ := extendLeft_spec hg (Nat.lt_of_not_le hempty)
    have hrec : g.recordMissingRange start stop =
        ⟨(absorb g.gaps.entries.length g.gaps (extendLeft g.gaps start stop).1
            (extendLeft g.gaps start stop).2).1.insert (extendLeft g.gaps start stop).1
          (absorb g.gaps.entries.length g.gaps (extendLeft g.gaps start stop).1
            (extendLeft g.gaps start stop).2).2⟩ := by
      rw [recordMissingRange, if_neg hempty]
    obtain ⟨hwf, hiff⟩ := insert_absorbed hg (hle.trans_lt hin) (hbound hstop) hbelow
      (absorb_absorbed (le_refl g.gaps.entries.length))
    rw [hrec]
    refine ⟨hwf, fun s ↦ (hiff s).trans ⟨?_, ?_⟩⟩
    · rintro (hs | hs)
      · exact Or.inl hs
      · exact (hto s hs).symm
    · rintro (hs | hs)
      · exact Or.inl hs
      · exact Or.inr (hfrom s hs)

theorem recordGap_spec {g : GapRequestHandler} (hg : g.WellFormed) {seq : ℕ}
    (hseq : seq + 1 < 2 ^ 64) :
    (g.recordGap seq).WellFormed ∧
      ∀ s, (g.recordGap seq).Tracks s ↔ g.Tracks s ∨ s = seq := by
  unfold recordGap
  rw [wrappingAdd_of_lt hseq]
  obtain ⟨hwf, hiff⟩ := @recordMissingRange_spec g hg seq _ hseq
  refine ⟨hwf, fun s ↦ (hiff s).trans (or_congr_right ?_)⟩
  omega

theorem foldl_recordGap_spec {g : GapRequestHandler} (hg : g.WellFormed) {seqs : List ℕ}
    (hseqs : ∀ s ∈ seqs, s + 1 < 2 ^ 64) :
    (seqs.foldl recordGap g).WellFormed ∧
      ∀ s, (seqs.foldl recordGap g).Tracks s ↔ g.Tracks s ∨ s ∈ seqs := by
  induction seqs generalizing g with
  | nil => simp [hg]
  | cons seq seqs ih =>
      obtain ⟨hwf, hiff⟩ := recordGap_spec hg (hseqs seq List.mem_cons_self)
      obtain ⟨hwf', hiff'⟩ := ih hwf fun s hs ↦ hseqs s (List.mem_cons_of_mem seq hs)
      refine ⟨hwf', fun s ↦ (hiff' s).trans ?_⟩
      rw [hiff, List.mem_cons, or_assoc]

/-! ## Receiving -/

/-- The range that covers `seq`, if any, is the last one starting at or before it. -/
theorem lastUpTo_covers {g : GapRequestHandler} (hg : g.WellFormed) {seq : ℕ} {p q : ℕ × ℕ}
    (hp : g.gaps.lastUpTo seq = some p) (hq : q ∈ g.gaps.entries) (hqs : q.1 ≤ seq)
    (hlt : seq < q.2) : q = p := by
  obtain ⟨hpmem, hps⟩ := SortedMap.lastUpTo_mem hp
  rcases (SortedMap.le_lastUpTo hp hq hqs).eq_or_lt with heq | hqp
  · exact SortedMap.entry_unique hq hpmem heq
  · have := hg.apart q hq p hpmem hqp
    omega

theorem not_tracks_of_lastUpTo_none {g : GapRequestHandler} {seq : ℕ}
    (h : g.gaps.lastUpTo seq = none) : ¬ g.Tracks seq := by
  rintro ⟨p, hp, hps, -⟩
  have := SortedMap.lt_of_lastUpTo_none h hp
  omega

/-- Entries left after cutting `seq` out of the range `[start, stop)` covering it. -/
theorem mem_entries_markReceived {g : GapRequestHandler} {seq start stop : ℕ} {p : ℕ × ℕ}
    (hlast : g.gaps.lastUpTo seq = some (start, stop)) (hlt : seq < stop)
    (hseq : seq + 1 < 2 ^ 64) (hstop : ∀ q ∈ g.gaps.entries, q.1 ≠ seq + 1) :
    p ∈ (g.markReceived seq).gaps.entries ↔
      (p = (start, seq) ∧ start < seq) ∨ (p = (seq + 1, stop) ∧ seq + 1 < stop) ∨
        p ∈ g.gaps.entries ∧ p.1 ≠ start := by
  obtain ⟨-, hle⟩ := SortedMap.lastUpTo_mem hlast
  simp only at hle
  unfold markReceived
  rw [hlast, wrappingAdd_of_lt hseq]
  simp only [if_neg (Nat.not_le.mpr hlt)]
  split_ifs with hhi hlo hlo <;>
    simp only [SortedMap.mem_entries_insert, SortedMap.mem_entries_erase]
  · constructor
    · rintro (rfl | ⟨rfl | ⟨⟨hp, hne⟩, -⟩, -⟩)
      · exact Or.inr (Or.inl ⟨rfl, hhi⟩)
      · exact Or.inl ⟨rfl, hlo⟩
      · exact Or.inr (Or.inr ⟨hp, hne⟩)
    · rintro (⟨rfl, -⟩ | ⟨rfl, -⟩ | ⟨hp, hne⟩)
      · exact Or.inr ⟨Or.inl rfl, by simp only; omega⟩
      · exact Or.inl rfl
      · exact Or.inr ⟨Or.inr ⟨⟨hp, hne⟩, hne⟩, hstop p hp⟩
  · constructor
    · rintro (rfl | ⟨⟨hp, hne⟩, -⟩)
      · exact Or.inr (Or.inl ⟨rfl, hhi⟩)
      · exact Or.inr (Or.inr ⟨hp, hne⟩)
    · rintro (⟨rfl, h⟩ | ⟨rfl, -⟩ | ⟨hp, hne⟩)
      · exact absurd h hlo
      · exact Or.inl rfl
      · exact Or.inr ⟨⟨hp, hne⟩, hstop p hp⟩
  · constructor
    · rintro (rfl | ⟨⟨hp, hne⟩, -⟩)
      · exact Or.inl ⟨rfl, hlo⟩
      · exact Or.inr (Or.inr ⟨hp, hne⟩)
    · rintro (⟨rfl, -⟩ | ⟨rfl, h⟩ | ⟨hp, hne⟩)
      · exact Or.inl rfl
      · exact absurd h hhi
      · exact Or.inr ⟨⟨hp, hne⟩, hne⟩
  · tauto

theorem markReceived_spec {g : GapRequestHandler} (hg : g.WellFormed) (seq : ℕ) :
    (g.markReceived seq).WellFormed ∧
      ∀ s, (g.markReceived seq).Tracks s ↔ g.Tracks s ∧ s ≠ seq := by
  by_cases htrack : g.Tracks seq
  · obtain ⟨⟨start, stop⟩, hmem, hle, hlt⟩ := htrack
    simp only at hle hlt
    have hstop64 := hg.bounded _ hmem
    have hlast : g.gaps.lastUpTo seq = some (start, stop) := by
      cases hp : g.gaps.lastUpTo seq with
      | none => exact (not_tracks_of_lastUpTo_none hp ⟨_, hmem, hle, hlt⟩).elim
      | some p => rw [lastUpTo_covers hg hp hmem hle hlt]
    -- every other range ends below `start` or starts above `stop`
    have hother (q : ℕ × ℕ) (hq : q ∈ g.gaps.entries) (hne : q.1 ≠ start) :
        q.2 < start ∨ stop < q.1 := by
      rcases lt_or_gt_of_ne hne with h | h
      · exact Or.inl (hg.apart q hq _ hmem h)
      · exact Or.inr (hg.apart _ hmem q hq h)
    have hfresh : ∀ q ∈ g.gaps.entries, q.1 ≠ seq + 1 := by
      intro q hq heq
      by_cases hqs : q.1 = start
      · omega
      · have := hg.nonempty q hq
        rcases hother q hq hqs with h | h <;> omega
    have hentries (p : ℕ × ℕ) := mem_entries_markReceived (p := p) hlast hlt
      (by omega) hfresh
    refine ⟨⟨?_, ?_, ?_⟩, ?_⟩
    · intro p hp
      rcases (hentries p).mp hp with ⟨rfl, h⟩ | ⟨rfl, h⟩ | ⟨hp, -⟩
      · exact h
      · exact h
      · exact hg.nonempty p hp
    · intro p hp q hq hpq
      rcases (hentries p).mp hp with ⟨rfl, hlo⟩ | ⟨rfl, hhi⟩ | ⟨hp, hpne⟩ <;>
        rcases (hentries q).mp hq with ⟨rfl, hlo'⟩ | ⟨rfl, hhi'⟩ | ⟨hq, hqne⟩
      · exact absurd hpq (lt_irrefl _)
      · exact Nat.lt_succ_self seq
      · have := hg.nonempty q hq
        rcases hother q hq hqne with h | h <;> simp only at hpq ⊢ <;> omega
      · simp only at hpq
        omega
      · exact absurd hpq (lt_irrefl _)
      · have := hg.nonempty q hq
        rcases hother q hq hqne with h | h <;> simp only at hpq ⊢ <;> omega
      · rcases hother p hp hpne with h | h <;> simp only at hpq ⊢ <;> omega
      · rcases hother p hp hpne with h | h <;> simp only at hpq ⊢ <;> omega
      · exact hg.apart p hp q hq hpq
    · intro p hp
      rcases (hentries p).mp hp with ⟨rfl, h⟩ | ⟨rfl, h⟩ | ⟨hp, -⟩
      · simp only
        omega
      · exact hstop64
      · exact hg.bounded p hp
    · intro s
      constructor
      · rintro ⟨p, hp, hps, hsp⟩
        rcases (hentries p).mp hp with ⟨rfl, h⟩ | ⟨rfl, h⟩ | ⟨hp, hpne⟩
        · simp only at hps hsp
          exact ⟨⟨_, hmem, hps, by simp only; omega⟩, by omega⟩
        · simp only at hps hsp
          exact ⟨⟨_, hmem, by simp only; omega, hsp⟩, by omega⟩
        · refine ⟨⟨p, hp, hps, hsp⟩, ?_⟩
          rcases hother p hp hpne with h | h <;> omega
      · rintro ⟨⟨p, hp, hps, hsp⟩, hne⟩
        by_cases hpstart : p.1 = start
        · obtain rfl := SortedMap.entry_unique hp hmem hpstart
          simp only at hps hsp
          rcases lt_or_gt_of_ne hne with h | h
          · exact ⟨(start, seq), (hentries _).mpr (Or.inl ⟨rfl, by omega⟩), hps, h⟩
          · exact ⟨(seq + 1, stop),
              (hentries _).mpr (Or.inr (Or.inl ⟨rfl, by omega⟩)), h, hsp⟩
        · exact ⟨p, (hentries p).mpr (Or.inr (Or.inr ⟨hp, hpstart⟩)), hps, hsp⟩
  · have hsame : g.markReceived seq = g := by
      unfold markReceived
      cases hp : g.gaps.lastUpTo seq with
      | none => rfl
      | some p =>
          obtain ⟨hmem, hle⟩ := SortedMap.lastUpTo_mem hp
          have hge : p.2 ≤ seq := by
            by_contra hlt
            exact htrack ⟨p, hmem, hle, by omega⟩
          simp only
          rw [if_pos hge]
    rw [hsame]
    refine ⟨hg, fun s ↦ ⟨fun hs ↦ ⟨hs, ?_⟩, And.left⟩⟩
    rintro rfl
    exact htrack hs

end GapRequestHandler

end MoldUdp
