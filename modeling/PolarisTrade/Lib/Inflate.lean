import Mathlib

/-!
# Streaming decompression

What a decompressor that is fed in pieces has to do.  A format says what compressed text inflates
to and where it ends.  A decompressor takes a front part of the input of a call, writes what fits
its output window, and over all calls writes the inflation of what it took.  It gets on whenever
there is something to take or to write and room for it, until the end of the stream, which it
reports.  Any format has one: taking everything and writing what fits meets the contract.  A
format may be given by a scanner, which reads compressed text one item at a time.
-/

namespace Inflate

/-- What a call reports. -/
inductive Status where
  | ok
  | bufError
  | streamEnd
  deriving DecidableEq

/-- Compressed text over `α` for text over `β`: what the text inflates to so far, and whether it
holds a whole stream.  Nothing inflates past the end. -/
structure Format (α β : Type*) where
  inflate : List α → List β
  Ended : List α → Prop
  inflate_nil : inflate [] = []
  inflate_append : ∀ xs ys, inflate xs <+: inflate (xs ++ ys)
  ended_append : ∀ xs ys, Ended xs → Ended (xs ++ ys)
  inflate_of_ended : ∀ xs ys, Ended xs → inflate (xs ++ ys) = inflate xs

/-- A stateful decompressor with its two counters.  A call gets input and room, and returns a
status with what it wrote, or fails. -/
structure Decompress (σ ε : Type*) (α β : Type*) where
  totalIn : σ → ℕ
  totalOut : σ → ℕ
  decompress : σ → List α → ℕ → Except ε (Status × List β) × σ

variable {σ ε α β : Type*}

/-- The stream has ended and all of it is written. -/
def Format.Over (f : Format α β) (fed : List α) (written : List β) : Prop :=
  f.Ended fed ∧ written = f.inflate fed

/-- A call that succeeded and took `k` items, between the texts taken and written so far. -/
structure Called (z : Decompress σ ε α β) (f : Format α β) (At : σ → List α → List β → Prop)
    (s : σ) (fed : List α) (written : List β) (input : List α) (room : ℕ) (status : Status)
    (out : List β) (s' : σ) (k : ℕ) : Prop where
  take_le : k ≤ input.length
  out_le : out.length ≤ room
  at_next : At s' (fed ++ input.take k) (written ++ out)
  totalIn_eq : z.totalIn s' = z.totalIn s + k
  totalOut_eq : z.totalOut s' = z.totalOut s + out.length
  streamEnd_iff : status = .streamEnd ↔ f.Over (fed ++ input.take k) (written ++ out)
  progress : ¬ f.Over fed written → 0 < room → input ≠ [] ∨ written ≠ f.inflate fed →
    0 < k ∨ out ≠ []

/-- The contract.  `At s fed written` says that `s` was reached by taking `fed` in all and
writing `written`. -/
structure Meets (z : Decompress σ ε α β) (f : Format α β) (At : σ → List α → List β → Prop) :
    Prop where
  written_le : ∀ {s fed written}, At s fed written → written <+: f.inflate fed
  call : ∀ {s fed written input room status out s'}, At s fed written →
    z.decompress s input room = (.ok (status, out), s') →
    ∃ k, Called z f At s fed written input room status out s' k

namespace Format

variable {f : Format α β} {fed : List α} {written : List β}

/-- Past the end nothing is added. -/
theorem Over.inflate_append (h : f.Over fed written) (more : List α) :
    written = f.inflate (fed ++ more) :=
  h.2.trans (f.inflate_of_ended fed more h.1).symm

theorem Over.append (h : f.Over fed written) (more : List α) : f.Over (fed ++ more) written :=
  ⟨f.ended_append fed more h.1, h.inflate_append more⟩

end Format

/-- A call with room that took and wrote nothing had nothing to take or to write. -/
theorem Called.stalled {z : Decompress σ ε α β} {f : Format α β}
    {At : σ → List α → List β → Prop} {s s' : σ} {fed input : List α} {written : List β}
    {room : ℕ} {status : Status} (h : Called z f At s fed written input room status [] s' 0)
    (hroom : 0 < room) (hstatus : status ≠ .streamEnd) :
    input = [] ∧ written = f.inflate fed := by
  have hopen : ¬ f.Over fed written := by
    intro hover
    apply hstatus
    rw [h.streamEnd_iff, List.take_zero, List.append_nil, List.append_nil]
    exact hover
  by_contra hleft
  rcases h.progress hopen hroom (not_and_or.mp hleft) with hpos | hne
  · exact Nat.lt_irrefl 0 hpos
  · exact hne rfl

/-! ## Scanners -/

/-- A format read one item at a time.  Once it is done, a scanner stays where it is and writes
nothing. -/
structure Scanner (S α β : Type*) where
  init : S
  step : S → α → List β × S
  Done : S → Prop
  step_of_done : ∀ {s}, Done s → ∀ a, step s a = ([], s)

namespace Scanner

variable {S : Type*} (m : Scanner S α β)

/-- What is written from a state on, and the state behind it. -/
def scan : S → List α → List β × S
  | s, [] => ([], s)
  | s, a :: as => ((m.step s a).1 ++ (scan (m.step s a).2 as).1, (scan (m.step s a).2 as).2)

theorem scan_append (s : S) (xs ys : List α) :
    m.scan s (xs ++ ys) = ((m.scan s xs).1 ++ (m.scan (m.scan s xs).2 ys).1,
      (m.scan (m.scan s xs).2 ys).2) := by
  induction xs generalizing s with
  | nil => rfl
  | cons x xs ih => rw [List.cons_append, scan, ih, scan, ← List.append_assoc]

theorem scan_of_done {s : S} (h : m.Done s) (xs : List α) : m.scan s xs = ([], s) := by
  induction xs with
  | nil => rfl
  | cons x xs ih => rw [scan, m.step_of_done h, ih]; rfl

def format : Format α β where
  inflate xs := (m.scan m.init xs).1
  Ended xs := m.Done (m.scan m.init xs).2
  inflate_nil := rfl
  inflate_append xs ys := by
    rw [scan_append]
    exact List.prefix_append _ _
  ended_append xs ys h := by
    rw [scan_append, m.scan_of_done h]
    exact h
  inflate_of_ended xs ys h := by
    rw [scan_append, m.scan_of_done h]
    exact List.append_nil _

end Scanner

/-! ## The greedy decompressor -/

section Greedy

variable (f : Format α β) [∀ xs, Decidable (f.Ended xs)] [DecidableEq β]

/-- The texts taken and written. -/
structure Greedy (α β : Type*) where
  fed : List α
  written : List β

/-- Take all of the input and write what fits. -/
def greedy : Decompress (Greedy α β) ε α β where
  totalIn s := s.fed.length
  totalOut s := s.written.length
  decompress s input room :=
    let fed := s.fed ++ input
    let out := ((f.inflate fed).drop s.written.length).take room
    let written := s.written ++ out
    (.ok (if f.Ended fed ∧ written = f.inflate fed then .streamEnd else .ok, out),
      ⟨fed, written⟩)

theorem greedy_meets :
    Meets (greedy f : Decompress (Greedy α β) ε α β) f fun s fed written ↦
      s.fed = fed ∧ s.written = written ∧ written <+: f.inflate fed := by
  refine ⟨fun h ↦ h.2.2, ?_⟩
  rintro s _ _ input room status out s' ⟨rfl, rfl, hwritten⟩ hcall
  obtain ⟨hok, rfl⟩ := Prod.mk.inj hcall
  obtain ⟨hstatus, rfl⟩ := Prod.mk.inj (Except.ok.inj hok)
  -- what is held back is the rest of the inflation
  obtain ⟨rest, hrest⟩ := hwritten.trans (f.inflate_append s.fed input)
  have hdrop : (f.inflate (s.fed ++ input)).drop s.written.length = rest := by
    rw [← hrest, List.drop_left]
  have htake : input.take input.length = input := List.take_length
  refine ⟨input.length, le_rfl, List.length_take_le _ _, ?_, ?_, List.length_append, ?_, ?_⟩
  · rw [htake, hdrop]
    refine ⟨rfl, rfl, ?_⟩
    rw [← hrest]
    exact (List.prefix_append_right_inj _).mpr (List.take_prefix _ _)
  · exact List.length_append
  · rw [htake, ← hstatus]
    split
    · next hover => exact iff_of_true rfl hover
    · next hopen => exact iff_of_false nofun hopen
  · rintro hopen hroom (hinput | hheld)
    · exact Or.inl (List.length_pos_of_ne_nil hinput)
    · refine or_iff_not_imp_left.mpr fun hinput ↦ ?_
      obtain rfl : input = [] := List.length_eq_zero_iff.mp (Nat.eq_zero_of_not_pos hinput)
      rw [hdrop]
      intro hnil
      rw [List.append_nil] at hrest
      rcases List.take_eq_nil_iff.mp hnil with hzero | rfl
      · omega
      · exact hheld (by rw [← hrest, List.append_nil])

end Greedy

end Inflate
