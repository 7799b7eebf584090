import Mathlib

/-!
# Bytes lent in place

A lender hands out handles to bytes in memory of its own instead of copies.  A loan is a handle
with the bytes it read when it was made.  Of several lenders side by side, each keeps its laws
through a step of any of them, and a loan that is not given back reads as it did.
-/

structure Lender (σ ε η : Type*) where
  next : σ → ε → Option σ
  /-- handles lent in a step -/
  lent : σ → ε → List η
  /-- whether a step takes the handle back -/
  takes : σ → ε → η → Bool
  /-- the bytes behind a handle now -/
  read : σ → η → List UInt8
  /-- all that was lent, as it read then -/
  handed : σ → List (List UInt8)
  /-- all that came in to be lent -/
  offered : σ → List (List UInt8)

/-- A live handle reads the same until it is taken back, and what is lent came in. -/
structure Lender.Lawful {σ ε η : Type*} (L : Lender σ ε η) (Good : σ → Prop)
    (Live : σ → η → Prop) : Prop where
  good : ∀ {s e t}, Good s → L.next s e = some t → Good t
  lent : ∀ {s e t h}, Good s → L.next s e = some t → h ∈ L.lent s e → Live t h
  live : ∀ {s e t h}, Good s → L.next s e = some t → Live s h → L.takes s e h = false → Live t h
  read : ∀ {s e t h}, Good s → L.next s e = some t → Live s h → L.takes s e h = false →
    L.read t h = L.read s h
  handed : ∀ {s e t}, Good s → L.next s e = some t →
    L.handed t = L.handed s ++ (L.lent s e).map (L.read t)
  offered : ∀ {s}, Good s → L.handed s <+: L.offered s

structure Loan (ι η : Type*) where
  lender : ι
  handle : η
  bytes : List UInt8

namespace Loan

variable {ι σ ε η : Type*} [DecidableEq ι] {L : ι → Lender σ ε η} {Good : ι → σ → Prop}
  {Live : ι → σ → η → Prop} {s : ι → σ} {loan : Loan ι η} {k : ι} {e : ε} {t : σ}

/-- The loan is live and reads as it did when it was made. -/
def Sound (L : ι → Lender σ ε η) (Live : ι → σ → η → Prop) (s : ι → σ) (loan : Loan ι η) : Prop :=
  Live loan.lender (s loan.lender) loan.handle ∧
    (L loan.lender).read (s loan.lender) loan.handle = loan.bytes

/-- What the loan read when it was made is what its lender lent. -/
def Recorded (L : ι → Lender σ ε η) (s : ι → σ) (loan : Loan ι η) : Prop :=
  loan.bytes ∈ (L loan.lender).handed (s loan.lender)

/-- The loans lender `k` makes in a step to `t`. -/
def made (L : ι → Lender σ ε η) (s : ι → σ) (k : ι) (e : ε) (t : σ) : List (Loan ι η) :=
  ((L k).lent (s k) e).map fun handle ↦ ⟨k, handle, (L k).read t handle⟩

theorem good_update (hL : ∀ i, (L i).Lawful (Good i) (Live i)) (hgood : ∀ i, Good i (s i))
    (hnext : (L k).next (s k) e = some t) (i : ι) : Good i (Function.update s k t i) := by
  by_cases hi : i = k
  · subst hi
    rw [Function.update_self]
    exact (hL i).good (hgood i) hnext
  · rw [Function.update_of_ne hi]
    exact hgood i

theorem Sound.update (h : loan.Sound L Live s) (hL : ∀ i, (L i).Lawful (Good i) (Live i))
    (hgood : ∀ i, Good i (s i)) (hnext : (L k).next (s k) e = some t)
    (hkept : loan.lender = k → (L k).takes (s k) e loan.handle = false) :
    loan.Sound L Live (Function.update s k t) := by
  obtain ⟨hlive, hread⟩ := h
  by_cases hk : loan.lender = k
  · have hkept := hkept hk
    subst hk
    unfold Sound
    rw [Function.update_self]
    exact ⟨(hL _).live (hgood _) hnext hlive hkept,
      ((hL _).read (hgood _) hnext hlive hkept).trans hread⟩
  · unfold Sound
    rw [Function.update_of_ne hk]
    exact ⟨hlive, hread⟩

theorem Recorded.update (h : loan.Recorded L s) (hL : ∀ i, (L i).Lawful (Good i) (Live i))
    (hgood : ∀ i, Good i (s i)) (hnext : (L k).next (s k) e = some t) :
    loan.Recorded L (Function.update s k t) := by
  unfold Recorded at h ⊢
  by_cases hk : loan.lender = k
  · subst hk
    rw [Function.update_self, (hL _).handed (hgood _) hnext]
    exact List.mem_append_left _ h
  · rw [Function.update_of_ne hk]
    exact h

/-- A loan just made is sound, and recorded. -/
theorem sound_of_made (hL : ∀ i, (L i).Lawful (Good i) (Live i)) (hgood : ∀ i, Good i (s i))
    (hnext : (L k).next (s k) e = some t) (hloan : loan ∈ made L s k e t) :
    loan.Sound L Live (Function.update s k t) ∧ loan.Recorded L (Function.update s k t) := by
  obtain ⟨handle, hhandle, rfl⟩ := List.mem_map.mp hloan
  unfold Sound Recorded
  dsimp only
  rw [Function.update_self]
  refine ⟨⟨(hL k).lent (hgood k) hnext hhandle, rfl⟩, ?_⟩
  rw [(hL k).handed (hgood k) hnext]
  exact List.mem_append_right _ (List.mem_map_of_mem hhandle)

omit [DecidableEq ι] in
theorem Recorded.mem_offered (h : loan.Recorded L s) (hL : ∀ i, (L i).Lawful (Good i) (Live i))
    (hgood : ∀ i, Good i (s i)) : loan.bytes ∈ (L loan.lender).offered (s loan.lender) :=
  ((hL _).offered (hgood _)).subset h

end Loan
