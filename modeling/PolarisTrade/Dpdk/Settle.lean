import PolarisTrade.Lib.Compact

/-!
# Settling a burst

`settle` walks over the mbufs of one burst.  Single-segment ones are delivered on the way; chained
ones are moved to the front of the array that is being read, and freed in one call at the end.
-/

namespace Dpdk

open Compact

variable {M σ : Type}

/-! ## The function -/

/-- The loop of `settle`.  `deliver` acts on the state `σ`; `none` is a panic, its own or that of
an index out of bounds. -/
def settleLoop (deliver : ℕ → M → σ → Option σ) :
    List UInt16 → ℕ → List M → ℕ → σ → Option (List M × ℕ × σ)
  | [], _, mbufs, chained, s => some (mbufs, chained, s)
  | segs :: nbSegs, i, mbufs, chained, s =>
      match mbufs[i]? with
      | none => none
      | some mbuf =>
          if 1 < segs then
            if chained < mbufs.length then
              settleLoop deliver nbSegs (i + 1) (mbufs.set chained mbuf) (chained + 1) s
            else none
          else
            match deliver i mbuf s with
            | none => none
            | some s => settleLoop deliver nbSegs (i + 1) mbufs chained s

/-- What `settle` leaves behind: the count it returns, its two borrowed arguments and the state of
its callbacks. -/
structure Settled (M σ : Type) where
  delivered : ℕ
  mbufs : List M
  truncated : UInt64
  state : σ

/-- A callback that gets a slice: it may write to the slice, which keeps its length. -/
structure OnSlice (M σ : Type) where
  call : List M → σ → Option (List M × σ)
  length_eq : ∀ {slice s r}, call slice s = some r → r.1.length = slice.length

def settle (deliver : ℕ → M → σ → Option σ) (free : OnSlice M σ) (mbufs : List M)
    (nbSegs : List UInt16) (truncated : UInt64) (s : σ) : Option (Settled M σ) :=
  match settleLoop deliver nbSegs 0 mbufs 0 s with
  | none => none
  | some (mbufs, chained, s) =>
      if 0 < chained then
        if chained ≤ mbufs.length then
          match free.call (mbufs.take chained) s with
          | none => none
          | some (slice, s) =>
              some
                { delivered := mbufs.length - chained
                  mbufs := slice ++ mbufs.drop chained
                  truncated := truncated + UInt64.ofNat chained
                  state := s }
        else none
      else
        some
          { delivered := mbufs.length - chained
            mbufs := mbufs
            truncated := truncated
            state := s }

/-! ## What is delivered and what is freed -/

/-- The single-segment mbufs of a burst, with their indices from `i` on. -/
def plain (mbufs : List M) (nbSegs : List UInt16) (i : ℕ) : List (ℕ × M) :=
  pick (fun segs ↦ decide (segs ≤ 1)) nbSegs mbufs i

/-- The chained mbufs of a burst. -/
def chained (mbufs : List M) (nbSegs : List UInt16) (i : ℕ) : List (ℕ × M) :=
  pick (fun segs ↦ decide (1 < segs)) nbSegs mbufs i

variable {mbuf : M} {mbufs front : List M} {segs : UInt16} {nbSegs : List UInt16} {i : ℕ}

theorem plain_cons_of_le (hsegs : segs ≤ 1) :
    plain (mbuf :: mbufs) (segs :: nbSegs) i = (i, mbuf) :: plain mbufs nbSegs (i + 1) ∧
      chained (mbuf :: mbufs) (segs :: nbSegs) i = chained mbufs nbSegs (i + 1) :=
  ⟨pick_cons_of_pos (decide_eq_true hsegs),
    pick_cons_of_neg (decide_eq_false (UInt16.not_lt.mpr hsegs))⟩

theorem plain_cons_of_lt (hsegs : 1 < segs) :
    plain (mbuf :: mbufs) (segs :: nbSegs) i = plain mbufs nbSegs (i + 1) ∧
      chained (mbuf :: mbufs) (segs :: nbSegs) i = (i, mbuf) :: chained mbufs nbSegs (i + 1) :=
  ⟨pick_cons_of_neg (decide_eq_false (UInt16.not_le.mpr hsegs)),
    pick_cons_of_pos (decide_eq_true hsegs)⟩

/-- Each mbuf is one or the other. -/
theorem plain_append_chained_perm (hlength : nbSegs.length = mbufs.length) (i : ℕ) :
    ((plain mbufs nbSegs i).map Prod.snd ++ (chained mbufs nbSegs i).map Prod.snd).Perm mbufs := by
  refine pick_append_perm (fun segs ↦ ?_) hlength i
  rw [← decide_not, decide_eq_decide]
  exact UInt16.not_le.symm

theorem length_plain_add_length_chained (hlength : nbSegs.length = mbufs.length) (i : ℕ) :
    (plain mbufs nbSegs i).length + (chained mbufs nbSegs i).length = mbufs.length := by
  simpa using (plain_append_chained_perm hlength i).length_eq

/-- The array during the loop is the burst with the chained mbufs met so far written onto it, so
the loop reads every mbuf as it was received. -/
theorem settleLoop_onto (deliver : ℕ → M → σ → Option σ) (hfront : front.length ≤ i)
    (hlength : nbSegs.length = (mbufs.drop i).length) (s : σ) :
    settleLoop deliver nbSegs i (onto front mbufs) front.length s =
      ((plain (mbufs.drop i) nbSegs i).foldlM (fun s e ↦ deliver e.1 e.2 s) s).map fun s ↦
        (onto (front ++ (chained (mbufs.drop i) nbSegs i).map Prod.snd) mbufs,
          front.length + (chained (mbufs.drop i) nbSegs i).length, s) := by
  induction nbSegs generalizing front i s with
  | nil => simp [settleLoop, plain, chained]
  | cons segs nbSegs ih =>
      have hi : i < mbufs.length := by
        rw [List.length_cons, List.length_drop] at hlength
        omega
      have hrest : nbSegs.length = (mbufs.drop (i + 1)).length := by
        rw [List.length_cons, List.length_drop] at hlength
        rw [List.length_drop]
        omega
      have hread : (onto front mbufs)[i]? = some mbufs[i] := by
        rw [getElem?_onto hfront, List.getElem?_eq_getElem hi]
      rw [settleLoop, hread, List.drop_eq_getElem_cons hi]
      dsimp only
      split
      · next hsegs =>
          -- the slot written lies before the one read
          have hwrite : front.length < mbufs.length := hfront.trans_lt hi
          have hstep := @ih (front ++ [mbufs[i]]) (i + 1) (by simpa using hfront) hrest s
          rw [List.length_append, List.length_singleton] at hstep
          rw [length_onto hwrite.le, if_pos hwrite, set_onto hwrite, hstep,
            (plain_cons_of_lt hsegs).1, (plain_cons_of_lt hsegs).2]
          simp [Nat.add_assoc, Nat.add_comm 1]
      · next hsegs =>
          have hle := UInt16.not_lt.mp hsegs
          rw [(plain_cons_of_le hle).1, (plain_cons_of_le hle).2, List.foldlM_cons]
          cases hdeliver : deliver i mbufs[i] s with
          | none => rfl
          | some s' => exact ih (hfront.trans (Nat.le_succ i)) hrest s'

/-- Deliver the single-segment mbufs, then free the chained ones if there are any. -/
theorem settle_eq (deliver : ℕ → M → σ → Option σ) (free : OnSlice M σ)
    (hlength : nbSegs.length = mbufs.length) (truncated : UInt64) (s : σ) :
    settle deliver free mbufs nbSegs truncated s =
      ((plain mbufs nbSegs 0).foldlM (fun s e ↦ deliver e.1 e.2 s) s).bind fun s ↦
        if (chained mbufs nbSegs 0).map Prod.snd = [] then
          some ⟨(plain mbufs nbSegs 0).length, mbufs, truncated, s⟩
        else
          (free.call ((chained mbufs nbSegs 0).map Prod.snd) s).map fun r ↦
            ⟨(plain mbufs nbSegs 0).length, onto r.1 mbufs,
              truncated + UInt64.ofNat (chained mbufs nbSegs 0).length, r.2⟩ := by
  have hcount := length_plain_add_length_chained hlength 0
  have hloop := @settleLoop_onto M σ mbufs [] nbSegs 0 deliver le_rfl hlength s
  rw [nil_onto, List.drop_zero, List.nil_append, List.length_nil, Nat.zero_add] at hloop
  rw [settle, hloop]
  cases (plain mbufs nbSegs 0).foldlM (fun s e ↦ deliver e.1 e.2 s) s with
  | none => rfl
  | some s =>
      dsimp only [Option.map_some, Option.bind_some]
      generalize hfrees : (chained mbufs nbSegs 0).map Prod.snd = frees
      have hfrees' : (chained mbufs nbSegs 0).length = frees.length := by
        rw [← hfrees, List.length_map]
      rw [hfrees'] at hcount ⊢
      have hle : frees.length ≤ mbufs.length := by omega
      rw [length_onto hle, take_onto, if_pos hle]
      have hdelivered : mbufs.length - frees.length = (plain mbufs nbSegs 0).length := by omega
      rw [hdelivered]
      by_cases hnil : frees = []
      · subst hnil
        rfl
      · rw [if_pos (List.length_pos_of_ne_nil hnil), if_neg hnil]
        cases hfree : free.call frees s with
        | none => rfl
        | some r =>
            dsimp only [Option.map_some]
            rw [onto, List.drop_left, onto, free.length_eq hfree]

/-- Callbacks that do not panic, the second of which leaves its slice as it is. -/
theorem settle_of_some {deliver : ℕ → M → σ → Option σ} {free : OnSlice M σ} {frees : List M}
    {s s₁ s₂ : σ} (hlength : nbSegs.length = mbufs.length)
    (hfrees : (chained mbufs nbSegs 0).map Prod.snd = frees)
    (hdeliver : (plain mbufs nbSegs 0).foldlM (fun s e ↦ deliver e.1 e.2 s) s = some s₁)
    (hnil : frees = [] → s₂ = s₁) (hfree : frees ≠ [] → free.call frees s₁ = some (frees, s₂))
    (truncated : UInt64) :
    settle deliver free mbufs nbSegs truncated s =
      some ⟨(plain mbufs nbSegs 0).length, onto frees mbufs,
        truncated + UInt64.ofNat frees.length, s₂⟩ := by
  have hcount : (chained mbufs nbSegs 0).length = frees.length := by
    rw [← hfrees, List.length_map]
  rw [settle_eq _ _ hlength, hdeliver, Option.bind_some, hcount, hfrees]
  by_cases hempty : frees = []
  · rw [if_pos hempty, hnil hempty, hempty, nil_onto]
    exact congrArg (fun t ↦ some (Settled.mk _ mbufs t s₁)) (UInt64.add_zero truncated).symm
  · rw [if_neg hempty, hfree hempty, Option.map_some]

/-! ## The calls -/

inductive Call (M : Type) where
  | deliver (i : ℕ) (mbuf : M)
  | free (mbufs : List M)
  deriving DecidableEq

/-- Callbacks that only write their calls down. -/
def recordDeliver (i : ℕ) (mbuf : M) (calls : List (Call M)) : Option (List (Call M)) :=
  some (calls ++ [.deliver i mbuf])

def recordFree : OnSlice M (List (Call M)) where
  call slice calls := some (slice, calls ++ [.free slice])
  length_eq h := by cases h; rfl

theorem foldlM_recordDeliver (entries : List (ℕ × M)) (calls : List (Call M)) :
    entries.foldlM (fun calls e ↦ recordDeliver e.1 e.2 calls) calls =
      some (calls ++ entries.map fun e ↦ .deliver e.1 e.2) := by
  induction entries generalizing calls with
  | nil => rw [List.map_nil, List.append_nil]; rfl
  | cons e entries ih =>
      rw [List.foldlM_cons, recordDeliver, Option.bind_eq_bind, Option.bind_some, ih,
        List.append_assoc, List.map_cons, List.singleton_append]

/-- Each mbuf of a burst is delivered or freed, once.  With any callbacks `settle` does what
delivering the mbufs at the indices with at most one segment and then freeing the others in one
call does, each as it was received and in order; there is no call to free when there are none. -/
theorem settle_exact {M : Type} {mbufs : List M} {nbSegs : List UInt16}
    (hlength : nbSegs.length = mbufs.length) :
    ∃ (delivers : List (ℕ × M)) (frees : List M),
      delivers.map (fun e ↦ (e.1, some e.2)) =
        (nbSegs.findIdxs fun segs ↦ decide (segs ≤ 1)).map (fun i ↦ (i, mbufs[i]?)) ∧
      frees.map some =
        (nbSegs.findIdxs fun segs ↦ decide (1 < segs)).map (fun i ↦ mbufs[i]?) ∧
      (delivers.map Prod.snd ++ frees).Perm mbufs ∧
      (∀ (σ : Type) (deliver : ℕ → M → σ → Option σ) (free : OnSlice M σ) (truncated : UInt64)
        (s : σ), settle deliver free mbufs nbSegs truncated s =
          (delivers.foldlM (fun s e ↦ deliver e.1 e.2 s) s).bind fun s ↦
            if frees = [] then some ⟨delivers.length, mbufs, truncated, s⟩
            else (free.call frees s).map fun r ↦
              ⟨delivers.length, onto r.1 mbufs, truncated + UInt64.ofNat frees.length, r.2⟩) ∧
      ∀ truncated, settle recordDeliver recordFree mbufs nbSegs truncated [] =
        some
          { delivered := delivers.length
            mbufs := onto frees mbufs
            truncated := truncated + UInt64.ofNat frees.length
            state := delivers.map (fun e ↦ .deliver e.1 e.2) ++
              if frees = [] then [] else [.free frees] } := by
  have hpairs := @map_pick M UInt16 mbufs (fun segs ↦ decide (1 < segs)) nbSegs hlength 0
  have hfrees : ((chained mbufs nbSegs 0).map Prod.snd).length = (chained mbufs nbSegs 0).length :=
    List.length_map _
  refine ⟨plain mbufs nbSegs 0, (chained mbufs nbSegs 0).map Prod.snd, map_pick hlength 0, ?_,
    plain_append_chained_perm hlength 0, fun σ deliver free truncated s ↦ ?_, fun truncated ↦ ?_⟩
  · have hentries := congrArg (List.map Prod.snd) hpairs
    rw [List.map_map, List.map_map] at hentries
    rw [List.map_map]
    exact hentries
  · rw [hfrees]
    exact settle_eq deliver free hlength truncated s
  · apply settle_of_some hlength rfl (foldlM_recordDeliver _ [])
    · intro hnil
      rw [if_pos hnil, List.append_nil, List.nil_append]
    · intro hne
      rw [if_neg hne, List.nil_append]
      rfl

/-- Five mbufs, the second and the fourth chained. -/
theorem settle_exact_two_chained :
    [1, 3, 1, 2, 1].length = [10, 11, 12, 13, 14].length ∧
    ∃ r, settle recordDeliver recordFree [10, 11, 12, 13, 14] [1, 3, 1, 2, 1] 7 [] = some r ∧
      r.delivered = 3 ∧ r.truncated = 9 ∧
      r.state = [.deliver 0 10, .deliver 2 12, .deliver 4 14, .free [11, 13]] := by
  obtain ⟨delivers, frees, hdelivers, hfrees, -, -, hcalls⟩ :=
    @settle_exact ℕ [10, 11, 12, 13, 14] [1, 3, 1, 2, 1] rfl
  have hplain : delivers = [(0, 10), (2, 12), (4, 14)] := by
    apply List.map_injective_iff.mpr _ hdelivers
    rintro ⟨i, m⟩ ⟨i', m'⟩ h
    cases h
    rfl
  have hchained : frees = [11, 13] := List.map_injective_iff.mpr (Option.some_injective ℕ) hfrees
  subst hplain hchained
  exact ⟨rfl, _, hcalls 7, rfl, rfl, rfl⟩

end Dpdk
