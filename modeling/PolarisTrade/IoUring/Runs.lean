import PolarisTrade.Lib.Ranges
import PolarisTrade.IoUring.Driver

/-!
# Runs of slots

`provide_runs` over any `provide`: the slots are sorted, each run of consecutive slots is handed
over in one call, and the slots handed leave the list also when a later call fails.  The driver
hands its slots over in this way, with a push to the submission queue for each run.
-/

namespace IoUring

open UringDriver

variable {σ ε : Type}

/-- `back[handed..].iter().zip(first..).take_while(|slot == next|).count()` -/
def countRun (back : List ℕ) (handed first : ℕ) : ℕ :=
  (((back.drop handed).zip (List.range' first back.length)).takeWhile fun p ↦ p.1 = p.2).length

/-- The loop of `provide_runs` over the sorted list: the slots before `handed` are handed over.
`none` when `fuel` calls do not reach the end. -/
def provideRunsLoop (provide : σ → ℕ → ℕ → Except ε Unit × σ) (back : List ℕ) :
    ℕ → ℕ → σ → Option (Except ε Unit × σ × List ℕ)
  | fuel, handed, s =>
      match back[handed]? with
      | none => some (.ok (), s, [])
      | some first =>
          match fuel with
          | 0 => none
          | fuel + 1 =>
              let run := countRun back handed first
              match provide s first run with
              | (.error error, s) => some (.error error, s, back.drop handed)
              | (.ok (), s) => provideRunsLoop provide back fuel (handed + run) s

/-- What `provide` is called on goes through `σ`; the last component is what is left in `back`. -/
def provideRuns (provide : σ → ℕ → ℕ → Except ε Unit × σ) (fuel : ℕ) (s : σ) (back : List ℕ) :
    Option (Except ε Unit × σ × List ℕ) :=
  provideRunsLoop provide (back.insertionSort (· ≤ ·)) fuel 0 s

/-! ## Runs -/

theorem length_takeWhile_zip : ∀ (slots : List ℕ) (next n : ℕ), slots.length ≤ n →
    ((slots.zip (List.range' next n)).takeWhile fun p ↦ p.1 = p.2).length = run next slots
  | [], next, n, _ => by rw [List.zip_nil_left]; rfl
  | slot :: slots, next, 0, h => by simp at h
  | slot :: slots, next, n + 1, h => by
      rw [List.range'_succ, List.zip_cons_cons, List.takeWhile_cons, run]
      by_cases heq : slot = next
      · rw [if_pos (by simpa using heq), if_pos heq, List.length_cons,
          length_takeWhile_zip slots (next + 1) n (Nat.le_of_succ_le_succ h)]
      · rw [if_neg (by simpa using heq), if_neg heq]
        rfl

theorem countRun_eq (back : List ℕ) (handed first : ℕ) :
    countRun back handed first = run first (back.drop handed) :=
  length_takeWhile_zip _ _ _ (by rw [List.length_drop]; exact Nat.sub_le _ _)

section Turns

variable {provide : σ → ℕ → ℕ → Except ε Unit × σ} {back slots : List ℕ} {handed first : ℕ}

theorem provideRunsLoop_of_nil (hslots : back.drop handed = []) (fuel : ℕ) (s : σ) :
    provideRunsLoop provide back fuel handed s = some (.ok (), s, []) := by
  have hnone : back[handed]? = none := by
    rw [List.getElem?_eq_none_iff]
    exact List.drop_eq_nil_iff.mp hslots
  unfold provideRunsLoop
  rw [hnone]

/-- A turn of the loop is about the run at the front of what is left. -/
theorem provideRunsLoop_of_cons (hslots : back.drop handed = first :: slots) (fuel : ℕ) (s : σ) :
    provideRunsLoop provide back (fuel + 1) handed s =
      match provide s first (run first (first :: slots)) with
      | (.error error, s) => some (.error error, s, first :: slots)
      | (.ok (), s) =>
          provideRunsLoop provide back fuel (handed + run first (first :: slots)) s := by
  have hfirst : back[handed]? = some first := by
    rw [← List.head?_drop, hslots, List.head?_cons]
  rw [provideRunsLoop, hfirst]
  dsimp only
  rw [countRun_eq, hslots]

theorem drop_handed_add (hslots : back.drop handed = slots) (n : ℕ) :
    back.drop (handed + n) = slots.drop n := by
  rw [← List.drop_drop, hslots]

theorem length_drop_run_le {fuel : ℕ} (hfuel : (first :: slots).length ≤ fuel + 1) :
    ((first :: slots).drop (run first (first :: slots))).length ≤ fuel := by
  have hpos := run_pos first slots
  rw [List.length_drop]
  omega

end Turns

/-- The slots of one run. -/
def slotsOf (r : ℕ × ℕ) : List ℕ := List.range' r.1 r.2

/-- Cutting a list into the runs at its front, one after the other. -/
inductive Cuts : List ℕ → List (ℕ × ℕ) → Prop
  | nil : Cuts [] []
  | cons {first : ℕ} {slots : List ℕ} {runs : List (ℕ × ℕ)} :
      Cuts ((first :: slots).drop (run first (first :: slots))) runs →
      Cuts (first :: slots) ((first, run first (first :: slots)) :: runs)

theorem exists_cuts (slots : List ℕ) : ∃ runs, Cuts slots runs := by
  induction hn : slots.length using Nat.strong_induction_on generalizing slots with
  | _ n ih =>
      cases slots with
      | nil => exact ⟨[], .nil⟩
      | cons first slots =>
          have hpos := run_pos first slots
          have hlt : ((first :: slots).drop (run first (first :: slots))).length < n := by
            rw [← hn, List.length_drop, List.length_cons]
            omega
          obtain ⟨runs, hruns⟩ := ih _ hlt _ rfl
          exact ⟨_, .cons hruns⟩

theorem Cuts.flatMap_eq {slots : List ℕ} {runs : List (ℕ × ℕ)} (h : Cuts slots runs) :
    runs.flatMap slotsOf = slots := by
  induction h with
  | nil => rfl
  | cons _ ih => rw [List.flatMap_cons, ih, slotsOf, ← take_run, List.take_append_drop]

/-- What follows a run in a strictly increasing list leaves a slot out. -/
theorem lt_of_mem_drop_run : ∀ {slots : List ℕ} {next : ℕ}, slots.Pairwise (· < ·) →
    (∀ slot ∈ slots, next ≤ slot) → ∀ slot ∈ slots.drop (run next slots),
      next + run next slots < slot
  | [], _, _, _ => nofun
  | first :: slots, next, hsorted, hge => by
      obtain ⟨hfirst, hslots⟩ := List.pairwise_cons.mp hsorted
      intro slot hslot
      unfold run at hslot ⊢
      split at hslot
      · next heq =>
          have hnext : ∀ s ∈ slots, next + 1 ≤ s := by
            intro s hs
            have := hfirst s hs
            omega
          have hlt := lt_of_mem_drop_run hslots hnext slot (by simpa using hslot)
          rw [if_pos heq]
          omega
      · next hne =>
          have hnext := hge first List.mem_cons_self
          rw [if_neg hne]
          rcases List.mem_cons.mp (by simpa using hslot) with rfl | hrest
          · omega
          · have := hfirst slot hrest
            omega

/-- The ranges of the runs. -/
def ranges (runs : List (ℕ × ℕ)) : List (ℕ × ℕ) := runs.map fun r ↦ (r.1, r.1 + r.2)

theorem Cuts.canonical {slots : List ℕ} {runs : List (ℕ × ℕ)} (h : Cuts slots runs)
    (hsorted : slots.Pairwise (· < ·)) : Ranges.Canonical (ranges runs) := by
  induction h with
  | nil => exact ⟨nofun, .nil⟩
  | @cons first slots runs hruns ih =>
      have hrest := ih (hsorted.sublist (List.drop_sublist _ _))
      have hge : ∀ slot ∈ first :: slots, first ≤ slot := by
        rw [List.forall_mem_cons]
        exact ⟨le_rfl, fun slot hslot ↦ ((List.pairwise_cons.mp hsorted).1 slot hslot).le⟩
      refine ⟨?_, ?_⟩
      · rw [ranges, List.map_cons, List.forall_mem_cons]
        exact ⟨Nat.lt_add_of_pos_right (run_pos first slots), hrest.nonempty⟩
      · rw [ranges, List.map_cons, List.pairwise_cons]
        refine ⟨fun q hq ↦ lt_of_mem_drop_run hsorted hge _ ?_, hrest.apart⟩
        -- the first slot of a later run is one of the slots that follow
        obtain ⟨r, hr, rfl⟩ := List.mem_map.mp hq
        rw [← hruns.flatMap_eq, List.mem_flatMap]
        have hpos := hrest.nonempty _ hq
        refine ⟨r, hr, ?_⟩
        rw [slotsOf, List.mem_range'_1]
        omega

theorem covers_ranges (runs : List (ℕ × ℕ)) (s : ℕ) :
    Ranges.Covers (ranges runs) s ↔ s ∈ runs.flatMap slotsOf := by
  simp only [Ranges.Covers, ranges, List.mem_map, exists_exists_and_eq_and, List.mem_flatMap,
    slotsOf, List.mem_range'_1]

theorem mem_ranges_iff {runs : List (ℕ × ℕ)} {first len : ℕ} :
    (first, first + len) ∈ ranges runs ↔ (first, len) ∈ runs := by
  constructor
  · intro h
    obtain ⟨⟨first', len'⟩, hr, heq⟩ := List.mem_map.mp h
    obtain ⟨rfl, hlen⟩ := Prod.mk.inj heq
    exact Nat.add_left_cancel hlen ▸ hr
  · exact fun h ↦ List.mem_map.mpr ⟨_, h, rfl⟩

/-- The later runs cut what the earlier ones leave. -/
theorem Cuts.drop {slots : List ℕ} {runs : List (ℕ × ℕ)} (h : Cuts slots runs) (j : ℕ) :
    Cuts ((runs.drop j).flatMap slotsOf) (runs.drop j) := by
  induction h generalizing j with
  | nil =>
      rw [List.drop_nil]
      exact .nil
  | cons hruns ih =>
      cases j with
      | zero =>
          rw [List.drop_zero, (Cuts.cons hruns).flatMap_eq]
          exact .cons hruns
      | succ j => exact ih j

/-! ## The calls -/

/-- One call of `provide` and what it returned. -/
structure ProvideCall (ε : Type) where
  first : ℕ
  len : ℕ
  result : Except ε Unit

/-- `provide`, with its calls written down. -/
def record (provide : σ → ℕ → ℕ → Except ε Unit × σ) (s : σ × List (ProvideCall ε))
    (first len : ℕ) : Except ε Unit × (σ × List (ProvideCall ε)) :=
  let (result, s') := provide s.1 first len
  (result, (s', s.2 ++ [⟨first, len, result⟩]))

/-- The call that hands a run over. -/
def provided (r : ℕ × ℕ) : ProvideCall ε := ⟨r.1, r.2, .ok ()⟩

/-- The runs are provided one after the other: all of them, or those before one that fails,
whose slots are left with those of the later runs. -/
def Hands (provide : σ → ℕ → ℕ → Except ε Unit × σ) (s : σ) (slots : List ℕ)
    (runs : List (ℕ × ℕ)) : Prop :=
  ∀ fuel, slots.length ≤ fuel →
    (∃ s', provideRuns (record provide) fuel (s, []) slots =
      some (.ok (), (s', runs.map provided), [])) ∨
    ∃ j r error s', runs[j]? = some r ∧ provideRuns (record provide) fuel (s, []) slots =
      some (.error error, (s', (runs.take j).map provided ++ [⟨r.1, r.2, .error error⟩]),
        (runs.drop j).flatMap slotsOf)

theorem Cuts.provideRunsLoop_eq {slots : List ℕ} {runs : List (ℕ × ℕ)} (h : Cuts slots runs)
    (provide : σ → ℕ → ℕ → Except ε Unit × σ) {back : List ℕ} {handed fuel : ℕ}
    (hslots : back.drop handed = slots) (hfuel : slots.length ≤ fuel) (s : σ)
    (calls : List (ProvideCall ε)) :
    (∃ s', provideRunsLoop (record provide) back fuel handed (s, calls) =
      some (.ok (), (s', calls ++ runs.map provided), [])) ∨
    ∃ j r error s', runs[j]? = some r ∧
      provideRunsLoop (record provide) back fuel handed (s, calls) =
        some (.error error,
          (s', calls ++ ((runs.take j).map provided ++ [⟨r.1, r.2, .error error⟩])),
          (runs.drop j).flatMap slotsOf) := by
  induction h generalizing handed fuel s calls with
  | nil =>
      rw [provideRunsLoop_of_nil hslots]
      exact Or.inl ⟨s, by rw [List.map_nil, List.append_nil]⟩
  | @cons first slots runs hruns ih =>
      cases fuel with
      | zero => cases hfuel
      | succ fuel =>
          rw [provideRunsLoop_of_cons hslots, record]
          rcases provide s first (run first (first :: slots)) with ⟨error | _, s'⟩
          · refine Or.inr ⟨0, _, error, s', rfl, ?_⟩
            rw [List.drop_zero, (Cuts.cons hruns).flatMap_eq]
            rfl
          · rcases ih (drop_handed_add hslots _) (length_drop_run_le hfuel) s'
                (calls ++ [provided (first, run first (first :: slots))])
              with ⟨s'', hloop⟩ | ⟨j, r, error, s'', hr, hloop⟩
            · refine Or.inl ⟨s'', hloop.trans ?_⟩
              rw [List.append_assoc, List.map_cons, List.singleton_append]
            · refine Or.inr ⟨j + 1, r, error, s'', hr, hloop.trans ?_⟩
              rw [List.append_assoc, List.take_succ_cons, List.map_cons, List.singleton_append,
                List.cons_append, List.drop_succ_cons]

theorem Cuts.hands {slots : List ℕ} {runs : List (ℕ × ℕ)} (h : Cuts slots runs)
    {back : List ℕ} (hslots : back.insertionSort (· ≤ ·) = slots)
    (provide : σ → ℕ → ℕ → Except ε Unit × σ) (s : σ) : Hands provide s back runs := by
  intro fuel hfuel
  rw [← List.length_insertionSort (· ≤ ·), hslots] at hfuel
  unfold provideRuns
  rw [hslots]
  simpa only [List.nil_append] using h.provideRunsLoop_eq provide List.drop_zero hfuel s []

/-! ## The driver's runs -/

namespace UringDriver

/-- A push to the submission queue for one run. -/
def pushRun (s : UringDriver × List Room) (first len : ℕ) :
    Except Io Unit × (UringDriver × List Room) :=
  let (result, d) := s.1.push (s.1.provide first len) (s.2.headD .fits)
  (result, (d, s.2.tail))

theorem provideLoop_eq_provideRunsLoop {back : List ℕ} {n : ℕ} :
    ∀ {slots : List ℕ} {handed : ℕ} (d : UringDriver) (rooms : List Room),
      back.drop handed = slots → slots.length ≤ n → ∃ rooms',
        provideRunsLoop pushRun back n handed (d, rooms) =
          some ((d.provideLoop n slots rooms).1, ((d.provideLoop n slots rooms).2.1, rooms'),
            (d.provideLoop n slots rooms).2.2) := by
  induction n with
  | zero =>
      intro slots handed d rooms hslots hn
      obtain rfl := List.length_eq_zero_iff.mp (Nat.le_zero.mp hn)
      exact ⟨rooms, provideRunsLoop_of_nil hslots 0 (d, rooms)⟩
  | succ n ih =>
      intro slots handed d rooms hslots hn
      cases slots with
      | nil => exact ⟨rooms, provideRunsLoop_of_nil hslots _ (d, rooms)⟩
      | cons first slots =>
          rw [provideRunsLoop_of_cons hslots, pushRun]
          unfold provideLoop
          dsimp only
          rcases d.push (d.provide first (run first (first :: slots))) (rooms.headD .fits)
            with ⟨e | _, d'⟩
          · exact ⟨rooms.tail, rfl⟩
          · apply ih d' rooms.tail
            · exact drop_handed_add hslots _
            · exact length_drop_run_le hn

/-- The driver's hand-over is `provide_runs` with a push for each run. -/
theorem provideRuns_eq (d : UringDriver) (back : List ℕ) (rooms : List Room) :
    ∃ rooms', IoUring.provideRuns pushRun back.length (d, rooms) back =
      some ((d.provideRuns back rooms).1, ((d.provideRuns back rooms).2.1, rooms'),
        (d.provideRuns back rooms).2.2) :=
  provideLoop_eq_provideRunsLoop d rooms List.drop_zero
    (List.length_insertionSort (· ≤ ·) back).le

end UringDriver

/-! ## The whole hand-over -/

/-- `provide_runs` hands over exactly what it says.  For any list of distinct slots there are its
maximal runs in ascending order, such that for any `provide` the calls are these runs, each once,
up to the first that fails.  What is handed over and what is left is the list; what is left is
sorted, and a retry provides the runs not handed over. -/
theorem provide_runs_exact {back : List ℕ} (hback : back.Nodup) :
    ∃ runs : List (ℕ × ℕ),
      (∀ first len, (first, len) ∈ runs ↔ Ranges.Maximal (· ∈ back) first (first + len)) ∧
      runs.Pairwise (fun r r' ↦ r.1 + r.2 < r'.1) ∧
      (∀ (provide : σ → ℕ → ℕ → Except ε Unit × σ) (s : σ), Hands provide s back runs) ∧
      ∀ j, ((runs.take j).flatMap slotsOf ++ (runs.drop j).flatMap slotsOf).Perm back ∧
        ((runs.drop j).flatMap slotsOf).Pairwise (· < ·) ∧
        ∀ (provide : σ → ℕ → ℕ → Except ε Unit × σ) (s : σ),
          Hands provide s ((runs.drop j).flatMap slotsOf) (runs.drop j) := by
  have hperm := List.perm_insertionSort (· ≤ ·) back
  have hsorted : (back.insertionSort (· ≤ ·)).Pairwise (· < ·) :=
    (List.pairwise_insertionSort (· ≤ ·) back).imp₂ (fun _ _ ↦ lt_of_le_of_ne)
      (hperm.nodup_iff.mpr hback)
  obtain ⟨runs, hruns⟩ := exists_cuts (back.insertionSort (· ≤ ·))
  have hcanonical := hruns.canonical hsorted
  have hcovers : Ranges.Covers (ranges runs) = (· ∈ back) := by
    funext s
    rw [eq_iff_iff, covers_ranges, hruns.flatMap_eq, hperm.mem_iff]
  refine ⟨runs, fun first len ↦ ?_, ?_, hruns.hands rfl, fun j ↦ ?_⟩
  · rw [← mem_ranges_iff, hcanonical.mem_iff_maximal, hcovers]
  · exact List.pairwise_map.mp hcanonical.apart
  · have hsplit : (runs.take j).flatMap slotsOf ++ (runs.drop j).flatMap slotsOf =
        back.insertionSort (· ≤ ·) := by
      rw [← List.flatMap_append, List.take_append_drop, hruns.flatMap_eq]
    have hleft : ((runs.drop j).flatMap slotsOf).Pairwise (· < ·) :=
      (List.pairwise_append.mp (hsplit ▸ hsorted)).2.1
    refine ⟨hsplit ▸ hperm, hleft, (hruns.drop j).hands ?_⟩
    exact (hleft.imp fun h ↦ h.le).insertionSort_eq

/-- A `provide` whose second call fails, over the runs 1 to 3, 5 and 9. -/
theorem provide_runs_exact_failing :
    [9, 2, 5, 1, 3].Nodup ∧ ∃ runs, (1, 3) ∈ runs ∧
      Hands (fun (n : ℕ) (_ _ : ℕ) ↦
        ((if n = 1 then .error () else .ok () : Except Unit Unit), n + 1))
        0 [9, 2, 5, 1, 3] runs := by
  have hback : [9, 2, 5, 1, 3].Nodup := by decide
  obtain ⟨runs, hmaximal, -, hhands, -⟩ := @provide_runs_exact ℕ Unit _ hback
  refine ⟨hback, runs, (hmaximal 1 3).mpr ⟨by decide, fun s hlo hhi ↦ ?_,
    fun lo hi hlo hhi hsub ↦ ⟨?_, ?_⟩⟩, hhands _ 0⟩
  · interval_cases s <;> decide
  · by_contra hne
    exact absurd (hsub 0 (by omega) (by omega)) (by decide)
  · by_contra hne
    exact absurd (hsub 4 (by omega) (by omega)) (by decide)

end IoUring
